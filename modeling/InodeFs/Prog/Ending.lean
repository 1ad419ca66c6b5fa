import InodeFs.Prog.Contracts
import InodeFs.Prog.Ordered
import Mathlib.Data.DFinsupp.WellFounded
import Mathlib.Data.Prod.Lex
import Mathlib.SetTheory.Ordinal.Family

/-!
# Runs that end

`Inevitable` says of a state that every way on from it comes to a state with a given property, which
excludes both that nothing can move before and that things go on for ever.  A program is a tree
without infinite paths, so finitely many threads take an infinite run only if some thread keeps
moving inside a waiting loop.
-/

/-! ## What must happen -/

section Inevitable

variable {σ β : Type*} {R : σ → σ → Prop} {P Q I : σ → Prop}

/-- Whatever steps are taken from a state, `P` holds after some of them. -/
inductive Inevitable (R : σ → σ → Prop) (P : σ → Prop) : σ → Prop where
  | now {s} (h : P s) : Inevitable R P s
  | later {s} (hmove : ∃ s', R s s') (hall : ∀ s', R s s' → Inevitable R P s') : Inevitable R P s

theorem Inevitable.mono {s : σ} (h : Inevitable R P s) (hPQ : ∀ s, P s → Q s) :
    Inevitable R Q s := by
  induction h with
  | now h => exact .now (hPQ _ h)
  | later hmove _ ih => exact .later hmove ih

/-- The rule: an invariant of the steps, a measure that they make smaller, and a step from every
state without `P`. -/
theorem Inevitable.of_measure [Preorder β] [WellFoundedLT β] (μ : σ → β)
    (hstep : ∀ s s', I s → R s s' → I s' ∧ μ s' < μ s)
    (hmove : ∀ s, I s → ¬ P s → ∃ s', R s s') {s : σ} (hI : I s) : Inevitable R P s := by
  induction hμ : μ s using WellFoundedLT.induction generalizing s with
  | ind b ih =>
    by_cases hP : P s
    · exact .now hP
    · refine .later (hmove s hI hP) fun s' hs => ?_
      obtain ⟨hI', hlt⟩ := hstep s s' hI hs
      exact ih (μ s') (hμ ▸ hlt) hI' rfl

end Inevitable

namespace Prog

/-! ## How much of a program is left -/

section Depth

variable {S : Signature} {α : Type}

/-- The height of the tree. -/
noncomputable def depth : Prog S α → Ordinal.{0}
  | ret _ => 0
  | abort => 0
  | act _ k => ⨆ r, Order.succ (depth (k r))
  | sync _ k => Order.succ (depth k)

theorem depth_act (a : S.Act) (k : S.Res a → Prog S α) (r : S.Res a) :
    depth (k r) < depth (act a k) :=
  (Order.lt_succ _).trans_le (Ordinal.le_iSup (fun r => Order.succ (depth (k r))) r)

theorem depth_sync (s : S.Sync) (k : Prog S α) : depth k < depth (sync s k) := Order.lt_succ _

end Depth

section Remaining

variable {τ Call Act M C κ ι σ α : Type} {Res : Act → Type} {S : Signature}

/-- The calls still to begin, and what is left of the one in progress. -/
noncomputable def Thread.remaining (th : Thread Call S ι α) : ℕ ×ₗ Ordinal.{0} :=
  toLex (th.todo.length, match th.frame with
    | none => 0
    | some f => Order.succ (depth f.rest))

/-- What is left to each thread. -/
noncomputable def Config.remaining {N : Type} (c : Config τ Call S ι σ α N) :
    τ → ℕ ×ₗ Ordinal.{0} := fun t => (c.thread t).remaining

variable {todo : List Call} {call : Call} {p q : Prog S α} {i j : ι} {done done' : List α}

theorem Thread.remaining_begin :
    (⟨todo, some ⟨call, p, i⟩, done⟩ : Thread Call S ι α).remaining <
      (⟨call :: todo, none, done⟩ : Thread Call S ι α).remaining :=
  Prod.Lex.toLex_lt_toLex.mpr (.inl (Nat.lt_succ_self _))

theorem Thread.remaining_proceed (h : depth q < depth p) :
    (⟨todo, some ⟨call, q, j⟩, done⟩ : Thread Call S ι α).remaining <
      (⟨todo, some ⟨call, p, i⟩, done⟩ : Thread Call S ι α).remaining :=
  Prod.Lex.toLex_lt_toLex.mpr (.inr ⟨rfl, Order.succ_lt_succ h⟩)

theorem Thread.remaining_return :
    (⟨todo, none, done'⟩ : Thread Call S ι α).remaining <
      (⟨todo, some ⟨call, p, i⟩, done⟩ : Thread Call S ι α).remaining :=
  Prod.Lex.toLex_lt_toLex.mpr (.inr ⟨rfl, Order.bot_lt_succ _⟩)

variable {c c' : ThreadConfig τ Call Act Res M C κ ι σ α} [DecidableEq τ]

-- Only the thread that takes the step has less to do.
theorem remaining_lt_of_update {t : τ} {th : Thread Call (MonitorSig Act Res M C κ) ι α}
    (hthread : c'.thread = Function.update c.thread t th)
    (hlt : th.remaining < (c.thread t).remaining) : c'.remaining < c.remaining := by
  refine Pi.lt_def.mpr ⟨fun u => ?_, t, ?_⟩
  · unfold Config.remaining
    by_cases hu : u = t
    · subst hu
      rw [hthread, Function.update_self]
      exact hlt.le
    · rw [hthread, Function.update_of_ne hu]
  · unfold Config.remaining
    rw [hthread, Function.update_self]
    exact hlt

variable [DecidableEq M] [DecidableEq C]
variable [Calls Call (MonitorSig Act Res M C κ) ι α] [Store (MonitorSig Act Res M C κ) ι σ]
variable {l : Label τ Call Act (MonitorOp M C κ)}

/-- A step leaves less to do, unless the thread stays in a waiting loop. -/
theorem Step.remaining_lt (hs : Step c l c') (hstay : ∀ s, l.event ≠ .stayed s) :
    c'.remaining < c.remaining := by
  cases hs with
  | begin hth =>
    refine remaining_lt_of_update rfl ?_
    rw [hth]
    exact Thread.remaining_begin
  | act hth =>
    refine remaining_lt_of_update rfl ?_
    rw [hth]
    exact Thread.remaining_proceed (depth_act _ _ _)
  | pass hth _ =>
    refine remaining_lt_of_update rfl ?_
    rw [hth]
    exact Thread.remaining_proceed (depth_sync _ _)
  | stay _ _ => exact absurd rfl (hstay _)
  | «return» hth =>
    refine remaining_lt_of_update rfl ?_
    rw [hth]
    exact Thread.remaining_return

end Remaining

/-! ## The results -/

section Results

variable {τ Call Act M C κ ι σ α N : Type} {Res : Act → Type} {S : Signature}

/-- Each thread has a result for each of its calls but those that it has not come to the end of. -/
def Config.Counted (calls : τ → List Call) (c : Config τ Call S ι σ α N) : Prop :=
  ∀ t, (c.thread t).done.length + (c.thread t).frame.toList.length + (c.thread t).todo.length =
    (calls t).length

/-- Each thread has a result for each of its calls. -/
def Config.Answered (calls : τ → List Call) (c : Config τ Call S ι σ α N) : Prop :=
  c.Finished ∧ ∀ t, (c.thread t).done.length = (calls t).length

theorem Config.Counted.answered {calls : τ → List Call} {c : Config τ Call S ι σ α N}
    (h : c.Counted calls) (hfinished : c.Finished) : c.Answered calls := by
  refine ⟨hfinished, fun t => ?_⟩
  have ht := h t
  rw [(hfinished t).1, (hfinished t).2] at ht
  exact ht

variable [DecidableEq τ]

theorem Config.Counted.setThread {calls : τ → List Call} {c c' : Config τ Call S ι σ α N} {t : τ}
    {th : Thread Call S ι α} (h : c.Counted calls)
    (hthread : c'.thread = Function.update c.thread t th)
    (hth : th.done.length + th.frame.toList.length + th.todo.length =
      (c.thread t).done.length + (c.thread t).frame.toList.length + (c.thread t).todo.length) :
    c'.Counted calls := by
  intro u
  by_cases hu : u = t
  · subst hu
    rw [hthread, Function.update_self, hth]
    exact h u
  · rw [hthread, Function.update_of_ne hu]
    exact h u

variable [DecidableEq M] [DecidableEq C]
variable [Calls Call (MonitorSig Act Res M C κ) ι α] [Store (MonitorSig Act Res M C κ) ι σ]
variable {c c' : ThreadConfig τ Call Act Res M C κ ι σ α} {calls : τ → List Call}

theorem Config.Counted.step {l : Label τ Call Act (MonitorOp M C κ)} (h : c.Counted calls)
    (hs : Step c l c') : c'.Counted calls := by
  cases hs with
  | begin hth =>
    refine h.setThread rfl ?_
    rw [hth, List.length_cons]
    exact Nat.add_right_comm _ 1 _
  | act hth =>
    refine h.setThread rfl ?_
    rw [hth]
    rfl
  | pass hth _ =>
    refine h.setThread rfl ?_
    rw [hth]
    rfl
  | stay _ _ => exact h
  | «return» hth =>
    refine h.setThread rfl ?_
    rw [hth, List.length_append]
    rfl

end Results

/-! ## Who can take a step -/

section Moving

variable {τ Call Act M C κ ι σ α : Type} {Res : Act → Type}
variable [DecidableEq τ] [DecidableEq M] [DecidableEq C]
variable {c : ThreadConfig τ Call Act Res M C κ ι σ α}

/-- Thread `t` has come to the death of the process in the call of frame `f`. -/
def Config.DiesIn {S : Signature} {N : Type} (c : Config τ Call S ι σ α N) (t : τ)
    (f : Frame Call S ι α) : Prop := (c.thread t).frame = some f ∧ f.rest = .abort

/-- The operation that thread `t` has come to. -/
def Config.nextOp {S : Signature} {N : Type} (c : Config τ Call S ι σ α N) (t : τ) : Option (Op S) :=
  (c.thread t).frame.bind fun f => f.rest.firstOp

-- A thread can go on through an operation for which it has not to wait.
theorem Blocked.or_passes {t : τ} {s : MonitorOp M C κ} {call : Call} {i : ι} {todo : List Call}
    {done : List α} {k : Prog (MonitorSig Act Res M C κ) α}
    (hth : c.thread t = ⟨todo, some ⟨call, .sync s k, i⟩, done⟩) :
    Blocked c t ∨ ∃ mon, c.monitor.Passes t s mon ∨ c.monitor.Stays t s mon := by
  cases s with
  | lock m =>
    cases howner : c.monitor.owner m with
    | none => exact .inr ⟨_, .inl (.lock howner)⟩
    | some u => exact .inl (.lock hth howner)
  | unlock m => exact .inr ⟨_, .inl .unlock⟩
  | update f => exact .inr ⟨_, .inl .update⟩
  | waitWhile m cv busy =>
    cases hmode : c.monitor.mode t with
    | awake =>
      cases hbusy : busy c.monitor.vars with
      | false => exact .inr ⟨_, .inl (.loopEnd hmode hbusy)⟩
      | true => exact .inr ⟨_, .inr (.park hmode hbusy)⟩
    | parked cv' => exact .inl (.parked hmode)
    | woken =>
      cases howner : c.monitor.owner m with
      | none => exact .inr ⟨_, .inr (.retake hmode howner)⟩
      | some u => exact .inl (.woken hth hmode howner)
  | wake whom =>
    cases hwhom : whom c.monitor.vars with
    | nobody => exact .inr ⟨_, .inl (.nobody hwhom)⟩
    | signal cv =>
      by_cases hno : ∀ u, c.monitor.mode u ≠ .parked cv
      · exact .inr ⟨_, .inl (.signalLost hwhom hno)⟩
      · push Not at hno
        exact .inr ⟨_, .inl (.signal hwhom hno.choose_spec)⟩
    | broadcast cv => exact .inr ⟨_, .inl (.broadcast hwhom)⟩

variable [Calls Call (MonitorSig Act Res M C κ) ι α] [Store (MonitorSig Act Res M C κ) ι σ]

/-- A thread with calls left that need not wait can take a step. -/
theorem exists_step {t : τ} (hleft : c.Unfinished t) (hblocked : ¬ Blocked c t)
    (halive : ∀ f, ¬ c.DiesIn t f) : ∃ l c', Step c l c' := by
  unfold Config.Unfinished at hleft
  generalize hth : c.thread t = th at hleft
  obtain ⟨todo, frame, done⟩ := th
  cases frame with
  | none =>
    cases todo with
    | nil => exact (hleft.elim (fun h => h rfl) fun h => h rfl).elim
    | cons call todo => exact ⟨_, _, .begin hth⟩
  | some f =>
    obtain ⟨call, p, i⟩ := f
    cases p with
    | ret a => exact ⟨_, _, .return hth⟩
    | abort => exact absurd ⟨congrArg Thread.frame hth, rfl⟩ (halive _)
    | act a k => exact ⟨_, _, .act hth⟩
    | sync s k =>
      rcases Blocked.or_passes hth with hb | ⟨mon, hpass | hstay⟩
      · exact absurd hb hblocked
      · exact ⟨_, _, .pass hth hpass⟩
      · exact ⟨_, _, .stay hth hstay⟩

end Moving

end Prog
