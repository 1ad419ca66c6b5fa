import InodeFs.Prog.Calm
import InodeFs.RwThreads
import Mathlib.Data.Finset.Card

/-!
# The counters of an `a4_rwlock`

Three of the counters say how many threads are inside a section or wait for one.  `waitingReaders` is
taken down by every `reader_enter` and put up by none, so it says how many have got past the waiting
loop, with the sign reversed.
-/

namespace InodeFs

open Prog

variable {τ : Type}

/-! ## Accurate counters -/

/-- `n` is the number of threads for which `p` holds. -/
def IsCount (p : τ → Prop) (n : Int) : Prop := ∃ s : Finset τ, (∀ t, t ∈ s ↔ p t) ∧ n = s.card

/-- Thread `t` is blocked in the wait of method `call`. -/
def BlockedIn (call : RwCall) (c : RwThreads τ) (t : τ) : Prop :=
  c.monitor.mode t ≠ .awake ∧ ∃ f, (c.thread t).frame = some f ∧ f.call = call

structure Accurate (c : RwThreads τ) : Prop where
  activeReaders : IsCount (Reading c) (c.monitor.vars 0).activeReaders
  activeWriters : IsCount (Writing c) (c.monitor.vars 0).activeWriters
  waitingWriters : IsCount (BlockedIn .writerEnter c) (c.monitor.vars 0).waitingWriters
  waitingReaders : IsCount (BlockedIn .readerEnter c) (c.monitor.vars 0).waitingReaders

/-- No thread has the mutex in the middle of a method: none has just left its counters half updated. -/
def Settled (c : RwThreads τ) : Prop :=
  ∀ t, c.monitor.owner (.rwlock 0) = some t → (c.thread t).frame = none

/-- A method is done: an enter method returns, or an exit method unlocks the mutex, its last act. -/
def Leaves (l : RwLabel τ) : Prop :=
  (l.event = .returned ∧ l.call.exits = false) ∨ l.event = .passed (.unlock (.rwlock 0))

/-- The counters are what they are for. -/
structure Bookkept (c : RwThreads τ) : Prop where
  nonneg : 0 ≤ (c.monitor.vars 0).activeReaders ∧ 0 ≤ (c.monitor.vars 0).activeWriters ∧
    0 ≤ (c.monitor.vars 0).waitingWriters ∧ 0 ≤ (c.monitor.vars 0).waitingReaders
  accurate : Settled c → Accurate c
  /-- `writer_exit` is about to broadcast to the readers just when some wait and no writer does. -/
  wakes : ∀ t whom k i, (c.thread t).frame = some ⟨.writerExit, .sync (.wake whom) k, i⟩ →
    (whom c.monitor.vars = .broadcast (0, .canRead) ↔
      (∃ u, BlockedIn .readerEnter c u) ∧ ∀ u, ¬ BlockedIn .writerEnter c u)

/-- `reader_enter` is past its waiting loop, and executes `waitingReaders--`. -/
def admits (l : RwLabel τ) : Bool :=
  match l.call, l.event with
  | .readerEnter, .passed (.update _) => true
  | _, _ => false

/-! ## What the holder of the mutex knows -/

/-- The counters while the mutex is free. -/
def AtRest (v : UInt32 → RwCounters) : Prop := ∃ n ≤ 0, v 0 = ⟨0, n, 0, 0⟩

/-- What a thread knows of the counters between two calls, with these calls to come. -/
inductive Knows : List RwCall → Option (UInt32 → RwCounters) → Prop where
  | outside {calls} (h : Matched calls) : Knows calls none
  | reading {calls v n} (h : Matched calls) (hn : n ≤ 0) (hv : v 0 = ⟨0, n, 0, 1⟩) :
      Knows (.readerExit :: calls) (some v)
  | writing {calls v n} (h : Matched calls) (hn : n ≤ 0) (hv : v 0 = ⟨0, n, 1, 0⟩) :
      Knows (.writerExit :: calls) (some v)

/-- The same at the end of a call. -/
def KnowsAfter (call : RwCall) (calls : List RwCall) (x : Option (UInt32 → RwCounters)) : Prop :=
  Knows calls x ∧ (x = none ↔ call.exits = true)

/-- What a call does to the counters with each of its assignments. -/
structure Moves (call : RwCall) (v v' : UInt32 → RwCounters) : Prop where
  waitingReaders : (v' 0).waitingReaders =
    (v 0).waitingReaders - if call = .readerEnter then 1 else 0
  nonneg : 0 ≤ (v' 0).activeReaders ∧ 0 ≤ (v' 0).activeWriters ∧ 0 ≤ (v' 0).waitingWriters

-- The counters after an assignment to them.
theorem vars_update {v : UInt32 → RwCounters} {x y : RwCounters} (f : RwCounters → RwCounters)
    (hv : v 0 = x) (hf : f x = y) : Function.update v 0 (f (v 0)) 0 = y := by
  rw [Function.update_self, hv, hf]

theorem moves_of_eq {call : RwCall} {v v' : UInt32 → RwCounters} {w n a b w' n' a' b' : Int}
    (hv : v 0 = ⟨w, n, a, b⟩) (hv' : v' 0 = ⟨w', n', a', b'⟩)
    (hn : n' = n - if call = .readerEnter then 1 else 0) (hw : 0 ≤ w') (ha : 0 ≤ a') (hb : 0 ≤ b') :
    Moves call v v' := by
  refine ⟨?_, ?_⟩ <;> rw [hv']
  · rwa [hv]
  · exact ⟨hb, ha, hw⟩

-- An exit method, by the counter that it takes down and by whom it wakes.
theorem calm_exit {call : RwCall} {calls : List RwCall} {v : UInt32 → RwCounters} {n a b : Int}
    (f : RwCounters → RwCounters) (whom : RwCounters → Wake (UInt32 × CondVar))
    (hcall : call = .readerExit ∨ call = .writerExit) (h : Matched calls) (hn : n ≤ 0)
    (hv : v 0 = ⟨0, n, a, b⟩) (hf : f ⟨0, n, a, b⟩ = ⟨0, n, 0, 0⟩)
    (hwhom : whom ⟨0, n, 0, 0⟩ = .nobody) :
    Follows (calm (.rwlock 0) AtRest (Moves call)) (do
      Rwlock.update 0 f
      Rwlock.wake 0 whom
      Prog.synchronise (.unlock (.rwlock 0)) : Prog RwSig Unit)
      (fun _ => KnowsAfter call calls) (some v) := by
  have hv' := vars_update f hv hf
  have hexits : call.exits = true ∧ call ≠ .readerEnter := by
    rcases hcall with rfl | rfl <;> exact ⟨rfl, nofun⟩
  have hmoves : Moves call v (Function.update v 0 (f (v 0))) := by
    refine moves_of_eq hv hv' ?_ le_rfl le_rfl le_rfl
    rw [if_neg hexits.2, Int.sub_zero]
  have hwake : whom (Function.update v 0 (f (v 0)) 0) = .nobody := by rw [hv', hwhom]
  have hafter : KnowsAfter call calls none := ⟨.outside h, iff_of_true rfl hexits.1⟩
  exact ⟨v, rfl, hmoves, ⟨rfl, hafter, _, rfl, n, hn, hv'⟩, _, rfl, hwake⟩

/-- The methods keep to the rules: each one that has the mutex finds no reason to wait. -/
theorem calmCalls : CalmCalls (Calls.code : RwCall → Prog RwSig Unit) (.rwlock 0) AtRest Moves Knows
    KnowsAfter where
  follows call calls x h := by
    cases h with
    | outside h =>
      cases h with
      | reading h =>
        -- `reader_enter`
        refine ⟨rfl, rfl, fun v hv => ?_⟩
        obtain ⟨n, hn, hv⟩ := hv
        have hbusy : Rwlock.readerBusy (v 0) = false := by
          rw [hv]
          rfl
        have hv' := vars_update (y := ⟨0, n - 1, 0, 1⟩)
          (fun c => { c with waitingReaders := c.waitingReaders - 1, activeReaders := c.activeReaders + 1 })
          hv rfl
        have hmoves : Moves .readerEnter v _ := moves_of_eq hv hv' rfl le_rfl le_rfl (by decide)
        have hafter := Knows.reading h (show n - 1 ≤ 0 by omega) hv'
        exact ⟨⟨v, rfl, hmoves, hafter, iff_of_false nofun nofun⟩, v, rfl, hbusy⟩
      | writing h =>
        -- `writer_enter`
        refine ⟨rfl, rfl, fun v hv => ?_⟩
        obtain ⟨n, hn, hv⟩ := hv
        have hv₁ := vars_update (y := ⟨1, n, 0, 0⟩)
          (fun c => { c with waitingWriters := c.waitingWriters + 1 }) hv rfl
        have hmoves₁ : Moves .writerEnter v _ :=
          moves_of_eq hv hv₁ (Int.sub_zero n).symm (by decide) le_rfl le_rfl
        have hbusy := congrArg Rwlock.writerBusy hv₁
        have hv₂ := vars_update (y := ⟨0, n, 1, 0⟩)
          (fun c => { c with waitingWriters := c.waitingWriters - 1, activeWriters := 1 }) hv₁ rfl
        have hmoves₂ : Moves .writerEnter _ _ :=
          moves_of_eq hv₁ hv₂ (Int.sub_zero n).symm le_rfl (by decide) le_rfl
        have hafter := Knows.writing h hn hv₂
        exact ⟨v, rfl, hmoves₁, ⟨_, rfl, hmoves₂, hafter, iff_of_false nofun nofun⟩, _, rfl, hbusy⟩
    | reading h hn hv =>
      -- `reader_exit`
      refine calm_exit (fun c => { c with activeReaders := c.activeReaders - 1 })
        (fun c => if c.activeReaders = 0 ∧ c.waitingWriters > 0 then .signal (0, .canWrite) else .nobody)
        (.inl rfl) h hn hv rfl (if_neg ?_)
      exact fun hc => absurd hc.2 (Int.lt_irrefl 0)
    | writing h hn hv =>
      -- `writer_exit`; the counter of waiting readers is never above zero
      refine calm_exit (fun c => { c with activeWriters := 0 })
        (fun c => if c.waitingWriters > 0 then .signal (0, .canWrite)
          else if c.waitingReaders > 0 then .broadcast (0, .canRead) else .nobody)
        (.inr rfl) h hn hv rfl ?_
      rw [if_neg (Int.lt_irrefl 0), if_neg (Int.not_lt.mpr hn)]
  next _ _ _ h := h.1

/-! ## Counting -/

theorem isCount_none_iff {p : τ → Prop} {n : Int} (h : ∀ t, ¬ p t) : IsCount p n ↔ n = 0 := by
  constructor
  · rintro ⟨s, hs, rfl⟩
    rw [Finset.eq_empty_iff_forall_notMem.mpr fun t ht => h t ((hs t).mp ht), Finset.card_empty]
    rfl
  · rintro rfl
    exact ⟨∅, fun t => iff_of_false (Finset.notMem_empty t) (h t), rfl⟩

-- Nobody but thread `t` comes into question.
theorem isCount_one_of_only {p : τ → Prop} {t : τ} (ht : p t) (hothers : ∀ u ≠ t, ¬ p u) :
    IsCount p 1 := by
  refine ⟨{t}, fun u => ?_, rfl⟩
  rw [Finset.mem_singleton]
  refine ⟨fun hu => hu ▸ ht, fun hu => ?_⟩
  by_contra hut
  exact hothers u hut hu

theorem isCount_zero_of_only {p : τ → Prop} {t : τ} (ht : ¬ p t) (hothers : ∀ u ≠ t, ¬ p u) :
    IsCount p 0 := by
  refine (isCount_none_iff fun u hu => ?_).mpr rfl
  by_cases hut : u = t
  · exact ht (hut ▸ hu)
  · exact hothers u hut hu

/-! ## The counters in every run -/

section Run

variable {calls : τ → List RwCall} {ls : List (RwLabel τ)} {c : RwThreads τ} {t : τ}

theorem admits_eq_false {l : RwLabel τ} (h : ∀ f, l.event ≠ .passed (.update f)) :
    admits l = false := by
  unfold admits
  split
  · rename_i heq
    exact absurd heq (h _)
  · rfl

theorem admits_eq_decide {l : RwLabel τ} (h : ∃ f, l.event = .passed (.update f)) :
    admits l = decide (l.call = .readerEnter) := by
  obtain ⟨f, hf⟩ := h
  unfold admits
  rw [hf]
  cases l.call <;> rfl
variable [DecidableEq τ]

theorem calm_of_matched (hcalls : ∀ t, Matched (calls t))
    (hrun : Run (Config.start () (fun _ => .init) calls) ls c) :
    Calm (.rwlock 0) AtRest Moves Knows KnowsAfter c :=
  calm_of_run calmCalls (Calm.start ⟨0, le_rfl, rfl⟩ fun t => .outside (hcalls t)) hrun

/-- `waitingReaders` counts the calls of `reader_enter` downwards. -/
theorem counters_of_run (hcalls : ∀ t, Matched (calls t))
    (hrun : Run (Config.start () (fun _ => .init) calls) ls c) :
    (c.monitor.vars 0).waitingReaders = -(ls.countP admits : Int) ∧
      0 ≤ (c.monitor.vars 0).activeReaders ∧ 0 ≤ (c.monitor.vars 0).activeWriters ∧
      0 ≤ (c.monitor.vars 0).waitingWriters := by
  induction hrun with
  | nil => exact ⟨rfl, le_rfl, le_rfl, le_rfl⟩
  | @snoc ls c l c' hrun hs ih =>
    rw [List.countP_append, List.countP_singleton]
    rcases ((calm_of_matched hcalls hrun).step calmCalls hs).2 with ⟨hno, heq⟩ | ⟨hup, hmoves⟩
    · rw [heq, admits_eq_false hno]
      exact ih
    · refine ⟨?_, hmoves.nonneg⟩
      rw [hmoves.waitingReaders, ih.1, admits_eq_decide hup]
      simp only [decide_eq_true_eq]
      split <;> omega

theorem not_blocked (hc : Calm (.rwlock 0) AtRest Moves Knows KnowsAfter c) (call : RwCall) (t : τ) :
    ¬ BlockedIn call c t := fun h => h.1 (hc.quiet t)

-- Without the mutex, a thread is not inside a section.
theorem not_inside (hc : Calm (.rwlock 0) AtRest Moves Knows KnowsAfter c)
    (ht : c.monitor.owner (.rwlock 0) ≠ some t) : ¬ Reading c t ∧ ¬ Writing c t := by
  -- the calls to come begin with an enter call
  have hhead : (c.thread t).frame = none → ∀ call, (c.thread t).todo.head? = some call →
      call.exits = false := by
    intro hframe call hcall
    have hknows := hc.between t hframe
    rw [Monitor.view_eq_none ht] at hknows
    generalize (c.thread t).todo = calls at hcall hknows
    cases hknows with
    | outside h =>
      cases h with
      | nil => cases hcall
      | reading _ =>
        cases hcall
        rfl
      | writing _ =>
        cases hcall
        rfl
  exact ⟨fun h => absurd (hhead h.1 _ h.2) nofun, fun h => absurd (hhead h.1 _ h.2) nofun⟩

/-- In a settled state the other three counters are accurate. -/
theorem counts_of_settled (hc : Calm (.rwlock 0) AtRest Moves Knows KnowsAfter c)
    (hsettled : Settled c) :
    IsCount (Reading c) (c.monitor.vars 0).activeReaders ∧
      IsCount (Writing c) (c.monitor.vars 0).activeWriters ∧
      (c.monitor.vars 0).waitingWriters = 0 := by
  cases howner : c.monitor.owner (.rwlock 0) with
  | none =>
    obtain ⟨n, -, hv⟩ := hc.free howner
    have hout : ∀ t, ¬ Reading c t ∧ ¬ Writing c t := fun t => by
      refine not_inside hc ?_
      rw [howner]
      exact nofun
    rw [hv]
    exact ⟨(isCount_none_iff fun t => (hout t).1).mpr rfl,
      (isCount_none_iff fun t => (hout t).2).mpr rfl, rfl⟩
  | some t =>
    have hframe := hsettled t howner
    have hknows := hc.between t hframe
    rw [Monitor.view_eq_some.mpr ⟨howner, rfl⟩] at hknows
    have hout : ∀ u ≠ t, ¬ Reading c u ∧ ¬ Writing c u := fun u hu => by
      refine not_inside hc ?_
      rw [howner]
      exact fun h => hu (Option.some.inj h).symm
    -- the owner is a reader or a writer, by its next call
    generalize htodo : (c.thread t).todo = todo at hknows
    cases hknows with
    | reading _ _ hv =>
      have hmine : Reading c t := ⟨hframe, by rw [htodo]; rfl⟩
      rw [hv]
      exact ⟨isCount_one_of_only hmine fun u hu => (hout u hu).1,
        isCount_zero_of_only hmine.not_writing fun u hu => (hout u hu).2, rfl⟩
    | writing _ _ hv =>
      have hmine : Writing c t := ⟨hframe, by rw [htodo]; rfl⟩
      rw [hv]
      exact ⟨isCount_zero_of_only (fun h => h.not_writing hmine) fun u hu => (hout u hu).1,
        isCount_one_of_only hmine fun u hu => (hout u hu).2, rfl⟩

-- A method leaves a settled state behind.
theorem settled_of_step {c' : RwThreads τ} {l : RwLabel τ}
    (hc : Calm (.rwlock 0) AtRest Moves Knows KnowsAfter c) (hs : Step c l c') (hl : Leaves l) :
    Settled c' := by
  intro u hu
  cases hs with
  | @«return» t call a i todo done hth =>
    -- an enter method ends with the mutex
    have hafter := hc.within t _ (by rw [hth])
    have hexits : call.exits = false := by
      rcases hl with hl | hl
      · exact hl.2
      · cases hl
    have hmine : c.monitor.owner (.rwlock 0) = some t := by
      by_contra hno
      rw [Monitor.view_eq_none hno] at hafter
      cases hexits.symm.trans (hafter.2.mp rfl)
    obtain rfl : t = u := Option.some.inj (hmine.symm.trans hu)
    rw [Config.thread_setThread_self]
  | pass _ hpass =>
    -- the unlock of an exit method
    rcases hl with ⟨hl, -⟩ | hl
    · cases hl
    · cases hl
      cases hpass
      rw [Config.monitor_setThread, Monitor.owner_setOwner_self] at hu
      cases hu
  | begin _ => rcases hl with ⟨hl, -⟩ | hl <;> cases hl
  | act _ => rcases hl with ⟨hl, -⟩ | hl <;> cases hl
  | stay _ _ => rcases hl with ⟨hl, -⟩ | hl <;> cases hl

/-- The counters are what they are for as long as no reader has been let in. -/
theorem bookkept_iff (hcalls : ∀ t, Matched (calls t))
    (hrun : Run (Config.start () (fun _ => .init) calls) ls c) :
    (Bookkept c ↔ ∀ l ∈ ls, admits l = false) ∧ (∀ l ∈ ls.getLast?, Leaves l → Settled c) := by
  have hc := calm_of_matched hcalls hrun
  obtain ⟨hreaders, hnonneg⟩ := counters_of_run hcalls hrun
  have hnone : (∀ l ∈ ls, admits l = false) ↔ (c.monitor.vars 0).waitingReaders = 0 := by
    rw [hreaders, Int.neg_eq_zero, Int.natCast_eq_zero, List.countP_eq_zero]
    simp only [Bool.not_eq_true]
  refine ⟨⟨fun h => hnone.mpr ?_, fun h => ?_⟩, fun l hl hleaves => ?_⟩
  · have hpos := h.nonneg.2.2.2
    omega
  · have hzero := hnone.mp h
    refine ⟨⟨hnonneg.1, hnonneg.2.1, hnonneg.2.2, hzero.ge⟩, fun hsettled => ?_,
      fun t whom k i hframe => ?_⟩
    · obtain ⟨har, haw, hww⟩ := counts_of_settled hc hsettled
      exact ⟨har, haw, (isCount_none_iff (not_blocked hc _)).mpr hww,
        (isCount_none_iff (not_blocked hc _)).mpr hzero⟩
    · obtain ⟨-, v, hx, hwhom⟩ := hc.within t _ hframe
      obtain ⟨-, rfl⟩ := Monitor.view_eq_some.mp hx
      rw [hwhom]
      exact iff_of_false nofun fun hu => not_blocked hc _ _ hu.1.choose_spec
  · obtain ⟨ls', rfl⟩ := List.getLast?_eq_some_iff.mp hl
    obtain ⟨c', hrun', hs⟩ := hrun.of_concat
    exact settled_of_step (calm_of_matched hcalls hrun') hs hleaves

end Run

/-- A writer is inside, and no reader has come yet. -/
theorem bookkept_iff_writing : ∃ ls c, Run readerAndWriter ls c ∧ Writing c true ∧ Bookkept c := by
  obtain ⟨ls, c, hrun, hwriting, hcalls⟩ := exists_writing
  refine ⟨ls, c, hrun, hwriting, (bookkept_iff matched_readerAndWriter hrun).1.mpr fun l hl => ?_⟩
  rw [admits, hcalls l hl]

/-- One reader has entered, and `waitingReaders` is -1. -/
theorem not_bookkept_reading : ¬ ∀ (calls : Bool → List RwCall), (∀ t, Matched (calls t)) →
    ∀ ls c, Run (Config.start () (fun _ => .init) calls : RwThreads Bool) ls c → Bookkept c := by
  intro h
  have hfollow : (twoReaders.follow (fun _ _ => true) (List.replicate 5 false)).any
      (fun r => (r.2.monitor.vars 0).waitingReaders == -1) = true := by decide +kernel
  obtain ⟨⟨ls, c⟩, hls, hc⟩ := Option.any_eq_true .. |>.mp hfollow
  have hrun : Run twoReaders ls c := (RunWhere.nil.follow (fun _ _ _ => trivial) hls).run
  have hpos := (h _ matched_twoReaders ls c hrun).nonneg.2.2.2
  rw [beq_iff_eq.mp hc] at hpos
  exact absurd hpos (by decide)

end InodeFs
