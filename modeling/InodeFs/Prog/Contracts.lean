import InodeFs.Prog.Answers
import InodeFs.Prog.Serial

/-!
# Calls with contracts

A call may ask for something of the results that its thread has had, and promise something of its
own.  When calls that one mutex serialises begin only where they may, what the calls preserve one
after the other holds in every run, of the store while nobody has the mutex and of the results that
have been returned.
-/

namespace Prog

/-! ## Contracts -/

/-- What a call asks for of the results its thread has had, and promises of its own. -/
structure Contract (Call α : Type) where
  pre : Call → List α → Prop
  post : Call → α → Prop

namespace Contract

variable {τ Call Act M C κ ι σ α : Type} {Res : Act → Type} (P : Contract Call α)

/-- A call begins only where it may. -/
def Permits (c : ThreadConfig τ Call Act Res M C κ ι σ α)
    (l : Label τ Call Act (MonitorOp M C κ)) : Prop :=
  l.event = .begun → P.pre l.call (c.thread l.thread).done

/-- The call that a thread is in has begun where it may, and what is left of it keeps its promise. -/
def Honours (th : Thread Call (MonitorSig Act Res M C κ) ι α) : Prop :=
  ∀ f, th.frame = some f → P.pre f.call th.done ∧ Answers (P.post f.call) f.rest

variable {P}
variable [DecidableEq τ] [DecidableEq M] [DecidableEq C]
variable [Calls Call (MonitorSig Act Res M C κ) ι α] [Store (MonitorSig Act Res M C κ) ι σ]
variable {c c' : ThreadConfig τ Call Act Res M C κ ι σ α}
variable {l : Label τ Call Act (MonitorOp M C κ)}

theorem Honours.step
    (hpost : ∀ call, Answers (P.post call) (Calls.code call : Prog (MonitorSig Act Res M C κ) α))
    (h : ∀ t, P.Honours (c.thread t)) (hok : P.Permits c l) (hs : Step c l c') (t : τ) :
    P.Honours (c'.thread t) := by
  have hset : ∀ {b : ThreadConfig τ Call Act Res M C κ ι σ α} {u th}, b.thread = c.thread →
      P.Honours th → P.Honours ((b.setThread u th).thread t) := by
    intro b u th hb hth
    by_cases htu : t = u
    · rwa [htu, Config.thread_setThread_self]
    · rw [Config.thread_setThread_ne _ _ htu, hb]
      exact h t
  cases hs with
  | @begin u call todo done hu =>
    refine hset rfl fun f hf => ?_
    cases hf
    have hpre : P.pre call (c.thread u).done := hok rfl
    rw [hu] at hpre
    exact ⟨hpre, hpost call⟩
  | @act u call a k i todo done hu =>
    obtain ⟨hpre, hrest⟩ := h u _ (by rw [hu])
    rw [hu] at hpre
    refine hset rfl fun f hf => ?_
    cases hf
    exact ⟨hpre, hrest.2 _⟩
  | @pass u call s k i todo done mon hu _ =>
    obtain ⟨hpre, hrest⟩ := h u _ (by rw [hu])
    rw [hu] at hpre
    refine hset rfl fun f hf => ?_
    cases hf
    exact ⟨hpre, hrest.2⟩
  | stay _ _ => exact h t
  | «return» _ => exact hset rfl nofun

end Contract

/-! ## What the calls preserve -/

section Preserved

variable {τ Call Act M C κ ι σ α : Type} {Res : Act → Type}
variable [DecidableEq τ] [DecidableEq M]
variable [Calls Call (MonitorSig Act Res M C κ) ι α] [Store (MonitorSig Act Res M C κ) ι σ]
variable {m : M} {J : κ → Prop} {P : Contract Call α} {calls : τ → List Call}
variable {order : List (τ × Call)} {rs : List (τ × α)} {s₀ e : σ}
variable {c c' : ThreadConfig τ Call Act Res M C κ ι σ α}
variable {l : Label τ Call Act (MonitorOp M C κ)}

-- While nobody has `m`, the store is that of the serial run.
theorem Simulates.store_eq (h : Simulates m J (fun _ => false) calls order rs e c)
    (hfree : c.monitor.owner m = none) : c.store = e := by
  cases h.phase with
  | free _ _ hstore _ => exact hstore
  | @inside u _ _ _ _ _ _ _ _ halone _ _ _ =>
    have howner := halone.owner m
    rw [hfree, if_pos ⟨List.mem_of_getLast? halone.bottom, fun _ => rfl⟩] at howner
    cases howner
  | bare hbare => cases hbare

-- A thread has its results of the serial run, but perhaps for that of the call it is in.
theorem Simulates.results (h : Simulates m J (fun _ => false) calls order rs e c)
    (hP : ∀ t, P.Honours (c.thread t)) (t : τ) :
    (c.thread t).done = entriesOf t rs ∨
      ∃ f a, (c.thread t).frame = some f ∧ entriesOf t rs = (c.thread t).done ++ [a] ∧
        P.post f.call a := by
  have houtside : Outside (fun _ => false) order rs (calls t) t (c.thread t) →
      (c.thread t).done = entriesOf t rs ∨
        ∃ f a, (c.thread t).frame = some f ∧ entriesOf t rs = (c.thread t).done ++ [a] ∧
          P.post f.call a := by
    intro h
    have hth := hP t
    generalize c.thread t = th at h hth
    cases h with
    | idle _ hdone => exact .inl hdone.symm
    | before _ _ hdone => exact .inl hdone.symm
    | after _ _ hdone => exact .inr ⟨_, _, rfl, hdone, (hth _ rfl).2⟩
  cases h.phase with
  | free _ _ _ hall => exact houtside (hall t)
  | @inside u call todo done a i' p held _ halone _ hdone hall =>
    by_cases htu : t = u
    · subst htu
      obtain ⟨i, hth, hrun⟩ := halone.thread
      refine .inr ⟨⟨call, p, i⟩, a, by rw [hth], by rw [hth, hdone], ?_⟩
      exact (hP t ⟨call, p, i⟩ (by rw [hth])).2.of_run hrun
    · exact houtside (hall t htu)
  | bare hbare => cases hbare

variable [DecidableEq C]

-- A thread that locks `m` has all its results of the serial run.
theorem Simulates.locking (h : Simulates m J (fun _ => false) calls order rs e c)
    (hs : Step c l c') (hlock : l.event = .passed (.lock m)) :
    (c.thread l.thread).done = entriesOf l.thread rs ∧
      ∃ f, (c.thread l.thread).frame = some f ∧ f.call = l.call := by
  have hstep : ∃ k i todo done,
      c.thread l.thread = ⟨todo, some ⟨l.call, .sync (.lock m) k, i⟩, done⟩ := by
    cases hs with
    | pass hth _ =>
      cases hlock
      exact ⟨_, _, _, _, hth⟩
    | _ => cases hlock
  obtain ⟨k, i, todo, done, hth⟩ := hstep
  have houtside : Outside (fun _ => false) order rs (calls l.thread) l.thread (c.thread l.thread) →
      (c.thread l.thread).done = entriesOf l.thread rs := by
    intro h
    generalize c.thread l.thread = th at h hth
    cases h with
    | idle _ hdone => exact hdone.symm
    | before _ _ hdone => exact hdone.symm
    | after _ _ _ => cases hth
  refine ⟨?_, _, by rw [hth], rfl⟩
  cases h.phase with
  | free _ _ _ hall => exact houtside (hall _)
  | @inside u _ _ _ _ _ _ _ _ halone _ _ hall =>
    by_cases hu : l.thread = u
    · subst hu
      exact absurd hlock (halone.step h.quiet hs).1
    · exact houtside (hall _ hu)
  | bare hbare => cases hbare

/-- What the calls preserve one after the other, each begun where it may, holds of the serial run
that a run of the threads follows. -/
theorem preserved_of_permitted {I : List (τ × α) → σ → Prop} {v : κ}
    {ls : List (Label τ Call Act (MonitorOp M C κ))}
    (hcode : ∀ t, ∀ call ∈ calls t,
      GuardedBy m J (Calls.code call : Prog (MonitorSig Act Res M C κ) α))
    (hpost : ∀ call, Answers (P.post call) (Calls.code call : Prog (MonitorSig Act Res M C κ) α))
    (hinit : I [] s₀)
    (hI : ∀ rs t call a i s s', I rs s → P.pre call (entriesOf t rs) →
      run (Calls.code call) (Calls.input call) s = some (a, i, s') → I (rs ++ [(t, a)]) s')
    (hJ : J v) (hrun : RunWhere P.Permits (Config.start s₀ v calls) ls c) :
    ∃ rs e, serial (lockOrder m ls) s₀ = some (rs, e) ∧ I rs e ∧
      Simulates m J (fun _ => false) calls (lockOrder m ls) rs e c ∧
      ∀ t, P.Honours (c.thread t) := by
  rw [← serialOrder_false]
  induction hrun with
  | nil =>
    exact ⟨[], s₀, rfl, hinit, ⟨fun _ => rfl, .free rfl hJ rfl fun t => .idle rfl rfl⟩,
      fun t f hf => by cases hf⟩
  | @snoc ls c l c' _ hok hs ih =>
    obtain ⟨rs, e, hserial, hinv, hsim, hP⟩ := ih
    have hapart : Apart m (fun _ => false) c l := ⟨fun _ _ _ _ => rfl, fun _ => nofun⟩
    obtain ⟨order, rs', e', hserial', hsim', hcounts, hother⟩ :=
      hsim.step (fun t call hcall _ => hcode t call hcall) (fun _ _ _ h => by cases h) hserial
        hapart hs
    refine ⟨rs', e', ?_⟩
    have hP' := Contract.Honours.step hpost hP hok hs
    by_cases hl : l.Counts m fun _ => false
    · rw [serialOrder_concat _ _ _ hl, ← hcounts hl]
      refine ⟨hserial', ?_, hsim', hP'⟩
      -- the call takes effect where it locks `m`, on what its thread has had so far
      have hlock : l.event = .passed (.lock m) := hl.resolve_right fun h => nomatch h.2
      obtain ⟨hdone, f, hframe, hcall⟩ := hsim.locking hs hlock
      have hpre := (hP l.thread f hframe).1
      rw [hdone, hcall] at hpre
      rw [hcounts hl] at hserial'
      obtain ⟨a, i, hcallRun, rfl⟩ := exists_of_serial_concat hserial hserial'
      exact hI rs l.thread l.call a i e e' hinv hpre hcallRun
    · rw [serialOrder_concat_ne _ hl, ← hother hl]
      have heq := hserial.symm.trans (hother hl ▸ hserial')
      cases heq
      exact ⟨hserial', hinv, hsim', hP'⟩

end Preserved

end Prog
