import InodeFs.Prog.Ghost
import InodeFs.Prog.Threads

/-!
# A monitor in which no one waits

The guarded variables meet a condition whenever the mutex is free, and the thread that has locked it
knows their values.  `calm` are the rules for calls whose waiting loops are then never entered and
which never wake anyone; in every run of such calls all threads stay awake.
-/

namespace Prog

variable {τ Call Act M C κ ι σ α : Type} {Res : Act → Type}

/-- The rules, on the values that the thread knows if it has locked `m`.  The variables meet `J` when
the mutex is free, and each assignment changes them as `R` says. -/
def calm (m : M) (J : κ → Prop) (R : κ → κ → Prop) : Ghost (MonitorSig Act Res M C κ) (Option κ) where
  act _ P x := ∀ r, P r x
  sync
    | .lock m', P, x => m' = m ∧ x = none ∧ ∀ v, J v → P (some v)
    | .unlock m', P, x => m' = m ∧ P none ∧ ∃ v, x = some v ∧ J v
    | .update f, P, x => ∃ v, x = some v ∧ R v (f v) ∧ P (some (f v))
    | .waitWhile _ _ busy, P, x => P x ∧ ∃ v, x = some v ∧ busy v = false
    | .wake whom, P, x => P x ∧ ∃ v, x = some v ∧ whom v = .nobody
  act_mono hPQ h := fun r => hPQ _ _ (h r)
  sync_mono {s P Q x} hPQ h := by
    cases s with
    | lock m' => exact ⟨h.1, h.2.1, fun v hv => hPQ _ (h.2.2 v hv)⟩
    | unlock m' => exact ⟨h.1, hPQ _ h.2.1, h.2.2⟩
    | update f =>
      obtain ⟨v, hx, hR, hP⟩ := h
      exact ⟨v, hx, hR, hPQ _ hP⟩
    | waitWhile m' cv busy => exact ⟨hPQ _ h.1, h.2⟩
    | wake whom => exact ⟨hPQ _ h.1, h.2⟩

section View
variable [DecidableEq τ]

/-- What thread `t` knows of the variables. -/
def Monitor.view (mon : Monitor τ M C κ) (m : M) (t : τ) : Option κ :=
  if mon.owner m = some t then some mon.vars else none

theorem Monitor.view_eq_some {mon : Monitor τ M C κ} {m : M} {t : τ} {v : κ} :
    mon.view m t = some v ↔ mon.owner m = some t ∧ mon.vars = v := by
  rw [view]
  split
  · rename_i h
    rw [Option.some.injEq, and_iff_right h]
  · rename_i h
    exact iff_of_false nofun fun hc => h hc.1

theorem Monitor.view_eq_none {mon : Monitor τ M C κ} {m : M} {t : τ}
    (h : mon.owner m ≠ some t) : mon.view m t = none := if_neg h

-- Only the owner knows something.
theorem Monitor.view_other {mon : Monitor τ M C κ} {m : M} {t u : τ} (h : mon.owner m = some t)
    (hu : u ≠ t) : mon.view m u = none := by
  refine view_eq_none ?_
  rw [h]
  exact fun hc => hu (Option.some.inj hc).symm

theorem Monitor.view_free {mon : Monitor τ M C κ} {m : M} (h : mon.owner m = none) (t : τ) :
    mon.view m t = none := by
  refine view_eq_none ?_
  rw [h]
  exact nofun

end View

section Invariant

variable {m : M} {J : κ → Prop} {R : Call → κ → κ → Prop}
variable {next : List Call → Option κ → Prop} {after : Call → List Call → Option κ → Prop}
variable [DecidableEq τ]

/-- Nobody waits, and each thread is where it knows what `next` says about the calls still to begin;
`after` is what its present call ends with. -/
structure Calm (m : M) (J : κ → Prop) (R : Call → κ → κ → Prop)
    (next : List Call → Option κ → Prop) (after : Call → List Call → Option κ → Prop)
    (c : ThreadConfig τ Call Act Res M C κ ι σ α) : Prop where
  quiet : c.monitor.Quiet
  free : c.monitor.owner m = none → J c.monitor.vars
  between : ∀ t, (c.thread t).frame = none → next (c.thread t).todo (c.monitor.view m t)
  within : ∀ t f, (c.thread t).frame = some f → Follows (calm m J (R f.call)) f.rest
    (fun _ => after f.call (c.thread t).todo) (c.monitor.view m t)

/-- The calls keep to the rules, and each one ends where the next one may begin. -/
structure CalmCalls (code : Call → Prog (MonitorSig Act Res M C κ) α) (m : M) (J : κ → Prop)
    (R : Call → κ → κ → Prop) (next : List Call → Option κ → Prop)
    (after : Call → List Call → Option κ → Prop) : Prop where
  follows : ∀ call todo x, next (call :: todo) x →
    Follows (calm m J (R call)) (code call) (fun _ => after call todo) x
  next : ∀ call todo x, after call todo x → next todo x

variable {c c' : ThreadConfig τ Call Act Res M C κ ι σ α}

-- A step of thread `t` changes that thread, and what the other ones know stays.
theorem Calm.setThread (h : Calm m J R next after c) {t : τ} {mon : Monitor τ M C κ} {s : σ}
    {th : Thread Call (MonitorSig Act Res M C κ) ι α} (hquiet : mon.Quiet)
    (hfree : mon.owner m = none → J mon.vars)
    (hothers : ∀ u ≠ t, mon.view m u = c.monitor.view m u)
    (hbetween : th.frame = none → next th.todo (mon.view m t))
    (hwithin : ∀ f, th.frame = some f →
      Follows (calm m J (R f.call)) f.rest (fun _ => after f.call th.todo) (mon.view m t)) :
    Calm m J R next after ({ c with store := s, monitor := mon }.setThread t th) := by
  refine ⟨hquiet, hfree, fun u => ?_, fun u f => ?_⟩
  · by_cases hu : u = t
    · subst hu
      rw [Config.thread_setThread_self]
      exact hbetween
    · rw [Config.thread_setThread_ne _ _ hu, Config.monitor_setThread, hothers u hu]
      exact h.between u
  · by_cases hu : u = t
    · subst hu
      rw [Config.thread_setThread_self]
      exact hwithin f
    · rw [Config.thread_setThread_ne _ _ hu, Config.monitor_setThread, hothers u hu]
      exact h.within u f

theorem Calm.start {s₀ : σ} {v : κ} {calls : τ → List Call} (hv : J v)
    (hnext : ∀ t, next (calls t) none) :
    Calm m J R next after (Config.start s₀ v calls : ThreadConfig τ Call Act Res M C κ ι σ α) :=
  ⟨fun _ => rfl, fun _ => hv, fun t _ => hnext t, nofun⟩

variable [DecidableEq M]

-- No waiting loop is entered.
theorem Calm.not_stays {P : Option κ → Prop} {t : τ} {call : Call} {s : MonitorOp M C κ}
    {mon : Monitor τ M C κ} (h : Calm m J R next after c)
    (hrule : (calm m J (R call) : Ghost (MonitorSig Act Res M C κ) _).sync s P (c.monitor.view m t)) :
    ¬ c.monitor.Stays t s mon := by
  intro hs
  cases hs with
  | park _ hbusy =>
    obtain ⟨-, v, hx, hnot⟩ := hrule
    obtain ⟨-, rfl⟩ := Monitor.view_eq_some.mp hx
    cases hnot.symm.trans hbusy
  | spurious hmode => cases (h.quiet t).symm.trans hmode
  | retake hmode _ => cases (h.quiet t).symm.trans hmode

variable [DecidableEq C]

-- What an operation does to the monitor, and what the thread knows then.
theorem Calm.pass {P : Option κ → Prop} {t : τ} {call : Call} {s : MonitorOp M C κ}
    {mon : Monitor τ M C κ} (h : Calm m J R next after c)
    (hrule : (calm m J (R call) : Ghost (MonitorSig Act Res M C κ) _).sync s P (c.monitor.view m t))
    (hs : c.monitor.Passes t s mon) :
    mon.Quiet ∧ (mon.owner m = none → J mon.vars) ∧
      (∀ u ≠ t, mon.view m u = c.monitor.view m u) ∧ P (mon.view m t) ∧
      ((∀ f, s ≠ .update f) ∧ mon.vars = c.monitor.vars ∨
        (∃ f, s = .update f) ∧ R call c.monitor.vars mon.vars) := by
  cases s with
  | lock m' =>
    obtain ⟨rfl, -, hP⟩ := hrule
    cases hs with
    | lock hfree =>
      have hmine : (c.monitor.setOwner m' (some t)).owner m' = some t :=
        Monitor.owner_setOwner_self ..
      refine ⟨h.quiet, fun hnone => ?_, fun u hu => ?_, ?_, .inl ⟨nofun, rfl⟩⟩
      · cases hmine.symm.trans hnone
      · rw [Monitor.view_other hmine hu, Monitor.view_free hfree]
      · rw [Monitor.view_eq_some.mpr ⟨hmine, rfl⟩]
        exact hP _ (h.free hfree)
  | unlock m' =>
    obtain ⟨rfl, hP, v, hx, hv⟩ := hrule
    obtain ⟨hmine, rfl⟩ := Monitor.view_eq_some.mp hx
    cases hs with
    | unlock =>
      have hnone : ∀ u, (c.monitor.setOwner m' none).view m' u = none :=
        Monitor.view_free (Monitor.owner_setOwner_self ..)
      refine ⟨h.quiet, fun _ => hv, fun u hu => ?_, (hnone t).symm ▸ hP, .inl ⟨nofun, rfl⟩⟩
      rw [hnone, Monitor.view_other hmine hu]
  | update f =>
    obtain ⟨v, hx, hR, hP⟩ := hrule
    obtain ⟨hmine, rfl⟩ := Monitor.view_eq_some.mp hx
    cases hs with
    | update =>
      refine ⟨h.quiet, fun hnone => ?_, fun u hu => ?_, ?_, .inr ⟨⟨f, rfl⟩, hR⟩⟩
      · cases hmine.symm.trans hnone
      · rw [Monitor.view_other hmine hu]
        exact Monitor.view_other hmine hu
      · have hview : ({ c.monitor with vars := f c.monitor.vars }).view m t =
            some (f c.monitor.vars) := Monitor.view_eq_some.mpr ⟨hmine, rfl⟩
        rwa [hview]
  | waitWhile m' cv busy =>
    cases hs with
    | loopEnd _ _ => exact ⟨h.quiet, h.free, fun _ _ => rfl, hrule.1, .inl ⟨nofun, rfl⟩⟩
  | wake whom =>
    obtain ⟨hP, v, hx, hwhom⟩ := hrule
    obtain ⟨-, rfl⟩ := Monitor.view_eq_some.mp hx
    cases hs with
    | nobody _ => exact ⟨h.quiet, h.free, fun _ _ => rfl, hP, .inl ⟨nofun, rfl⟩⟩
    | signalLost hother _ => cases hwhom.symm.trans hother
    | signal hother _ => cases hwhom.symm.trans hother
    | broadcast hother => cases hwhom.symm.trans hother

variable [Calls Call (MonitorSig Act Res M C κ) ι α] [Store (MonitorSig Act Res M C κ) ι σ]
variable {l : Label τ Call Act (MonitorOp M C κ)}

/-- The step lemma. -/
theorem Calm.step
    (hcalls : CalmCalls (Calls.code : Call → Prog (MonitorSig Act Res M C κ) α) m J R next after)
    (h : Calm m J R next after c) (hs : Step c l c') :
    Calm m J R next after c' ∧
      ((∀ f, l.event ≠ .passed (.update f)) ∧ c'.monitor.vars = c.monitor.vars ∨
        (∃ f, l.event = .passed (.update f)) ∧ R l.call c.monitor.vars c'.monitor.vars) := by
  cases hs with
  | @begin t call todo done hth =>
    have hnext := h.between t (by rw [hth])
    rw [hth] at hnext
    refine ⟨h.setThread h.quiet h.free (fun _ _ => rfl) nofun ?_, .inl ⟨nofun, rfl⟩⟩
    rintro f hf
    cases hf
    exact hcalls.follows call todo _ hnext
  | @act t call a k i todo done hth =>
    have hfollows := h.within t _ (by rw [hth])
    rw [hth] at hfollows
    refine ⟨h.setThread h.quiet h.free (fun _ _ => rfl) nofun ?_, .inl ⟨nofun, rfl⟩⟩
    rintro f hf
    cases hf
    exact hfollows _
  | @«return» t call a i todo done hth =>
    have hfollows := h.within t _ (by rw [hth])
    rw [hth] at hfollows
    refine ⟨h.setThread h.quiet h.free (fun _ _ => rfl) (fun _ => ?_) nofun, .inl ⟨nofun, rfl⟩⟩
    exact hcalls.next call todo _ hfollows
  | @pass t call s k i todo done mon hth hpass =>
    have hfollows := h.within t _ (by rw [hth])
    rw [hth, Follows.sync_iff] at hfollows
    obtain ⟨hquiet, hfree, hothers, hrest, hvars⟩ := h.pass hfollows hpass
    refine ⟨h.setThread hquiet hfree hothers nofun ?_, ?_⟩
    · rintro f hf
      cases hf
      exact hrest
    · rcases hvars with ⟨hno, heq⟩ | ⟨⟨f, rfl⟩, hR⟩
      · exact .inl ⟨fun f hf => hno f (Event.passed.inj hf), heq⟩
      · exact .inr ⟨⟨f, rfl⟩, hR⟩
  | @stay t call s k i todo done mon hth hstay =>
    have hfollows := h.within t _ (by rw [hth])
    rw [hth, Follows.sync_iff] at hfollows
    exact absurd hstay (h.not_stays hfollows)

/-- The run lemma. -/
theorem calm_of_run
    (hcalls : CalmCalls (Calls.code : Call → Prog (MonitorSig Act Res M C κ) α) m J R next after)
    {c₀ : ThreadConfig τ Call Act Res M C κ ι σ α} (h : Calm m J R next after c₀)
    {ls : List (Label τ Call Act (MonitorOp M C κ))} (hrun : Run c₀ ls c) :
    Calm m J R next after c := by
  induction hrun with
  | nil => exact h
  | snoc _ hs ih => exact (ih.step hcalls hs).1

end Invariant

end Prog
