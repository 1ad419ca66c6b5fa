import InodeFs.Prog.Basic
import Mathlib.Logic.Function.Basic

/-!
# Threads

A thread carries out calls one after the other, each a program with a private input.  All threads
share one store, and mutexes, condition variables and guarded variables: a `Monitor`.  A step of the
system is one operation of one thread, and any thread may take the next one.

Mutexes and condition variables are those of POSIX: a thread waits at a locked mutex, also at its
own; a thread that waits at a condition variable gives up the mutex and retakes it once woken; a
signal wakes some thread if any waits, a broadcast wakes all, and a thread may wake for no reason.
-/

namespace Prog

/-! ## Monitors -/

/-- Whom a thread wakes. -/
inductive Wake (C : Type) where
  | nobody
  | signal (cv : C)
  | broadcast (cv : C)

/-- Operations on mutexes `M`, condition variables `C` and guarded variables `κ`. -/
inductive MonitorOp (M C κ : Type) where
  /-- `pthread_mutex_lock` -/
  | lock (m : M)
  /-- `pthread_mutex_unlock` -/
  | unlock (m : M)
  /-- Assignments to the guarded variables. -/
  | update (f : κ → κ)
  /-- `while (busy) pthread_cond_wait(&cv, &m)` -/
  | waitWhile (m : M) (cv : C) (busy : κ → Bool)
  /-- `pthread_cond_signal` or `pthread_cond_broadcast`, as the guarded variables say. -/
  | wake (whom : κ → Wake C)

/-- How a thread stands to the condition variable of its waiting loop. -/
inductive Mode (C : Type) where
  | awake
  | parked (cv : C)
  /-- Woken, but without the mutex. -/
  | woken

structure Monitor (τ M C κ : Type) where
  owner : M → Option τ
  vars : κ
  mode : τ → Mode C

namespace Monitor

variable {τ M C κ : Type}

section Owner
variable [DecidableEq M]

def setOwner (mon : Monitor τ M C κ) (m : M) (o : Option τ) : Monitor τ M C κ :=
  { mon with owner := Function.update mon.owner m o }

@[simp] theorem owner_setOwner_self (mon : Monitor τ M C κ) (m : M) (o : Option τ) :
    (mon.setOwner m o).owner m = o := Function.update_self ..

theorem owner_setOwner_ne (mon : Monitor τ M C κ) {m m' : M} (o : Option τ) (h : m' ≠ m) :
    (mon.setOwner m o).owner m' = mon.owner m' := Function.update_of_ne h ..

-- What another thread has locked stays.
theorem owner_setOwner_other {mon : Monitor τ M C κ} {m' : M} {o : Option τ} {u : τ} (ho : o ≠ some u)
    (h : mon.owner m' ≠ some u) (m : M) :
    (mon.setOwner m' o).owner m = some u ↔ mon.owner m = some u := by
  by_cases hm : m = m'
  · subst hm
    rw [owner_setOwner_self]
    exact iff_of_false ho h
  · rw [owner_setOwner_ne mon o hm]

-- The mutexes of thread `t`, after one more lock and after the unlock of the last one.
theorem owner_setOwner_some_iff {mon : Monitor τ M C κ} {t : τ} {held : List M}
    (h : ∀ m, mon.owner m = some t ↔ m ∈ held) (m' m : M) :
    (mon.setOwner m' (some t)).owner m = some t ↔ m ∈ m' :: held := by
  by_cases hm : m = m'
  · subst hm
    exact iff_of_true (owner_setOwner_self ..) (List.mem_cons_self ..)
  · rw [owner_setOwner_ne mon _ hm, h, List.mem_cons, or_iff_right hm]

theorem owner_setOwner_none_iff {mon : Monitor τ M C κ} {t : τ} {m' : M} {rest : List M}
    (hnot : m' ∉ rest) (h : ∀ m, mon.owner m = some t ↔ m ∈ m' :: rest) (m : M) :
    (mon.setOwner m' none).owner m = some t ↔ m ∈ rest := by
  by_cases hm : m = m'
  · subst hm
    rw [owner_setOwner_self]
    exact iff_of_false nofun hnot
  · rw [owner_setOwner_ne mon _ hm, h, List.mem_cons, or_iff_right hm]

@[simp] theorem vars_setOwner (mon : Monitor τ M C κ) (m : M) (o : Option τ) :
    (mon.setOwner m o).vars = mon.vars := rfl

@[simp] theorem mode_setOwner (mon : Monitor τ M C κ) (m : M) (o : Option τ) :
    (mon.setOwner m o).mode = mon.mode := rfl

end Owner

section Mode
variable [DecidableEq τ]

def setMode (mon : Monitor τ M C κ) (t : τ) (mode : Mode C) : Monitor τ M C κ :=
  { mon with mode := Function.update mon.mode t mode }

@[simp] theorem owner_setMode (mon : Monitor τ M C κ) (t : τ) (mode : Mode C) :
    (mon.setMode t mode).owner = mon.owner := rfl

@[simp] theorem mode_setMode_self (mon : Monitor τ M C κ) (t : τ) (mode : Mode C) :
    (mon.setMode t mode).mode t = mode := Function.update_self ..

theorem mode_setMode_ne (mon : Monitor τ M C κ) {t u : τ} (mode : Mode C) (h : u ≠ t) :
    (mon.setMode t mode).mode u = mon.mode u := Function.update_of_ne h ..

end Mode

section WakeAll
variable [DecidableEq C]

def wakeAll (mon : Monitor τ M C κ) (cv : C) : Monitor τ M C κ :=
  { mon with mode := fun t => match mon.mode t with
      | .parked cv' => if cv' = cv then .woken else .parked cv'
      | mode => mode }

-- A thread that is awake stays awake when others are woken.
theorem mode_wakeAll (mon : Monitor τ M C κ) (cv : C) {t : τ} (h : mon.mode t = .awake) :
    (mon.wakeAll cv).mode t = .awake := by
  simp only [wakeAll, h]

/-- No thread waits at a condition variable. -/
def Quiet (mon : Monitor τ M C κ) : Prop := ∀ t, mon.mode t = .awake

theorem Quiet.wakeAll {mon : Monitor τ M C κ} (h : mon.Quiet) (cv : C) : mon.wakeAll cv = mon := by
  have hmode : (mon.wakeAll cv).mode = mon.mode := by
    funext t
    rw [mode_wakeAll mon cv (h t), h t]
  change { mon with mode := (mon.wakeAll cv).mode } = mon
  rw [hmode]

end WakeAll

variable [DecidableEq τ] [DecidableEq M] {t u : τ} {mon mon' : Monitor τ M C κ} {s : MonitorOp M C κ}

/-- Thread `t` moves inside its waiting loop. -/
inductive Stays (t : τ) (mon : Monitor τ M C κ) :
    MonitorOp M C κ → Monitor τ M C κ → Prop where
  | park {m cv busy} (hmode : mon.mode t = .awake) (hbusy : busy mon.vars = true) :
      Stays t mon (.waitWhile m cv busy) ((mon.setOwner m none).setMode t (.parked cv))
  | spurious {m cv cv' busy} (hmode : mon.mode t = .parked cv') :
      Stays t mon (.waitWhile m cv busy) (mon.setMode t .woken)
  | retake {m cv busy} (hmode : mon.mode t = .woken) (hfree : mon.owner m = none) :
      Stays t mon (.waitWhile m cv busy) ((mon.setOwner m (some t)).setMode t .awake)

-- A thread in its waiting loop gives up the loop's mutex or takes it while it is free.
theorem Stays.owner (h : mon.Stays t s mon') (m : M) :
    mon'.owner m = mon.owner m ∨
      ∃ cv busy, s = .waitWhile m cv busy ∧
        ((mon.mode t = .awake ∧ mon'.mode t ≠ .awake) ∨
          (mon.owner m = none ∧ mon'.owner m = some t ∧ mon'.mode t = .awake)) := by
  cases h with
  | @park m' cv busy hmode _ =>
    by_cases hm : m = m'
    · subst hm
      refine .inr ⟨cv, busy, rfl, .inl ⟨hmode, ?_⟩⟩
      rw [mode_setMode_self]
      exact nofun
    · exact .inl (owner_setOwner_ne _ _ hm)
  | spurious _ => exact .inl rfl
  | @retake m' cv busy _ hfree =>
    by_cases hm : m = m'
    · subst hm
      exact .inr ⟨cv, busy, rfl, .inr ⟨hfree, owner_setOwner_self .., mode_setMode_self ..⟩⟩
    · exact .inl (owner_setOwner_ne _ _ hm)

theorem Stays.mode (h : mon.Stays t s mon') (hu : u ≠ t) : mon'.mode u = mon.mode u := by
  cases h <;> exact mode_setMode_ne _ _ hu

variable [DecidableEq C]

/-- Thread `t` is through with the operation. -/
inductive Passes (t : τ) (mon : Monitor τ M C κ) :
    MonitorOp M C κ → Monitor τ M C κ → Prop where
  | lock {m} (hfree : mon.owner m = none) : Passes t mon (.lock m) (mon.setOwner m (some t))
  | unlock {m} : Passes t mon (.unlock m) (mon.setOwner m none)
  | update {f} : Passes t mon (.update f) { mon with vars := f mon.vars }
  | loopEnd {m cv busy} (hmode : mon.mode t = .awake) (hbusy : busy mon.vars = false) :
      Passes t mon (.waitWhile m cv busy) mon
  | nobody {whom} (hwhom : whom mon.vars = .nobody) : Passes t mon (.wake whom) mon
  | signalLost {whom cv} (hwhom : whom mon.vars = .signal cv) (hno : ∀ u, mon.mode u ≠ .parked cv) :
      Passes t mon (.wake whom) mon
  | signal {whom cv u} (hwhom : whom mon.vars = .signal cv) (hu : mon.mode u = .parked cv) :
      Passes t mon (.wake whom) (mon.setMode u .woken)
  | broadcast {whom cv} (hwhom : whom mon.vars = .broadcast cv) :
      Passes t mon (.wake whom) (mon.wakeAll cv)

-- Who owns a mutex changes with its lock and its unlock only.
theorem Passes.owner (h : mon.Passes t s mon') (m : M) :
    mon'.owner m = mon.owner m ∨
      (s = .lock m ∧ mon.owner m = none ∧ mon'.owner m = some t) ∨ s = .unlock m := by
  cases h with
  | @lock m' hfree =>
    by_cases hm : m = m'
    · subst hm
      exact .inr (.inl ⟨rfl, hfree, owner_setOwner_self ..⟩)
    · exact .inl (owner_setOwner_ne _ _ hm)
  | @unlock m' =>
    by_cases hm : m = m'
    · subst hm
      exact .inr (.inr rfl)
    · exact .inl (owner_setOwner_ne _ _ hm)
  | _ => exact .inl rfl

theorem Passes.awake_iff (h : mon.Passes t s mon') (u : τ) :
    mon'.mode u = .awake ↔ mon.mode u = .awake := by
  cases h with
  | @signal whom cv v hwhom hv =>
    by_cases hu : u = v
    · subst hu
      rw [mode_setMode_self, hv]
      exact ⟨nofun, nofun⟩
    · rw [mode_setMode_ne _ _ hu]
  | @broadcast whom cv _ =>
    refine ⟨fun h => ?_, mode_wakeAll mon cv⟩
    simp only [wakeAll] at h
    split at h
    · split at h <;> cases h
    · exact h
  | _ => exact Iff.rfl

end Monitor

/-! ## Systems of threads -/

abbrev MonitorSig (Act : Type) (Res : Act → Type) (M C κ : Type) : Signature :=
  ⟨Act, Res, MonitorOp M C κ⟩

/-- The program that carries out a call, and its private input. -/
class Calls (Call : Type) (S : outParam Signature) (ι α : outParam Type) where
  code : Call → Prog S α
  input : Call → ι

/-- A call that has begun: what is left of its program and of its input. -/
structure Frame (Call : Type) (S : Signature) (ι α : Type) where
  call : Call
  rest : Prog S α
  input : ι

structure Thread (Call : Type) (S : Signature) (ι α : Type) where
  /-- The calls still to begin. -/
  todo : List Call
  frame : Option (Frame Call S ι α)
  /-- The results of the calls that have returned. -/
  done : List α

structure Config (τ Call : Type) (S : Signature) (ι σ α N : Type) where
  store : σ
  monitor : N
  thread : τ → Thread Call S ι α

/-- A system of threads on a monitor. -/
abbrev ThreadConfig (τ Call Act : Type) (Res : Act → Type) (M C κ ι σ α : Type) :=
  Config τ Call (MonitorSig Act Res M C κ) ι σ α (Monitor τ M C κ)

inductive Event (Act Sync : Type) where
  | begun
  | acted (a : Act)
  | passed (s : Sync)
  | stayed (s : Sync)
  | returned

/-- Which thread takes a step, in which call, and what it does. -/
structure Label (τ Call Act Sync : Type) where
  thread : τ
  call : Call
  event : Event Act Sync

namespace Config

variable {τ Call Act M C κ ι σ α N : Type} {Res : Act → Type} {S : Signature}

section Update
variable [DecidableEq τ]

def setThread (c : Config τ Call S ι σ α N) (t : τ)
    (th : Thread Call S ι α) : Config τ Call S ι σ α N :=
  { c with thread := Function.update c.thread t th }

@[simp] theorem thread_setThread_self (c : Config τ Call S ι σ α N) (t : τ)
    (th : Thread Call S ι α) : (c.setThread t th).thread t = th := Function.update_self ..

theorem thread_setThread_ne (c : Config τ Call S ι σ α N) {t u : τ} (th : Thread Call S ι α)
    (h : u ≠ t) : (c.setThread t th).thread u = c.thread u := Function.update_of_ne h ..

@[simp] theorem store_setThread (c : Config τ Call S ι σ α N) (t : τ) (th : Thread Call S ι α) :
    (c.setThread t th).store = c.store := rfl

@[simp] theorem monitor_setThread (c : Config τ Call S ι σ α N) (t : τ) (th : Thread Call S ι α) :
    (c.setThread t th).monitor = c.monitor := rfl

end Update

/-- The action that thread `t` will take next. -/
def pending {Act : Type} {Res : Act → Type} {Sync : Type} (c : Config τ Call ⟨Act, Res, Sync⟩ ι σ α N)
    (t : τ) : Option Act :=
  match (c.thread t).frame with
  | some ⟨_, .act a _, _⟩ => some a
  | _ => none

theorem pending_eq {Act : Type} {Res : Act → Type} {Sync : Type}
    {c : Config τ Call ⟨Act, Res, Sync⟩ ι σ α N} {t : τ} {call : Call} {a : Act}
    {k : Res a → Prog ⟨Act, Res, Sync⟩ α} {i : ι}
    (h : (c.thread t).frame = some ⟨call, .act a k, i⟩) : c.pending t = some a := by
  rw [pending, h]

/-- All mutexes are free and no call has begun. -/
def start (s : σ) (v : κ) (calls : τ → List Call) :
    ThreadConfig τ Call Act Res M C κ ι σ α where
  store := s
  monitor := ⟨fun _ => none, v, fun _ => .awake⟩
  thread := fun t => ⟨calls t, none, []⟩

/-- Every call has returned. -/
def Finished (c : Config τ Call S ι σ α N) : Prop :=
  ∀ t, (c.thread t).todo = [] ∧ (c.thread t).frame = none

end Config

section System

variable {τ Call Act M C κ ι σ α : Type} {Res : Act → Type}
variable [DecidableEq τ] [DecidableEq M] [DecidableEq C]
variable [Calls Call (MonitorSig Act Res M C κ) ι α] [Store (MonitorSig Act Res M C κ) ι σ]

/-- One operation of one thread. -/
inductive Step (c : ThreadConfig τ Call Act Res M C κ ι σ α) :
    Label τ Call Act (MonitorOp M C κ) → ThreadConfig τ Call Act Res M C κ ι σ α → Prop where
  | begin {t call todo done} (h : c.thread t = ⟨call :: todo, none, done⟩) :
      Step c ⟨t, call, .begun⟩
        (c.setThread t ⟨todo, some ⟨call, Calls.code call, Calls.input call⟩, done⟩)
  | act {t call a k i todo done} (h : c.thread t = ⟨todo, some ⟨call, .act a k, i⟩, done⟩) :
      Step c ⟨t, call, .acted a⟩
        ({ c with store := (Store.exec a i c.store).2.2 }.setThread t
          ⟨todo, some ⟨call, k (Store.exec a i c.store).1, (Store.exec a i c.store).2.1⟩, done⟩)
  | pass {t call s k i todo done mon}
      (h : c.thread t = ⟨todo, some ⟨call, .sync s k, i⟩, done⟩) (hs : c.monitor.Passes t s mon) :
      Step c ⟨t, call, .passed s⟩
        ({ c with monitor := mon }.setThread t ⟨todo, some ⟨call, k, i⟩, done⟩)
  | stay {t call s k i todo done mon}
      (h : c.thread t = ⟨todo, some ⟨call, .sync s k, i⟩, done⟩) (hs : c.monitor.Stays t s mon) :
      Step c ⟨t, call, .stayed s⟩ { c with monitor := mon }
  | return {t call a i todo done} (h : c.thread t = ⟨todo, some ⟨call, .ret a, i⟩, done⟩) :
      Step c ⟨t, call, .returned⟩ (c.setThread t ⟨todo, none, done ++ [a]⟩)

/-- A run, with the labels of its steps. -/
inductive Run (c₀ : ThreadConfig τ Call Act Res M C κ ι σ α) :
    List (Label τ Call Act (MonitorOp M C κ)) → ThreadConfig τ Call Act Res M C κ ι σ α →
    Prop where
  | nil : Run c₀ [] c₀
  | snoc {ls c l c'} (h : Run c₀ ls c) (hs : Step c l c') : Run c₀ (ls ++ [l]) c'

theorem Run.of_concat {c₀ c' : ThreadConfig τ Call Act Res M C κ ι σ α}
    {ls : List (Label τ Call Act (MonitorOp M C κ))} {l : Label τ Call Act (MonitorOp M C κ)}
    (h : Run c₀ (ls ++ [l]) c') : ∃ c, Run c₀ ls c ∧ Step c l c' := by
  generalize hls : ls ++ [l] = ls' at h
  cases h with
  | nil => exact absurd hls (List.append_ne_nil_of_right_ne_nil _ nofun)
  | snoc hrun hs =>
    obtain ⟨rfl, hl⟩ := List.append_inj' hls rfl
    cases hl
    exact ⟨_, hrun, hs⟩

/-- A run every step of which meets the condition `ok` when it is taken. -/
inductive RunWhere (ok : ThreadConfig τ Call Act Res M C κ ι σ α →
    Label τ Call Act (MonitorOp M C κ) → Prop) (c₀ : ThreadConfig τ Call Act Res M C κ ι σ α) :
    List (Label τ Call Act (MonitorOp M C κ)) → ThreadConfig τ Call Act Res M C κ ι σ α →
    Prop where
  | nil : RunWhere ok c₀ [] c₀
  | snoc {ls c l c'} (h : RunWhere ok c₀ ls c) (hok : ok c l) (hs : Step c l c') :
      RunWhere ok c₀ (ls ++ [l]) c'

theorem RunWhere.run {ok : ThreadConfig τ Call Act Res M C κ ι σ α →
      Label τ Call Act (MonitorOp M C κ) → Prop} {c₀ c : ThreadConfig τ Call Act Res M C κ ι σ α}
    {ls : List (Label τ Call Act (MonitorOp M C κ))} (h : RunWhere ok c₀ ls c) : Run c₀ ls c := by
  induction h with
  | nil => exact .nil
  | snoc _ _ hs ih => exact ih.snoc hs

theorem Run.runWhere {ok : ThreadConfig τ Call Act Res M C κ ι σ α →
      Label τ Call Act (MonitorOp M C κ) → Prop} {c₀ c : ThreadConfig τ Call Act Res M C κ ι σ α}
    {ls : List (Label τ Call Act (MonitorOp M C κ))} (h : Run c₀ ls c) (hok : ∀ c l, ok c l) :
    RunWhere ok c₀ ls c := by
  induction h with
  | nil => exact .nil
  | snoc _ hs ih => exact ih.snoc (hok _ _) hs

/-! ## Following a schedule -/

/-- The operation, when nobody has to wait or to be woken. -/
def Monitor.pass? (mon : Monitor τ M C κ) (t : τ) : MonitorOp M C κ → Option (Monitor τ M C κ)
  | .lock m => if (mon.owner m).isNone then some (mon.setOwner m (some t)) else none
  | .unlock m => some (mon.setOwner m none)
  | .update f => some { mon with vars := f mon.vars }
  | .waitWhile _ _ busy =>
      match mon.mode t with
      | .awake => if busy mon.vars then none else some mon
      | _ => none
  | .wake whom =>
      match whom mon.vars with
      | .nobody => some mon
      | _ => none

theorem Monitor.passes_of_pass? {mon mon' : Monitor τ M C κ} {t : τ} {s : MonitorOp M C κ}
    (h : mon.pass? t s = some mon') : mon.Passes t s mon' := by
  cases s with
  | lock m =>
    simp only [pass?, Option.ite_none_right_eq_some, Option.some.injEq] at h
    obtain ⟨hfree, rfl⟩ := h
    exact .lock (Option.isNone_iff_eq_none.mp hfree)
  | unlock m =>
    cases h
    exact .unlock
  | update f =>
    cases h
    exact .update
  | waitWhile m cv busy =>
    simp only [pass?] at h
    split at h
    · rename_i hmode
      split at h
      · cases h
      · rename_i hbusy
        cases h
        exact .loopEnd hmode (Bool.eq_false_iff.mpr hbusy)
    · cases h
  | wake whom =>
    simp only [pass?] at h
    split at h
    · rename_i hwhom
      cases h
      exact .nobody hwhom
    · cases h

namespace Config

/-- The next step of thread `t`. -/
def next (c : ThreadConfig τ Call Act Res M C κ ι σ α) (t : τ) :
    Option (Label τ Call Act (MonitorOp M C κ) × ThreadConfig τ Call Act Res M C κ ι σ α) :=
  match c.thread t with
  | ⟨[], none, _⟩ => none
  | ⟨call :: todo, none, done⟩ =>
      some (⟨t, call, .begun⟩,
        c.setThread t ⟨todo, some ⟨call, Calls.code call, Calls.input call⟩, done⟩)
  | ⟨_, some ⟨_, .abort, _⟩, _⟩ => none
  | ⟨todo, some ⟨call, .ret a, _⟩, done⟩ =>
      some (⟨t, call, .returned⟩, c.setThread t ⟨todo, none, done ++ [a]⟩)
  | ⟨todo, some ⟨call, .act a k, i⟩, done⟩ =>
      some (⟨t, call, .acted a⟩, { c with store := (Store.exec a i c.store).2.2 }.setThread t
        ⟨todo, some ⟨call, k (Store.exec a i c.store).1, (Store.exec a i c.store).2.1⟩, done⟩)
  | ⟨todo, some ⟨call, .sync s k, i⟩, done⟩ =>
      (c.monitor.pass? t s).map fun mon => (⟨t, call, .passed s⟩,
        { c with monitor := mon }.setThread t ⟨todo, some ⟨call, k, i⟩, done⟩)

/-- Both of two threads have returned from all their calls. -/
def bothReturned {S : Signature} {N : Type} (c : Config Bool Call S ι σ α N) : Bool :=
  [false, true].all fun t => (c.thread t).todo.isEmpty && (c.thread t).frame.isNone

theorem finished_of_bothReturned {S : Signature} {N : Type} {c : Config Bool Call S ι σ α N}
    (h : c.bothReturned = true) : c.Finished := by
  intro t
  have ht := List.all_eq_true.mp h t (by cases t <;> decide)
  rw [Bool.and_eq_true, List.isEmpty_iff, Option.isNone_iff_eq_none] at ht
  exact ht

/-- The threads take their next steps in the order of the list, as long as `ok` allows it. -/
def follow (ok : ThreadConfig τ Call Act Res M C κ ι σ α → Label τ Call Act (MonitorOp M C κ) →
    Bool) : List τ → ThreadConfig τ Call Act Res M C κ ι σ α →
    Option (List (Label τ Call Act (MonitorOp M C κ)) × ThreadConfig τ Call Act Res M C κ ι σ α)
  | [], c => some ([], c)
  | t :: ts, c =>
      (c.next t).bind fun r =>
        if ok c r.1 then (follow ok ts r.2).map fun rest => (r.1 :: rest.1, rest.2) else none

end Config

theorem step_of_next {c c' : ThreadConfig τ Call Act Res M C κ ι σ α} {t : τ}
    {l : Label τ Call Act (MonitorOp M C κ)} (h : c.next t = some (l, c')) : Step c l c' := by
  unfold Config.next at h
  split at h
  · cases h
  · rename_i hth
    cases h
    exact .begin hth
  · cases h
  · rename_i hth
    cases h
    exact .return hth
  · rename_i hth
    cases h
    exact .act hth
  · rename_i hth
    obtain ⟨mon, hmon, heq⟩ := Option.map_eq_some_iff.mp h
    cases heq
    exact .pass hth (Monitor.passes_of_pass? hmon)

/-- Following a schedule is a run. -/
theorem RunWhere.follow {ok : ThreadConfig τ Call Act Res M C κ ι σ α →
      Label τ Call Act (MonitorOp M C κ) → Prop}
    {ok' : ThreadConfig τ Call Act Res M C κ ι σ α → Label τ Call Act (MonitorOp M C κ) → Bool}
    (hok : ∀ c l, ok' c l = true → ok c l) {c₀ c c' : ThreadConfig τ Call Act Res M C κ ι σ α}
    {ts : List τ} {ls ls' : List (Label τ Call Act (MonitorOp M C κ))} (h : RunWhere ok c₀ ls c)
    (hfollow : c.follow ok' ts = some (ls', c')) : RunWhere ok c₀ (ls ++ ls') c' := by
  induction ts generalizing ls ls' c with
  | nil =>
    cases hfollow
    rwa [List.append_nil]
  | cons t ts ih =>
    obtain ⟨⟨l, c₁⟩, hl, hif⟩ := Option.bind_eq_some_iff.mp hfollow
    obtain ⟨hok', hmap⟩ := Option.ite_none_right_eq_some.mp hif
    obtain ⟨⟨ls₁, c₂⟩, hrest, heq⟩ := Option.map_eq_some_iff.mp hmap
    cases heq
    rw [← List.singleton_append, ← List.append_assoc]
    exact ih (h.snoc (hok c l hok') (step_of_next hl)) hrest

end System

end Prog
