import InodeFs.Locks
import InodeFs.Prog.Exclusion

/-!
# Threads that use one `a4_rwlock`

The entry methods return with the mutex locked, and the exit methods unlock it, so whoever is inside
a section, for reading too, keeps every other thread out.
-/

namespace InodeFs

open Prog

/-! ## The lock and its users -/

/-- The methods of an `a4_rwlock`. -/
inductive RwCall where
  | readerEnter
  | readerExit
  | writerEnter
  | writerExit
  deriving DecidableEq

/-- Threads that use a lock touch nothing else. -/
abbrev RwSig : Signature :=
  MonitorSig Empty (fun _ => Empty) Mutex (UInt32 × CondVar) (UInt32 → RwCounters)

instance : Store RwSig Unit Unit := ⟨nofun⟩

instance : Calls RwCall RwSig Unit Unit where
  code
    | .readerEnter => Rwlock.readerEnter 0
    | .readerExit => Rwlock.readerExit 0
    | .writerEnter => Rwlock.writerEnter 0
    | .writerExit => Rwlock.writerExit 0
  input _ := ()

abbrev RwThreads (τ : Type) :=
  ThreadConfig τ RwCall Empty (fun _ => Empty) Mutex (UInt32 × CondVar) (UInt32 → RwCounters) Unit
    Unit Unit

abbrev RwLabel (τ : Type) := Label τ RwCall Empty SyncOp

/-- Each enter call has its exit call. -/
inductive Matched : List RwCall → Prop where
  | nil : Matched []
  | reading {calls} (h : Matched calls) : Matched (.readerEnter :: .readerExit :: calls)
  | writing {calls} (h : Matched calls) : Matched (.writerEnter :: .writerExit :: calls)

/-- The call unlocks the mutex. -/
def RwCall.exits : RwCall → Bool
  | .readerEnter => false
  | .readerExit => true
  | .writerEnter => false
  | .writerExit => true

theorem Matched.alternates {calls : List RwCall} (h : Matched calls) :
    Alternates RwCall.exits (fun call => !call.exits) false calls := by
  induction h with
  | nil => trivial
  | reading _ ih => exact ⟨rfl, rfl, ih⟩
  | writing _ ih => exact ⟨rfl, rfl, ih⟩

/-- The enter methods lock the mutex and the exit methods unlock it. -/
theorem holding_code (call : RwCall) :
    Follows (holding (.rwlock 0)) (Calls.code call : Prog RwSig Unit) (fun _ y => y = !call.exits)
      call.exits := by
  cases call with
  | readerEnter => exact ⟨fun _ => ⟨rfl, rfl, rfl, rfl⟩, fun h => absurd rfl h⟩
  | readerExit => exact ⟨fun _ => ⟨rfl, rfl⟩, fun h => absurd rfl h⟩
  | writerEnter => exact ⟨fun _ => ⟨rfl, rfl, rfl, rfl⟩, fun h => absurd rfl h⟩
  | writerExit => exact ⟨fun _ => ⟨rfl, rfl⟩, fun h => absurd rfl h⟩

/-! ## Readers do not share the lock -/

section Sharing

variable {τ : Type}

/-- `reader_enter` has returned to thread `t`, and it has not called `reader_exit` yet. -/
def Reading (c : RwThreads τ) (t : τ) : Prop :=
  (c.thread t).frame = none ∧ (c.thread t).todo.head? = some .readerExit

/-- `writer_enter` has returned to thread `t`, and it has not called `writer_exit` yet. -/
def Writing (c : RwThreads τ) (t : τ) : Prop :=
  (c.thread t).frame = none ∧ (c.thread t).todo.head? = some .writerExit

/-- Thread `t` is about to call `reader_enter`, or has called it. -/
def Entering (c : RwThreads τ) (t : τ) : Prop :=
  ((c.thread t).frame = none ∧ (c.thread t).todo.head? = some .readerEnter) ∨
    ∃ f, (c.thread t).frame = some f ∧ f.call = .readerEnter

/-- No writer is active and none waits. -/
def NoWriter (c : RwThreads τ) : Prop :=
  (c.monitor.vars 0).activeWriters = 0 ∧ (c.monitor.vars 0).waitingWriters = 0

variable {c : RwThreads τ} {t u : τ}

theorem Entering.ne (hu : Entering c u) (ht : Reading c t) : u ≠ t := by
  rintro rfl
  rcases hu with ⟨-, hu⟩ | ⟨f, hf, -⟩
  · cases ht.2.symm.trans hu
  · cases ht.1.symm.trans hf

theorem Reading.not_writing (h : Reading c t) : ¬ Writing c t := fun hw => by
  cases h.2.symm.trans hw.2

variable [DecidableEq τ]

/-- By its own steps alone, thread `t` comes to the end of `reader_enter`. -/
def CanEnter (c : RwThreads τ) (t : τ) : Prop :=
  ∃ ls c', RunWhere (fun _ l => l.thread = t) c ls c' ∧ Reading c' t

variable {calls : τ → List RwCall} {ls : List (RwLabel τ)}

theorem exclusion_of_run (hcalls : ∀ t, Matched (calls t))
    (hrun : Run (Config.start () (fun _ => .init) calls) ls c) (t : τ) :
    ∃ x, Stands (.rwlock 0) RwCall.exits (fun call => !call.exits) c t x :=
  stands_of_run holding_code (fun t => (hcalls t).alternates) hrun t

-- Whoever is inside a section owns the mutex.
theorem owner_of_inside (hcalls : ∀ t, Matched (calls t))
    (hrun : Run (Config.start () (fun _ => .init) calls) ls c) (ht : Reading c t ∨ Writing c t) :
    c.monitor.owner (.rwlock 0) = some t := by
  have hstands := exclusion_of_run hcalls hrun t
  rcases ht with ht | ht
  · exact owner_of_between hstands ht.1 ht.2 rfl
  · exact owner_of_between hstands ht.1 ht.2 rfl

/-- While one thread writes, no other one is inside a section. -/
theorem eq_of_writing (hcalls : ∀ t, Matched (calls t))
    (hrun : Run (Config.start () (fun _ => .init) calls) ls c) (ht : Writing c t)
    (hu : Reading c u ∨ Writing c u) : u = t := by
  have hmine := owner_of_inside hcalls hrun (.inr ht)
  have htheirs := owner_of_inside hcalls hrun hu
  exact Option.some.inj (htheirs.symm.trans hmine)

/-- While a thread owns the mutex, no other one comes to the end of `reader_enter`. -/
theorem not_canEnter_of_owner
    (hc : ∀ t, ∃ x, Stands (.rwlock 0) RwCall.exits (fun call => !call.exits) c t x)
    (howner : c.monitor.owner (.rwlock 0) = some t) (hu : u ≠ t) : ¬ CanEnter c u := by
  rintro ⟨ls', c', hrun, hreading⟩
  -- the steps of `u` leave the mutex to `t`
  have hkept : (∀ t, ∃ x, Stands (.rwlock 0) RwCall.exits (fun call => !call.exits) c' t x) ∧
      c'.monitor.owner (.rwlock 0) = some t := by
    clear hreading
    induction hrun with
    | nil => exact ⟨hc, howner⟩
    | snoc _ hthread hs ih =>
      exact ⟨Stands.step holding_code ih.1 hs,
        Stands.owner_of_step ih.1 hs (fun ht => hu (hthread.symm.trans ht.symm)) ih.2⟩
  have howner' := owner_of_between (hkept.1 u) hreading.1 hreading.2 rfl
  exact hu (Option.some.inj (howner'.symm.trans hkept.2))

/-- While one reader is inside, no other one can enter. -/
theorem not_canEnter_of_reading (hcalls : ∀ t, Matched (calls t))
    (hrun : Run (Config.start () (fun _ => .init) calls) ls c) (ht : Reading c t)
    (hu : Entering c u) : ¬ CanEnter c u :=
  not_canEnter_of_owner (exclusion_of_run hcalls hrun) (owner_of_inside hcalls hrun (.inl ht))
    (hu.ne ht)

end Sharing

/-! ## Two readers -/

/-- Two threads that read once. -/
def twoReaders : RwThreads Bool :=
  Config.start () (fun _ => .init) fun _ => [.readerEnter, .readerExit]

theorem matched_twoReaders (_ : Bool) : Matched [.readerEnter, .readerExit] := .reading .nil

/-- One of them is inside, the other one has not called `reader_enter` yet. -/
def oneInside (c : RwThreads Bool) : Bool :=
  (c.thread false).frame.isNone && (c.thread false).todo.head? == some .readerExit &&
    (c.thread true).frame.isNone && (c.thread true).todo.head? == some .readerEnter &&
    (c.monitor.vars 0).activeWriters == 0 && (c.monitor.vars 0).waitingWriters == 0

theorem exists_oneInside : ∃ ls c, Run twoReaders ls c ∧ Reading c false ∧ Entering c true ∧
    NoWriter c := by
  have hfollow : (twoReaders.follow (fun _ _ => true) (List.replicate 5 false)).any
      (fun r => oneInside r.2) = true := by decide +kernel
  obtain ⟨⟨ls, c⟩, hls, hc⟩ := Option.any_eq_true .. |>.mp hfollow
  have hrun : Run twoReaders ls c := (RunWhere.nil.follow (fun _ _ _ => trivial) hls).run
  simp only [oneInside, Bool.and_eq_true, Option.isNone_iff_eq_none, beq_iff_eq] at hc
  obtain ⟨⟨⟨⟨⟨hframe, htodo⟩, hframe'⟩, htodo'⟩, hactive⟩, hwaiting⟩ := hc
  exact ⟨ls, c, hrun, ⟨hframe, htodo⟩, .inl ⟨hframe', htodo'⟩, hactive, hwaiting⟩

theorem not_canEnter_of_reading_two : ∃ ls c, Run twoReaders ls c ∧ NoWriter c ∧
    ¬ CanEnter c true := by
  obtain ⟨ls, c, hrun, hreading, hentering, hno⟩ := exists_oneInside
  exact ⟨ls, c, hrun, hno, not_canEnter_of_reading matched_twoReaders hrun hreading hentering⟩

theorem not_readersShare : ¬ ∀ (calls : Bool → List RwCall), (∀ t, Matched (calls t)) →
    ∀ ls c, Run (Config.start () (fun _ => .init) calls : RwThreads Bool) ls c →
      (∃ t, Reading c t) → NoWriter c → ∀ u, Entering c u → CanEnter c u := by
  intro h
  obtain ⟨ls, c, hrun, hreading, hentering, hno⟩ := exists_oneInside
  have howner := owner_of_inside matched_twoReaders hrun (.inl hreading)
  exact not_canEnter_of_owner (exclusion_of_run matched_twoReaders hrun) howner
    (hentering.ne hreading) (h _ matched_twoReaders ls c hrun ⟨false, hreading⟩ hno true hentering)

/-! ## A reader and a writer -/

/-- One thread that writes and one that reads. -/
def readerAndWriter : RwThreads Bool :=
  Config.start () (fun _ => .init) fun t =>
    if t then [.writerEnter, .writerExit] else [.readerEnter, .readerExit]

theorem matched_readerAndWriter (t : Bool) :
    Matched (if t then [.writerEnter, .writerExit] else [.readerEnter, .readerExit]) := by
  cases t with
  | false => exact .reading .nil
  | true => exact .writing .nil

/-- The writer goes first. -/
theorem exists_writing : ∃ ls c, Run readerAndWriter ls c ∧ Writing c true ∧
    ∀ l ∈ ls, l.call = .writerEnter := by
  have hfollow : (readerAndWriter.follow (fun _ l => l.call == .writerEnter)
      (List.replicate 6 true)).any (fun r => r.1.all (fun l => l.call == .writerEnter) &&
        (r.2.thread true).frame.isNone && (r.2.thread true).todo.head? == some .writerExit) =
          true := by decide +kernel
  obtain ⟨⟨ls, c⟩, hls, hc⟩ := Option.any_eq_true .. |>.mp hfollow
  have hrun : Run readerAndWriter ls c := (RunWhere.nil.follow (fun _ _ _ => trivial) hls).run
  simp only [Bool.and_eq_true, List.all_eq_true, Option.isNone_iff_eq_none, beq_iff_eq] at hc
  exact ⟨ls, c, hrun, ⟨hc.1.2, hc.2⟩, hc.1.1⟩

theorem eq_of_writing_two : ∃ ls c, Run readerAndWriter ls c ∧ Writing c true ∧
    ∀ u, Reading c u ∨ Writing c u → u = true := by
  obtain ⟨ls, c, hrun, hwriting, -⟩ := exists_writing
  exact ⟨ls, c, hrun, hwriting, fun u => eq_of_writing matched_readerAndWriter hrun hwriting⟩

end InodeFs
