import InodeFs.Plain
import InodeFs.Prog.Ordered
import InodeFs.Runs

/-!
# Threads that read and write one file

The mutex of an `a4_rwlock` stays locked from the entry methods to the exit methods, so its waiting
loops are never busy and the calls on a file run one at a time, in the order in which they lock it.
-/

namespace InodeFs

open BlockLayer InodeLayer FsServer Prog Disk

/-! ## Calls -/

/-- A call of `read_file` or of `write_file`, with the bytes it reads without having written them. -/
inductive FileCall where
  | read (inum : UInt32) (bufOut size : Bool) (now : UInt32) (junk : Junk)
  | write (inum : UInt32) (buf : Mem) (size : Int) (junk : Junk)

/-- What a call returns. -/
inductive FileResult where
  | read (r : Option ReadResult)
  | written

def FileCall.inum : FileCall → UInt32
  | .read inum _ _ _ _ => inum
  | .write inum _ _ _ => inum

instance : Calls FileCall FsSig Junk FileResult where
  code
    | .read inum bufOut size now _ => do
        let r ← readFile inum bufOut size now
        pure (.read r)
    | .write inum buf size _ => do
        writeFile inum buf size
        pure .written
  input
    | .read _ _ _ _ junk => junk
    | .write _ _ _ junk => junk

/-- A system of threads that make such calls. -/
abbrev FileThreads (τ : Type) :=
  ThreadConfig τ FileCall Action Action.Res Mutex (UInt32 × CondVar) (UInt32 → RwCounters) Junk Disk
    FileResult

abbrev FileLabel (τ : Type) := Label τ FileCall Action SyncOp

/-! ## The lock while nobody waits -/

namespace RwCounters

/-- No call is in progress. -/
structure Idle (c : RwCounters) : Prop where
  activeWriters : c.activeWriters = 0
  activeReaders : c.activeReaders = 0
  waitingWriters : c.waitingWriters = 0

/-- One reader is inside. -/
structure Reading (c : RwCounters) : Prop where
  activeWriters : c.activeWriters = 0
  activeReaders : c.activeReaders = 1
  waitingWriters : c.waitingWriters = 0

/-- One writer is inside. -/
structure Writing (c : RwCounters) : Prop where
  activeReaders : c.activeReaders = 0
  waitingWriters : c.waitingWriters = 0

end RwCounters

/-! ## The discipline of the calls -/

/-- `bitmap_mutex` is locked last. -/
def Mutex.rank : Mutex → Nat
  | .rwlock _ => 0
  | .bitmap => 1

/-- The counters under a mutex; those of a lock just made stand for none. -/
def Mutex.guards : Mutex → (UInt32 → RwCounters) → RwCounters
  | .rwlock inum, vars => vars inum
  | .bitmap, _ => .init

/-- The rules for a call on file `inum`. -/
abbrev orderedOn (inum : UInt32) : Ghost FsSig (List Mutex × RwCounters) :=
  ordered Mutex.rank Mutex.guards (.rwlock inum)

/-- The call has released what it locked, and left the counters as it found them. -/
abbrev Released {α : Type} (_ : α) (x : List Mutex × RwCounters) : Prop := x.1 = [] ∧ x.2.Idle

section Rules

variable {α : Type} {inum : UInt32} {v : RwCounters}

theorem allowsPlain_orderedOn : AllowsPlain (orderedOn inum) [.rwlock inum] v where
  act := fun hne hP => ⟨hne, hP⟩
  lock := fun hP => by
    refine ⟨List.cons_ne_nil _ _, fun m hm => ?_, hP⟩
    rw [List.mem_singleton.mp hm]
    exact Nat.zero_lt_one
  unlock := fun hP => ⟨_, rfl, hP⟩
  ne := List.cons_ne_nil _ _

theorem Plain.ordered {p : FsM α} {Q : α → List Mutex × RwCounters → Prop} (hp : Plain p)
    (hQ : ∀ a, Q a ([.rwlock inum], v)) : Follows (orderedOn inum) p Q ([.rwlock inum], v) :=
  allowsPlain_orderedOn.plain hp hQ

-- Assignments to the counters of `rwlocks[inum]`.
theorem ordered_update {f : RwCounters → RwCounters} {Q : Unit → List Mutex × RwCounters → Prop}
    (hQ : Q () ([.rwlock inum], f v)) :
    Follows (S := FsSig) (orderedOn inum) (Rwlock.update inum f) Q ([.rwlock inum], v) := by
  refine ⟨List.cons_ne_nil _ _, fun m hm vars => ?_, f v, fun vars hvars => ?_, hQ⟩
  · cases m with
    | rwlock i => exact Function.update_of_ne (fun hi => hm (congrArg _ hi)) ..
    | bitmap => rfl
  · exact (Function.update_self ..).trans (congrArg f hvars)

-- A waiting loop that is not busy.
theorem ordered_waitWhile {cv : CondVar} {busy : RwCounters → Bool}
    {Q : Unit → List Mutex × RwCounters → Prop} (hbusy : busy v = false)
    (hQ : Q () ([.rwlock inum], v)) :
    Follows (S := FsSig) (orderedOn inum) (Rwlock.waitWhile inum cv busy) Q
      ([.rwlock inum], v) :=
  ⟨List.cons_ne_nil _ _, fun _ hvars => (congrArg busy hvars).trans hbusy, hQ⟩

theorem ordered_readerExit {Q : Unit → List Mutex × RwCounters → Prop} (hv : v.Reading)
    (hQ : ∀ v', v'.Idle → Q () ([], v')) :
    Follows (S := FsSig) (orderedOn inum) (Rwlock.readerExit inum) Q ([.rwlock inum], v) := by
  refine Follows.bind (ordered_update (Follows.bind ⟨List.cons_ne_nil _ _, [], rfl, hQ _ ?_⟩))
  exact ⟨hv.activeWriters, by rw [hv.activeReaders]; rfl, hv.waitingWriters⟩

theorem ordered_writerExit {Q : Unit → List Mutex × RwCounters → Prop} (hv : v.Writing)
    (hQ : ∀ v', v'.Idle → Q () ([], v')) :
    Follows (S := FsSig) (orderedOn inum) (Rwlock.writerExit inum) Q ([.rwlock inum], v) := by
  refine Follows.bind (ordered_update (Follows.bind ⟨List.cons_ne_nil _ _, [], rfl, hQ _ ?_⟩))
  exact ⟨rfl, hv.activeReaders, hv.waitingWriters⟩

-- The mutex stays locked from `reader_enter` to `reader_exit`.
theorem ordered_reader {body : FsM α}
    (hbody : ∀ {v}, v.Reading → Follows (orderedOn inum) body Released ([.rwlock inum], v)) :
    OrderedBy Mutex.rank Mutex.guards (.rwlock inum) RwCounters.Idle
      (Rwlock.readerEnter inum >>= fun _ => body) := by
  simp only [Rwlock.readerEnter, bind_assoc]
  refine OrderedBy.bind fun v hidle => ?_
  have hbusy : Rwlock.readerBusy v = false := by
    simp only [Rwlock.readerBusy, hidle.activeWriters, hidle.waitingWriters]
    rfl
  refine Follows.bind (ordered_waitWhile hbusy (Follows.bind (ordered_update (hbody ?_))))
  exact ⟨hidle.activeWriters, by rw [hidle.activeReaders]; rfl, hidle.waitingWriters⟩

-- The mutex stays locked from `writer_enter` to `writer_exit`.
theorem ordered_writer {body : FsM α}
    (hbody : ∀ {v}, v.Writing → Follows (orderedOn inum) body Released ([.rwlock inum], v)) :
    OrderedBy Mutex.rank Mutex.guards (.rwlock inum) RwCounters.Idle
      (Rwlock.writerEnter inum >>= fun _ => body) := by
  simp only [Rwlock.writerEnter, bind_assoc]
  refine OrderedBy.bind fun v hidle => Follows.bind (ordered_update ?_)
  refine Follows.bind (ordered_waitWhile ?_ (Follows.bind (ordered_update (hbody ?_))))
  · simp only [Rwlock.writerBusy, hidle.activeWriters, hidle.activeReaders]
    rfl
  · exact ⟨hidle.activeReaders, by rw [hidle.waitingWriters]; rfl⟩

theorem ordered_readFile (bufOut size : Bool) (now : UInt32) (f : Option ReadResult → α) :
    OrderedBy Mutex.rank Mutex.guards (.rwlock inum) RwCounters.Idle
      (readFile inum bufOut size now >>= fun r => pure (f r) : FsM α) := by
  have hexit : ∀ {v : RwCounters} (r : Option ReadResult), v.Reading →
      Follows (S := FsSig) (orderedOn inum) (Rwlock.readerExit inum >>= fun _ => pure (f r))
        Released ([.rwlock inum], v) :=
    fun r hv => Follows.bind (ordered_readerExit hv fun v' h => ⟨rfl, h⟩)
  simp only [readFile, bind_assoc]
  refine ordered_reader fun {v} hv => ?_
  split
  · exact hexit none hv
  · rw [bind_assoc]
    refine Follows.bind ((plain_getInode inum).ordered fun ino => ?_)
    cases ino with
    | none => exact hexit none hv
    | some ino =>
      simp only [bind_assoc]
      refine Follows.bind (allowsPlain_orderedOn.putInode _ _ ?_)
      refine Follows.bind (plain_freshMem.ordered fun _ => ?_)
      refine Follows.bind (plain_freshBlock.ordered fun _ => ?_)
      refine Follows.bind ((plain_readDisk _ _).ordered fun _ => ?_)
      refine Follows.bind ((Plain.whileLoop (fun r => plain_readStep _ _ r) _ _).ordered
        fun r => ?_)
      exact hexit _ hv

theorem ordered_writeFile (buf : Mem) (size : Int) (a : α) :
    OrderedBy Mutex.rank Mutex.guards (.rwlock inum) RwCounters.Idle
      (writeFile inum buf size >>= fun _ => pure a : FsM α) := by
  have hexit : ∀ {v : RwCounters}, v.Writing →
      Follows (S := FsSig) (orderedOn inum) (Rwlock.writerExit inum >>= fun _ => pure a)
        Released ([.rwlock inum], v) :=
    fun hv => Follows.bind (ordered_writerExit hv fun v' h => ⟨rfl, h⟩)
  simp only [writeFile, bind_assoc]
  refine ordered_writer fun {v} hv => ?_
  split
  · exact hexit hv
  · rw [bind_assoc]
    refine Follows.bind ((plain_getInode inum).ordered fun ino => ?_)
    cases ino with
    | none => exact hexit hv
    | some ino =>
      simp only [bind_assoc]
      refine Follows.bind ((plain_writeBlocks _ _ _).ordered fun _ => ?_)
      exact Follows.bind (allowsPlain_orderedOn.putInode _ _ (hexit hv))

/-- Every call locks its file's mutex first, and then `bitmap_mutex` at most. -/
theorem ordered_code (call : FileCall) :
    OrderedBy Mutex.rank Mutex.guards (.rwlock call.inum) RwCounters.Idle
      (Calls.code call : FsM FileResult) := by
  cases call with
  | read inum bufOut size now junk => exact ordered_readFile bufOut size now FileResult.read
  | write inum buf size junk => exact ordered_writeFile buf size FileResult.written

end Rules

/-! ## Every interleaving is serial -/

section Serial
variable {τ : Type} [DecidableEq τ]

/-- The run with labels `ls` from disk `d` to `c` does what its calls do one after the other, in the
order in which they locked `rwlocks[inum]`: each thread has results of that serial run, and when
every call has returned, all of them, and the disk is the same. -/
def Serialised (inum : UInt32) (d : Disk) (calls : τ → List FileCall) (ls : List (FileLabel τ))
    (c : FileThreads τ) : Prop :=
  ∃ rs e, serial (lockOrder (.rwlock inum) ls) d = some (rs, e) ∧
    (∀ t, entriesOf t (lockOrder (.rwlock inum) ls) <+: calls t ∧
      (c.thread t).done <+: entriesOf t rs) ∧
    (c.Finished → c.store = e ∧
      ∀ t, entriesOf t (lockOrder (.rwlock inum) ls) = calls t ∧
        (c.thread t).done = entriesOf t rs)

/-- Reads and writes of one file are serial in every interleaving, from any disk. -/
theorem serialised_file {inum : UInt32} {d : Disk} {vars : UInt32 → RwCounters}
    {calls : τ → List FileCall} {ls : List (FileLabel τ)} {c : FileThreads τ}
    (hcalls : ∀ t, ∀ call ∈ calls t, call.inum = inum) (hidle : (vars inum).Idle)
    (hrun : Run (Config.start d vars calls) ls c) : Serialised inum d calls ls c :=
  serialised (J := fun vars => (vars inum).Idle)
    (fun t call hcall => hcalls t call hcall ▸ (ordered_code call).guardedBy) hidle hrun

/-! ## No deadlock -/

/-- Some thread that has calls left need not wait, and no mutex stays locked behind the calls. -/
theorem notDeadlocked_file {d : Disk} {calls : τ → List FileCall} {ls : List (FileLabel τ)}
    {c : FileThreads τ} (hrun : Run (Config.start d (fun _ => .init) calls) ls c) :
    ¬ Deadlocked c ∧
      ((∀ t, (c.thread t).frame = none) → ∀ m, c.monitor.owner m = none) := by
  have horderly : Orderly Mutex.rank Mutex.guards RwCounters.Idle
      (fun call : FileCall => Mutex.rwlock call.inum) c := by
    refine orderly_of_run (fun t call _ => ordered_code call) (fun m => ?_) hrun
    cases m <;> exact ⟨rfl, rfl, rfl⟩
  refine ⟨horderly.not_deadlocked (n := 1) fun m => ?_, horderly.unlocked⟩
  cases m
  · exact Nat.zero_le 1
  · exact le_rfl

end Serial

/-- One thread writes a byte to the root, another reads the root. -/
def writeAndRead : Bool → List FileCall
  | false => [.write 0 (fun _ => 66) 1 fun _ _ => 0]
  | true => [.read 0 true true 5 fun _ _ => 0]

/-- The write begins before the read has come to the lock. -/
theorem serialised_file_two : ∃ ls c,
    Run (Config.start (madeAt 0) (fun _ => .init) writeAndRead : FileThreads Bool) ls c ∧
      c.Finished ∧ Serialised 0 (madeAt 0) writeAndRead ls c := by
  have hfollow : ((Config.start (madeAt 0) (fun _ => .init) writeAndRead : FileThreads Bool).follow
      (fun _ _ => true) ([true] ++ List.replicate 67 false ++ List.replicate 17 true)).any
        (fun r => r.2.bothReturned) = true := by decide +kernel
  obtain ⟨⟨ls, c⟩, hls, hreturned⟩ := Option.any_eq_true .. |>.mp hfollow
  have hrun : Run _ ls c := (RunWhere.nil.follow (fun _ _ _ => trivial) hls).run
  refine ⟨_, c, hrun, Config.finished_of_bothReturned hreturned,
    serialised_file ?_ ⟨rfl, rfl, rfl⟩ hrun⟩
  rintro (_ | _) call hcall
  · rw [List.mem_singleton.mp hcall]
    rfl
  · rw [List.mem_singleton.mp hcall]
    rfl

/-- The reader waits for the writer, which goes on. -/
theorem notDeadlocked_file_two : ∃ ls c,
    Run (Config.start (madeAt 0) (fun _ => .init) writeAndRead : FileThreads Bool) ls c ∧
      c.monitor.owner (.rwlock 0) = some false ∧ (c.thread true).frame ≠ none ∧
      ¬ Deadlocked c := by
  have hfollow : ((Config.start (madeAt 0) (fun _ => .init) writeAndRead : FileThreads Bool).follow
      (fun _ _ => true) [true, false, false]).any (fun r =>
        r.2.monitor.owner (.rwlock 0) == some false && (r.2.thread true).frame.isSome) = true := by
    decide +kernel
  obtain ⟨⟨ls, c⟩, hls, hc⟩ := Option.any_eq_true .. |>.mp hfollow
  obtain ⟨howner, hframe⟩ := Bool.and_eq_true_iff.mp hc
  have hrun : Run _ ls c := (RunWhere.nil.follow (fun _ _ _ => trivial) hls).run
  exact ⟨ls, c, hrun, beq_iff_eq.mp howner, Option.isSome_iff_ne_none.mp hframe,
    (notDeadlocked_file hrun).1⟩

end InodeFs
