import InodeFs.Prog.Threads
import Mathlib.Data.Int.Notation

/-!
# `class a4_rwlock` and the mutexes

The counters are shared memory that a thread touches only while it holds the lock's mutex.
-/

namespace InodeFs

/-- The mutexes of the file system: one in each `a4_rwlock`, and `bitmap_mutex`. -/
inductive Mutex where
  | rwlock (inum : UInt32)
  | bitmap
  deriving DecidableEq

inductive CondVar where
  | canRead
  | canWrite
  deriving DecidableEq

/-- The integers of an `a4_rwlock`. -/
structure RwCounters where
  waitingWriters : Int
  waitingReaders : Int
  activeWriters : Int
  activeReaders : Int
  deriving DecidableEq

/-- The constructor `a4_rwlock::a4_rwlock`. -/
def RwCounters.init : RwCounters := ⟨0, 0, 0, 0⟩

/-- Operations on the locks; `vars inum` are the counters of `rwlocks[inum]`. -/
abbrev SyncOp := Prog.MonitorOp Mutex (UInt32 × CondVar) (UInt32 → RwCounters)

namespace Rwlock

/-- `while (activeWriters > 0 || waitingWriters > 0)` -/
def readerBusy (c : RwCounters) : Bool := c.activeWriters > 0 || c.waitingWriters > 0

/-- `while (activeWriters > 0 || activeReaders > 0)` -/
def writerBusy (c : RwCounters) : Bool := c.activeWriters > 0 || c.activeReaders > 0

variable {Act : Type} {Res : Act → Type}

/-- Programs that lock. -/
abbrev LockM (Act : Type) (Res : Act → Type) :=
  Prog (Prog.MonitorSig Act Res Mutex (UInt32 × CondVar) (UInt32 → RwCounters))

/-- Assignments to the counters of `rwlocks[inum]`. -/
def update (inum : UInt32) (f : RwCounters → RwCounters) : LockM Act Res Unit :=
  Prog.synchronise (.update fun vars => Function.update vars inum (f (vars inum)))

/-- `while (busy) pthread_cond_wait(&cv, &lock)` -/
def waitWhile (inum : UInt32) (cv : CondVar) (busy : RwCounters → Bool) : LockM Act Res Unit :=
  Prog.synchronise (.waitWhile (.rwlock inum) (inum, cv) fun vars => busy (vars inum))

/-- `pthread_cond_signal` or `pthread_cond_broadcast`, as the counters say. -/
def wake (inum : UInt32) (whom : RwCounters → Prog.Wake (UInt32 × CondVar)) : LockM Act Res Unit :=
  Prog.synchronise (.wake fun vars => whom (vars inum))

/-- `a4_rwlock::reader_enter`; the mutex is still held when it returns. -/
def readerEnter (inum : UInt32) : LockM Act Res Unit := do
  Prog.synchronise (.lock (.rwlock inum))
  waitWhile inum .canRead readerBusy
  update inum fun c =>
    { c with waitingReaders := c.waitingReaders - 1, activeReaders := c.activeReaders + 1 }

/-- `a4_rwlock::reader_exit` -/
def readerExit (inum : UInt32) : LockM Act Res Unit := do
  update inum fun c => { c with activeReaders := c.activeReaders - 1 }
  wake inum fun c =>
    if c.activeReaders = 0 ∧ c.waitingWriters > 0 then .signal (inum, .canWrite) else .nobody
  Prog.synchronise (.unlock (.rwlock inum))

/-- `a4_rwlock::writer_enter`; the mutex is still held when it returns. -/
def writerEnter (inum : UInt32) : LockM Act Res Unit := do
  Prog.synchronise (.lock (.rwlock inum))
  update inum fun c => { c with waitingWriters := c.waitingWriters + 1 }
  waitWhile inum .canWrite writerBusy
  update inum fun c => { c with waitingWriters := c.waitingWriters - 1, activeWriters := 1 }

/-- `a4_rwlock::writer_exit` -/
def writerExit (inum : UInt32) : LockM Act Res Unit := do
  update inum fun c => { c with activeWriters := 0 }
  wake inum fun c =>
    if c.waitingWriters > 0 then .signal (inum, .canWrite)
    else if c.waitingReaders > 0 then .broadcast (inum, .canRead) else .nobody
  Prog.synchronise (.unlock (.rwlock inum))

end Rwlock

end InodeFs
