import InodeFs.Bytes
import InodeFs.Locks

/-!
# `class disk`, and what a program may do to it

`Disk` is the array `blocks`; row `BLOCK_NUM`, which the guards of `read_block` and `write_block`
let through, lies outside it.  Bytes that a program reads without having written them (a local
buffer, a row or an element past the end of its array) are drawn from its private input `Junk`.
-/

namespace InodeFs

/-- `BLOCK_NUM` -/
abbrev blockNum : Nat := 32768

structure Disk where
  blocks : Fin 32768 → Block

namespace Disk

/-- `disk::disk` -/
def init : Disk := ⟨fun _ _ => 0⟩

/-- Row `r` of the array. -/
def row (d : Disk) (r : Nat) : Block := if h : r < 32768 then d.blocks ⟨r, h⟩ else fun _ => 0

/-- The array with row `r` replaced. -/
def setRow (d : Disk) (r : Nat) (b : Block) : Disk :=
  ⟨fun x => if x.val = r then b else d.blocks x⟩

@[ext] theorem ext_row {d e : Disk} (h : ∀ r < 32768, d.row r = e.row r) : d = e := by
  cases d; cases e
  congr 1
  funext x
  simpa only [row, x.isLt, dif_pos] using h x.val x.isLt

theorem row_setRow (d : Disk) (r q : Nat) (b : Block) :
    (d.setRow r b).row q = if q = r ∧ q < 32768 then b else d.row q := by
  unfold row setRow
  by_cases hq : q < 32768
  · simp only [hq, dif_pos, and_true]
  · simp only [hq, dif_neg, not_false_iff, and_false, if_false]

@[simp] theorem row_setRow_self (d : Disk) (r : Nat) (b : Block) (hr : r < 32768) :
    (d.setRow r b).row r = b := by rw [row_setRow, if_pos ⟨rfl, hr⟩]

theorem row_setRow_ne (d : Disk) {r q : Nat} (b : Block) (h : q ≠ r) :
    (d.setRow r b).row q = d.row q := by rw [row_setRow, if_neg (fun hc => h hc.1)]

-- A row that the array does not have.
theorem setRow_of_ge (d : Disk) {r : Nat} (b : Block) (hr : 32768 ≤ r) : d.setRow r b = d := by
  refine ext_row fun q hq => ?_
  exact row_setRow_ne d b (by omega)

theorem row_of_ge (d : Disk) {r : Nat} (hr : 32768 ≤ r) : d.row r = fun _ => 0 :=
  dif_neg (Nat.not_lt.mpr hr)

@[simp] theorem row_init (r : Nat) : Disk.init.row r = fun _ => 0 := by
  unfold row init; split <;> rfl

end Disk

/-- The bytes a call reads without having written them, one stretch of memory for each time. -/
abbrev Junk := Nat → Mem

/-- Which function issues a write; of no effect. -/
inductive Caller where
  | putInode
  | allocBlock
  | freeBlock
  | writeFile
  deriving DecidableEq

/-- The arrays whose elements a program may reach outside their bounds. -/
inductive ArrayName where
  /-- `ino->blocks` -/
  | inodeBlocks
  /-- `(int *) indirect_block` -/
  | indirectEntries
  /-- `final_indirect_block` -/
  | finalIndirectBlock

inductive Action where
  /-- `disk::read_block` into a buffer; the answer is what the buffer then holds. -/
  | read (id : UInt32) (buf : Block)
  /-- `disk::write_block` -/
  | write (who : Caller) (id : UInt32) (buf : Block)
  /-- A local buffer, or memory from `malloc`, before anything is stored in it. -/
  | uninit
  /-- An access to element `i` of an array that has no such element. -/
  | stray (a : ArrayName) (i : Nat)

abbrev Action.Res : Action → Type
  | .read _ _ => Block
  | .write _ _ _ => Unit
  | .uninit => Mem
  | .stray _ _ => Mem

abbrev FsSig : Signature :=
  Prog.MonitorSig Action Action.Res Mutex (UInt32 × CondVar) (UInt32 → RwCounters)

/-- The programs of the file system. -/
abbrev FsM := Prog FsSig

/-- What the actions do, line by line as `disk::read_block` and `disk::write_block`. -/
def Action.exec : (a : Action) → Junk → Disk → a.Res × Junk × Disk
  | .read id buf, j, d =>
      if id.toNat > blockNum then (buf, j, d)
      else if id.toNat < blockNum then (d.row id.toNat, j, d)
      else (Block.ofMem (j 0), fun n => j (n + 1), d)
  | .write _ id buf, j, d =>
      if id.toNat > blockNum then ((), j, d) else ((), j, d.setRow id.toNat buf)
  | .uninit, j, d => (j 0, fun n => j (n + 1), d)
  | .stray _ _, j, d => (j 0, fun n => j (n + 1), d)

instance : Store FsSig Junk Disk := ⟨Action.exec⟩

theorem exec_read {id : UInt32} (hid : id.toNat < 32768) (buf : Block) (j : Junk) (d : Disk) :
    Action.exec (.read id buf) j d = (d.row id.toNat, j, d) := by
  simp only [Action.exec, blockNum, if_neg (Nat.not_lt.mpr hid.le), if_pos hid]

theorem exec_write {id : UInt32} (hid : id.toNat < 32768) (who : Caller) (buf : Block) (j : Junk)
    (d : Disk) : Action.exec (.write who id buf) j d = ((), j, d.setRow id.toNat buf) := by
  simp only [Action.exec, blockNum, if_neg (Nat.not_lt.mpr hid.le)]

/-! ## The vocabulary of the layers above -/

def lock (m : Mutex) : FsM Unit := Prog.synchronise (.lock m)

def unlock (m : Mutex) : FsM Unit := Prog.synchronise (.unlock m)

/-- `d->read_block(id, buf)` -/
def readDisk (id : UInt32) (buf : Block) : FsM Block := Prog.perform (S := FsSig) (.read id buf)

/-- `d->write_block(id, buf)` -/
def writeDisk (who : Caller) (id : UInt32) (buf : Block) : FsM Unit :=
  Prog.perform (S := FsSig) (.write who id buf)

/-- `malloc` -/
def freshMem : FsM Mem := Prog.perform (S := FsSig) .uninit

/-- `char buf[BLOCK_SIZE];` -/
def freshBlock : FsM Block := do
  let m ← freshMem
  pure (Block.ofMem m)

/-- The bytes at element `i` of an array that has no such element. -/
def strayAccess (a : ArrayName) (i : Nat) : FsM Mem := Prog.perform (S := FsSig) (.stray a i)

/-- `ptr[i]` in an indirect block. -/
def entry (b : Block) (i : Nat) : FsM UInt32 :=
  if i < 128 then pure (b.word i) else do
    let m ← strayAccess .indirectEntries i
    pure (wordOf m)

/-- `memcpy(final_indirect_block + i * sizeof(uint32_t), &v, sizeof(uint32_t))` -/
def storeEntry (b : Block) (i : Nat) (v : UInt32) : FsM Block :=
  if i < 128 then pure (b.setWord i v) else do
    let _ ← strayAccess .finalIndirectBlock i
    pure b

/-! ## Their weakest preconditions -/

section Wp
variable {α : Type} (Q : α → Disk → Prop) (d : Disk)

open Prog

@[simp] theorem wp_lock (m : Mutex) (Q : Unit → Disk → Prop) (d : Disk) :
    wp (lock m) Q d ↔ Q () d := Iff.rfl

@[simp] theorem wp_unlock (m : Mutex) (Q : Unit → Disk → Prop) (d : Disk) :
    wp (unlock m) Q d ↔ Q () d := Iff.rfl

@[simp] theorem wp_readerEnter (inum : UInt32) (Q : Unit → Disk → Prop) (d : Disk) :
    wp (S := FsSig) (Rwlock.readerEnter inum) Q d ↔ Q () d := Iff.rfl

@[simp] theorem wp_readerExit (inum : UInt32) (Q : Unit → Disk → Prop) (d : Disk) :
    wp (S := FsSig) (Rwlock.readerExit inum) Q d ↔ Q () d := Iff.rfl

@[simp] theorem wp_writerEnter (inum : UInt32) (Q : Unit → Disk → Prop) (d : Disk) :
    wp (S := FsSig) (Rwlock.writerEnter inum) Q d ↔ Q () d := Iff.rfl

@[simp] theorem wp_writerExit (inum : UInt32) (Q : Unit → Disk → Prop) (d : Disk) :
    wp (S := FsSig) (Rwlock.writerExit inum) Q d ↔ Q () d := Iff.rfl

@[simp] theorem wp_freshMem (Q : Mem → Disk → Prop) (d : Disk) :
    wp freshMem Q d ↔ ∀ m, Q m d := by
  constructor
  · intro h m
    exact h fun _ => m
  · intro h j
    exact h (j 0)

@[simp] theorem wp_strayAccess (a : ArrayName) (i : Nat) (Q : Mem → Disk → Prop) (d : Disk) :
    wp (strayAccess a i) Q d ↔ ∀ m, Q m d := by
  constructor
  · intro h m
    exact h fun _ => m
  · intro h j
    exact h (j 0)

theorem Block.ofMem_surjective (b : Block) : ∃ m, Block.ofMem m = b :=
  ⟨b.byte, by funext i; simp only [Block.ofMem, Block.byte, i.isLt, dif_pos]⟩

@[simp] theorem wp_freshBlock (Q : Block → Disk → Prop) (d : Disk) :
    wp freshBlock Q d ↔ ∀ b, Q b d := by
  simp only [freshBlock, wp_bind, wp_freshMem, pure_eq, wp_ret]
  constructor
  · intro h b
    obtain ⟨m, rfl⟩ := Block.ofMem_surjective b
    exact h m
  · intro h m
    exact h _

theorem wp_readDisk (id : UInt32) (buf : Block) (Q : Block → Disk → Prop) (d : Disk)
    (hid : id.toNat < 32768) : wp (readDisk id buf) Q d ↔ Q (d.row id.toNat) d := by
  simp only [readDisk, perform, wp_act, Store.exec, exec_read hid, wp_ret, forall_const]

-- Whatever `read_block` does with the id, the buffer then holds some bytes.
theorem wp_readDisk_of_forall (id : UInt32) (buf : Block) {Q : Block → Disk → Prop} {d : Disk}
    (h : ∀ b, Q b d) : wp (readDisk id buf) Q d := by
  intro j
  simp only [Store.exec, Action.exec]
  split
  · exact h _
  · split <;> exact h _

-- Reading changes nothing.
theorem wp_readDisk_const (id : UInt32) (buf : Block) (R : Disk → Prop) (d : Disk) :
    wp (readDisk id buf) (fun _ e => R e) d ↔ R d := by
  refine ⟨fun h => ?_, fun h => wp_readDisk_of_forall id buf fun _ => h⟩
  have h0 := h fun _ _ => 0
  simp only [Store.exec, Action.exec, wp_ret] at h0
  split at h0
  · exact h0
  · split at h0 <;> exact h0

-- Past the last row the guard keeps the block out, or the store misses the array.
theorem wp_writeDisk_of_ge (who : Caller) {id : UInt32} (buf : Block) (Q : Unit → Disk → Prop)
    (d : Disk) (hid : 32768 ≤ id.toNat) : wp (writeDisk who id buf) Q d ↔ Q () d := by
  simp only [writeDisk, perform, wp_act, Store.exec, Action.exec, Disk.setRow_of_ge _ _ hid, ite_self,
    wp_ret, forall_const]

theorem wp_writeDisk (who : Caller) (id : UInt32) (buf : Block) (Q : Unit → Disk → Prop) (d : Disk)
    (hid : id.toNat < 32768) :
    wp (writeDisk who id buf) Q d ↔ Q () (d.setRow id.toNat buf) := by
  simp only [writeDisk, perform, wp_act, Store.exec, exec_write hid, wp_ret, forall_const]

theorem wp_entry (b : Block) (i : Nat) (Q : UInt32 → Disk → Prop) (d : Disk) (hi : i < 128) :
    wp (entry b i) Q d ↔ Q (b.word i) d := by
  rw [entry, if_pos hi, pure_eq, wp_ret]

-- Past the block an entry may be anything.
theorem wp_entry_iff (b : Block) (i : Nat) (Q : UInt32 → Disk → Prop) (d : Disk) :
    wp (entry b i) Q d ↔ ∀ v, (i < 128 → v = b.word i) → Q v d := by
  by_cases hi : i < 128
  · rw [wp_entry b i Q d hi]
    exact ⟨fun h v hv => hv hi ▸ h, fun h => h _ fun _ => rfl⟩
  · rw [entry, if_neg hi]
    simp only [wp_bind, wp_strayAccess, pure_eq, wp_ret]
    constructor
    · intro h v _
      have hv := h (byteOf v)
      rwa [wordOf_byteOf v _ fun _ _ => rfl] at hv
    · exact fun h m => h _ fun hlt => absurd hlt hi

theorem wp_storeEntry (b : Block) (i : Nat) (v : UInt32) (Q : Block → Disk → Prop) (d : Disk)
    (hi : i < 128) : wp (storeEntry b i v) Q d ↔ Q (b.setWord i v) d := by
  rw [storeEntry, if_pos hi, pure_eq, wp_ret]

end Wp

end InodeFs
