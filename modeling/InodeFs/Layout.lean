import InodeFs.InodeTable
import InodeFs.Lowest

/-!
# The blocks of a file

A file of `n` chunks of 512 bytes has `n` pointers, or `n + 1` when it has an indirect block:
pointer `p ≤ 8` is `blocks[p]`, and pointer `p > 8` is entry `p - 9` of the block that `blocks[8]`
names.  `Sound` is what holds of every disk whose files do not disturb each other.
-/

namespace InodeFs

/-- The number of chunks of a file of size `s`. -/
def chunks (s : Nat) : Nat := (s + 511) / 512

/-- The number of pointers that `n` chunks need. -/
def ptrCount (n : Nat) : Nat := if n ≤ 8 then n else n + 1

/-- The number of blocks that a file of size `s` holds. -/
def pointers (s : Nat) : Nat := ptrCount (chunks s)

/-- The pointer to chunk `c`. -/
def chunkPtr (c : Nat) : Nat := if c < 8 then c else c + 1

theorem ptrCount_of_le {n : Nat} (h : n ≤ 8) : ptrCount n = n := if_pos h

theorem ptrCount_of_lt {n : Nat} (h : 8 < n) : ptrCount n = n + 1 := if_neg (by omega)

theorem chunks_le_iff {s n : Nat} : chunks s ≤ n ↔ s ≤ 512 * n := by
  unfold chunks
  omega

theorem lt_chunks_iff {s n : Nat} : n < chunks s ↔ 512 * n < s := by
  unfold chunks
  omega

theorem chunkPtr_lt {c s : Nat} (h : c < chunks s) : chunkPtr c < pointers s := by
  unfold chunkPtr pointers ptrCount
  split <;> split <;> omega

theorem chunkPtr_inj {c c' : Nat} (h : chunkPtr c = chunkPtr c') : c = c' := by
  unfold chunkPtr at h
  split at h <;> split at h <;> omega

theorem chunkPtr_ne_eight (c : Nat) : chunkPtr c ≠ 8 := by
  unfold chunkPtr
  split <;> omega

namespace Disk

/-- Pointer `p` of the inode record `ino`. -/
def ptrOf (d : Disk) (ino : Inode) (p : Nat) : Nat :=
  if p ≤ 8 then (ino.block p).toNat else ((d.row (ino.block 8).toNat).word (p - 9)).toNat

/-- Pointer `p` of inode `i`. -/
def ptr (d : Disk) (i p : Nat) : Nat := d.ptrOf (d.inode i) p

section Pointers
variable {d : Disk} {ino : Inode} {i p : Nat}

@[simp] theorem ptrOf_direct (hp : p ≤ 8) : d.ptrOf ino p = (ino.block p).toNat := if_pos hp

theorem ptrOf_entry (hp : 8 < p) :
    d.ptrOf ino p = ((d.row (ino.block 8).toNat).word (p - 9)).toNat := if_neg (by omega)

theorem ptr_direct (hp : p ≤ 8) : d.ptr i p = ((d.inode i).block p).toNat := ptrOf_direct hp

theorem ptr_entry (hp : 8 < p) :
    d.ptr i p = ((d.row ((d.inode i).block 8).toNat).word (p - 9)).toNat := ptrOf_entry hp

end Pointers

/-- The size of inode `i`. -/
def size (d : Disk) (i : Nat) : Nat := (d.inode i).size.toNat

/-- Byte `k` of the file of inode `i`. -/
def fileByte (d : Disk) (i k : Nat) : UInt8 := (d.row (d.ptr i (chunkPtr (k / 512)))).byte (k % 512)

/-- The bytes of the file of inode `i`. -/
def contents (d : Disk) (i : Nat) : List UInt8 := (List.range (d.size i)).map (d.fileByte i)

/-- Block `id` is held by inode `i`. -/
def Holds (d : Disk) (i id : Nat) : Prop := d.InUse i ∧ ∃ p < pointers (d.size i), d.ptr i p = id

end Disk

/-- The ids in a record grow up to the first that is 0, and so are zero from there on.  Those past
the end of the file are stale: they name blocks the file held earlier. -/
def Ascending (ino : Inode) : Prop :=
  ∀ p < 9, ino.block p ≠ 0 → 123 ≤ (ino.block p).toNat ∧ (ino.block p).toNat < 32768 ∧
    ∀ q < p, 0 < (ino.block q).toNat ∧ (ino.block q).toNat < (ino.block p).toNat

/-- The sizes at which the write loop puts every chunk where the read loop looks for it. -/
def SizeOk (s : Nat) : Prop := s ≤ blockSize * maxFile ∧ ¬ (4096 < s ∧ s < 4608)

structure Sound (d : Disk) : Prop where
  sizeOk : ∀ i, d.InUse i → SizeOk (d.size i)
  ascending : ∀ i, d.InUse i → Ascending (d.inode i)
  region : ∀ i, d.InUse i → ∀ p < pointers (d.size i), 123 ≤ d.ptr i p ∧ d.ptr i p < 32768
  used : ∀ i, d.InUse i → ∀ p < pointers (d.size i), d.ptr i p ∈ d.used
  /-- No two pointers name the same block. -/
  owner : ∀ i j, d.InUse i → d.InUse j → ∀ p < pointers (d.size i), ∀ q < pointers (d.size j),
    d.ptr i p = d.ptr j q → i = j ∧ p = q

theorem size_bounds {s : Nat} (hs : s ≤ 69632) : (0 : Int) ≤ s ∧ (s : Int) ≤ blockSize * maxFile := by
  simp only [blockSize, maxFile, nDirect, nIndirect]
  omega

theorem SizeOk.le {s : Nat} (h : SizeOk s) : s ≤ 69632 := by
  simpa only [blockSize, maxFile, nDirect, nIndirect, Nat.reduceDiv, Nat.reduceAdd,
    Nat.reduceMul] using h.1

theorem SizeOk.chunks_le {s : Nat} (h : SizeOk s) : chunks s ≤ 136 := by
  have hs := h.le
  rw [chunks_le_iff]
  omega

theorem pointers_le {s : Nat} (h : chunks s ≤ 136) : pointers s ≤ 137 := by
  unfold pointers ptrCount
  split <;> omega

theorem Ascending.lt {ino : Inode} (h : Ascending ino) {p : Nat} (hp : p < 9) :
    (ino.block p).toNat < 32768 := by
  by_cases h0 : ino.block p = 0
  · rw [h0]; decide
  · exact (h p hp h0).2.1

theorem asInt_of_lt {v : UInt32} (h : v.toNat < 2147483648) : asInt v = v.toNat := by
  unfold asInt
  apply Int.bmod_eq_of_le
  · norm_num
  · norm_num
    omega

end InodeFs
