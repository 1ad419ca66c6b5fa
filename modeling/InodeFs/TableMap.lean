import InodeFs.Allocator
import InodeFs.InodeTable

/-!
# The inode table as a map

`put_inode` stores at a number and `get_inode` looks it up; a record of type 0 stands for none.  The
place of a record is a quotient and a remainder by nine, and the records of a block leave eight bytes
of it over.
-/

namespace InodeFs

open BlockLayer InodeLayer Prog Disk

/-- Byte `x` of block `q` belongs to the record of inode `i`. -/
def InSlot (i q x : Nat) : Prop :=
  q = iblock i sb.nblocks ∧ sizeofInode * (i % ipb) ≤ x ∧ x < sizeofInode * (i % ipb) + sizeofInode

/-- `put_inode(i, r)` maps `i` to `r`, and to nothing when `r` has type 0; it changes no other inode, and
no byte outside the record of `i`. -/
structure PutsAsMap (d : Disk) (i : UInt32) (r : Inode) : Prop where
  same : wp (putInode i r >>= fun _ => getInode i)
    (fun o _ => o = if r.type = 0 then none else some r) d
  other : ∀ j : UInt32, j.toNat < inodeNum → j ≠ i → ∀ o, wp (getInode j) (fun o' _ => o' = o) d →
    wp (putInode i r >>= fun _ => getInode j) (fun o' _ => o' = o) d
  bytes : wp (putInode i r) (fun _ e => ∀ q < blockNum, ∀ x < blockSize, ¬ InSlot i.toNat q x →
    (e.row q).byte x = (d.row q).byte x) d

/-- The record of inode `i` lies in one of the blocks 9 to 122, and neither the bits of the bitmap nor
the blocks that `alloc_block` answers do. -/
structure RecordApart (d : Disk) (i : Nat) : Prop where
  block : 9 ≤ iblock i sb.nblocks ∧ iblock i sb.nblocks ≤ 122
  slot : sizeofInode * (i % ipb) + sizeofInode ≤ blockSize
  bitmap : ∀ id < blockNum, 1 ≤ bblock id ∧ bblock id ≤ 8
  data : wp allocBlock (fun a _ => 122 < a.toNat) d

section Map
variable {d : Disk} {i : UInt32}

theorem putsAsMap (hi : i.toNat < 1024) (r : Inode) : PutsAsMap d i r := by
  refine ⟨?_, fun j _ hj o ho => ?_, ?_⟩
  · rw [wp_bind, wp_putInode _ _ _ _ hi, wp_getInode]
    have hrec := inode_setInode_self d r hi
    by_cases htype : r.type = 0
    · rw [if_pos htype]
      exact lookup_eq_none fun hin => hin.2 (by rw [hrec, htype])
    · rw [if_neg htype, lookup_eq_some ⟨hi, by rwa [hrec]⟩, hrec]
  · have hne : j.toNat ≠ i.toNat := fun h => hj (UInt32.toNat_inj.mp h)
    rw [wp_getInode] at ho
    rw [wp_bind, wp_putInode _ _ _ _ hi, wp_getInode, ← ho, lookup, lookup,
      inode_setInode_ne d r hne]
    exact if_congr (inUse_setInode_ne d r hne) rfl rfl
  · refine (wp_putInode _ _ _ _ hi).mpr fun q hq x hx hno => ?_
    by_cases hrow : q = tableBlock i.toNat
    · subst hrow
      rw [setInode, row_setRow_self _ _ _ hq, Inode.byte_intoBlock _ _ _ _ hx]
      exact if_neg fun hin => hno ⟨rfl, hin⟩
    · rw [row_setInode d r hrow]

theorem recordApart (d : Disk) {i : Nat} (hi : i < 1024) : RecordApart d i := by
  refine ⟨tableBlock_bounds hi, ?_, fun id hid => bblock_lt hid, ?_⟩
  · have hslot := slot_lt i
    simp only [sizeofInode, blockSize]
    omega
  · exact wp_mono (allocatesFirst d) fun a _ h => h.1

/-- The table is a map, on every disk. -/
theorem tableMap (d : Disk) {i : UInt32} (hi : i.toNat < inodeNum) (r : Inode) :
    PutsAsMap d i r ∧ RecordApart d i.toNat :=
  ⟨putsAsMap hi r, recordApart d hi⟩

end Map

/-- The last inode, on an empty disk. -/
theorem tableMap_last : PutsAsMap Disk.init 1023 (newInode 2 fun _ => 0) ∧ RecordApart Disk.init 1023 :=
  tableMap Disk.init (by decide) _

end InodeFs
