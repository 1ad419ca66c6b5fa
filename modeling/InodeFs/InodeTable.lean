import InodeFs.Bitmap
import InodeFs.InodeLayer

/-!
# The inode table

`Disk.inode` is the record of an inode and `Disk.setInode` a disk with one record replaced: the
table is a map from inode numbers to records, apart from the bitmap and from the data blocks.
-/

namespace InodeFs

open BlockLayer InodeLayer Prog

/-- The block of inode `i`: one of 9 to 122. -/
def tableBlock (i : Nat) : Nat := iblock i sb.nblocks

theorem tableBlock_eq (i : Nat) : tableBlock i = 9 + i / 9 := by
  simp only [tableBlock, iblock, sb, blockNum, bpb, ipb, blockSize, sizeofInode]
  omega

theorem tableBlock_bounds {i : Nat} (hi : i < 1024) : 9 ≤ tableBlock i ∧ tableBlock i ≤ 122 := by
  rw [tableBlock_eq]
  omega

theorem slot_lt (i : Nat) : i % ipb < 9 := Nat.mod_lt _ (by decide)

namespace Disk

/-- The record of inode `i`. -/
def inode (d : Disk) (i : Nat) : Inode := Inode.ofBlock (d.row (tableBlock i)) (i % ipb)

/-- The disk with the record of inode `i` replaced. -/
def setInode (d : Disk) (i : Nat) (ino : Inode) : Disk :=
  d.setRow (tableBlock i) (ino.intoBlock (i % ipb) (d.row (tableBlock i)))

/-- Inode `i` is in use. -/
def InUse (d : Disk) (i : Nat) : Prop := i < 1024 ∧ (d.inode i).type ≠ 0

instance (d : Disk) (i : Nat) : Decidable (d.InUse i) := inferInstanceAs (Decidable (_ ∧ _))

theorem eq_of_least_free {d : Disk} {i j : Nat} (hi : ¬ d.InUse i) (hlow : ∀ k < i, d.InUse k)
    (hj : ¬ d.InUse j) (hlow' : ∀ k < j, d.InUse k) : i = j := by
  rcases Nat.lt_trichotomy i j with hlt | heq | hgt
  · exact absurd (hlow' i hlt) hi
  · exact heq
  · exact absurd (hlow j hgt) hj

/-- The table maps a number to a record when the inode is in use. -/
def lookup (d : Disk) (i : Nat) : Option Inode := if d.InUse i then some (d.inode i) else none

theorem lookup_eq_some {d : Disk} {i : Nat} (h : d.InUse i) : d.lookup i = some (d.inode i) :=
  if_pos h

theorem lookup_eq_none {d : Disk} {i : Nat} (h : ¬ d.InUse i) : d.lookup i = none := if_neg h

@[simp] theorem inode_setInode_self (d : Disk) {i : Nat} (ino : Inode) (hi : i < 1024) :
    (d.setInode i ino).inode i = ino := by
  have hb := tableBlock_bounds hi
  rw [inode, setInode, row_setRow_self _ _ _ (by omega)]
  exact Inode.ofBlock_intoBlock ino _ _ (slot_lt i)

theorem inode_setInode_ne (d : Disk) {i j : Nat} (ino : Inode) (hij : j ≠ i) :
    (d.setInode i ino).inode j = d.inode j := by
  rw [inode, setInode, row_setRow, inode]
  split
  · rename_i h
    have hne : j % ipb ≠ i % ipb := by
      have h1 := h.1
      rw [tableBlock_eq, tableBlock_eq] at h1
      simp only [ipb, blockSize, sizeofInode]
      omega
    rw [h.1]
    exact Inode.ofBlock_intoBlock_ne ino _ _ _ (slot_lt j) hne
  · rfl

theorem inode_setInode (d : Disk) {i j : Nat} (ino : Inode) (hi : i < 1024) :
    (d.setInode i ino).inode j = if j = i then ino else d.inode j := by
  split
  · rename_i h
    rw [h, inode_setInode_self d ino hi]
  · rename_i h
    exact inode_setInode_ne d ino h

theorem inUse_setInode_ne (d : Disk) {i j : Nat} (ino : Inode) (hij : j ≠ i) :
    (d.setInode i ino).InUse j ↔ d.InUse j := by
  rw [InUse, InUse, inode_setInode_ne d ino hij]

-- The inodes are put into use in order.
theorem inUse_setInode_next {d : Disk} {n : Nat} {ino : Inode} (hin : ∀ i, d.InUse i ↔ i ≤ n)
    (hn : n + 1 < 1024) (hino : ino.type ≠ 0) (i : Nat) :
    (d.setInode (n + 1) ino).InUse i ↔ i ≤ n + 1 := by
  by_cases hi : i = n + 1
  · subst hi
    refine iff_of_true ⟨hn, ?_⟩ le_rfl
    rw [inode_setInode_self d ino hn]
    exact hino
  · rw [inUse_setInode_ne d ino hi, hin]
    omega

theorem row_setInode (d : Disk) {i r : Nat} (ino : Inode) (hr : r ≠ tableBlock i) :
    (d.setInode i ino).row r = d.row r := row_setRow_ne d _ hr

theorem row_setInode_data (d : Disk) {i r : Nat} (ino : Inode) (hi : i < 1024) (hr : 123 ≤ r) :
    (d.setInode i ino).row r = d.row r :=
  row_setInode d ino (by have := tableBlock_bounds hi; omega)

@[simp] theorem used_setInode (d : Disk) (i : Nat) (ino : Inode) :
    (d.setInode i ino).used = d.used :=
  used_setRow d _ _ (by rw [tableBlock_eq]; omega)

-- A record depends on its block of the table only.
theorem inode_congr {d e : Disk} {i : Nat} (h : d.row (tableBlock i) = e.row (tableBlock i)) :
    d.inode i = e.inode i := by rw [inode, inode, h]

end Disk

/-! ## The operations on the table -/

theorem toNat_iblock {i : Nat} (hi : i < 1024) :
    (UInt32.ofNat (iblock i sb.nblocks)).toNat = tableBlock i := by
  have h := tableBlock_bounds hi
  exact toNat_ofNat (by change tableBlock i < 32769; omega)

theorem wp_getInode (inum : UInt32) (Q : Option Inode → Disk → Prop) (d : Disk) :
    wp (getInode inum) Q d ↔ Q (d.lookup inum.toNat) d := by
  unfold getInode
  by_cases hi : inum.toNat ≥ inodeNum
  · rw [if_pos hi, pure_eq, wp_ret, Disk.lookup_eq_none fun h => absurd h.1 (Nat.not_lt.mpr hi)]
  · have hi' : inum.toNat < 1024 := Nat.not_le.mp hi
    have hb := toNat_iblock hi'
    have hlt := tableBlock_bounds hi'
    have hrow : (UInt32.ofNat (iblock inum.toNat sb.nblocks)).toNat < 32768 := by omega
    rw [if_neg hi]
    simp only [readBlock, wp_bind, wp_freshBlock, wp_readDisk _ _ _ _ hrow, forall_const, hb]
    have hrec : Inode.ofBlock (d.row (tableBlock inum.toNat)) (inum.toNat % ipb) =
        d.inode inum.toNat := rfl
    rw [hrec]
    by_cases ht : (d.inode inum.toNat).type = 0
    · rw [if_pos ht, pure_eq, wp_ret, Disk.lookup_eq_none fun h => h.2 ht]
    · rw [if_neg ht, pure_eq, wp_ret, Disk.lookup_eq_some ⟨hi', ht⟩]

theorem wp_putInode (inum : UInt32) (ino : Inode) (Q : Unit → Disk → Prop) (d : Disk)
    (hi : inum.toNat < 1024) :
    wp (putInode inum ino) Q d ↔ Q () (d.setInode inum.toNat ino) := by
  have hb := toNat_iblock hi
  have hlt := tableBlock_bounds hi
  have hrow : (UInt32.ofNat (iblock inum.toNat sb.nblocks)).toNat < 32768 := by omega
  rw [putInode, if_neg (Nat.not_le.mpr hi)]
  simp only [readBlock, writeBlock, wp_bind, wp_freshBlock, wp_readDisk _ _ _ _ hrow,
    wp_writeDisk _ _ _ _ _ hrow, forall_const, hb]
  rfl

/-- The scan of `alloc_inode` finds the least free inode; it answers 0 when there is none. -/
theorem wp_whereToAlloc (Q : Nat → Disk → Prop) (d : Disk) :
    wp (whereToAlloc inodeNum 0) Q d ↔
      (∀ i < 1024, ¬ d.InUse i → (∀ j < i, d.InUse j) → Q i d) ∧
      ((∀ i < 1024, d.InUse i) → Q 0 d) := by
  -- the scan has found every inode below `x` in use
  have scan : ∀ n x, x + n = 1024 → (∀ j < x, d.InUse j) →
      (wp (whereToAlloc n x) Q d ↔
        (∀ i < 1024, ¬ d.InUse i → (∀ j < i, d.InUse j) → Q i d) ∧
        ((∀ i < 1024, d.InUse i) → Q 0 d)) := by
    intro n
    induction n with
    | zero =>
      intro x hx hused
      have hall : ∀ i < 1024, d.InUse i := fun i hi => hused i (by omega)
      simp only [whereToAlloc, pure_eq, wp_ret]
      exact ⟨fun h => ⟨fun i hi hfree => absurd (hall i hi) hfree, fun _ => h⟩,
        fun h => h.2 hall⟩
    | succ n ih =>
      intro x hx hused
      have hx' : (UInt32.ofNat x).toNat = x := toNat_ofNat (by omega)
      simp only [whereToAlloc, wp_bind, wp_getInode, hx']
      by_cases hin : d.InUse x
      · rw [Disk.lookup_eq_some hin]
        apply ih (x + 1) (by omega)
        intro j hj
        rcases Nat.lt_succ_iff_lt_or_eq.mp hj with hlt | rfl
        · exact hused j hlt
        · exact hin
      · rw [Disk.lookup_eq_none hin]
        simp only [pure_eq, wp_ret]
        constructor
        · intro hQ
          refine ⟨fun i hi hfree hlow => ?_, fun hall => absurd (hall x (by omega)) hin⟩
          exact Disk.eq_of_least_free hfree hlow hin hused ▸ hQ
        · exact fun hQ => hQ.1 x (by omega) hin hused
  exact scan inodeNum 0 rfl fun j hj => absurd hj (Nat.not_lt_zero j)

/-- The record that `alloc_inode` stores. -/
def newInode (type : UInt32) (time : Nat → UInt32) : Inode :=
  { Inode.zero with
    atime := time 0, ctime := time 1, mtime := time 2, size := 0, type := type.toUInt16.toInt16 }

theorem wp_allocInode (type : UInt32) (time : Nat → UInt32) (Q : UInt32 → Disk → Prop) (d : Disk) :
    wp (allocInode type time) Q d ↔
      (∀ i < 1024, ¬ d.InUse i → (∀ j < i, d.InUse j) →
        Q (UInt32.ofNat i) (d.setInode i (newInode type time))) ∧
      ((∀ i < 1024, d.InUse i) → Q 0 (d.setInode 0 (newInode type time))) := by
  simp only [allocInode, wp_bind, wp_whereToAlloc]
  refine and_congr (forall₂_congr fun i hi => ?_) (forall_congr' fun _ => ?_)
  · have hi' : (UInt32.ofNat i).toNat = i := toNat_ofNat (by omega)
    simp only [wp_putInode _ _ _ _ (hi'.symm ▸ hi), hi', pure_eq, wp_ret]
    rfl
  · have h0 : (UInt32.ofNat 0).toNat < 1024 := by decide
    simp only [wp_putInode _ _ _ _ h0, pure_eq, wp_ret]
    rfl

end InodeFs
