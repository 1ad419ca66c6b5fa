import InodeFs.Layout

/-!
# What `remove_file` frees

It frees the eight direct slots, the entries that the size covers and one more where the size fills
the last of them, and the indirect block; then it marks the inode free.
-/

namespace InodeFs

open BlockLayer InodeLayer Prog

/-- The blocks that `remove_file` frees: what the direct slots name, and the file's own blocks. -/
def Disk.RemoveFrees (d : Disk) (i id : Nat) : Prop :=
  (∃ k < 8, id = ((d.inode i).block k).toNat) ∨
  (∃ p, 8 ≤ p ∧ p < pointers (d.size i) ∧ id = d.ptr i p)

-- The inode is marked free by a read-modify-write of its own.
theorem wp_freeInode {d : Disk} {inum : UInt32} {Q : Unit → Disk → Prop}
    (hin : d.InUse inum.toNat) :
    wp (freeInode inum) Q d ↔
      Q () (d.setInode inum.toNat (d.inode inum.toNat).setTypeFree) := by
  simp only [freeInode, wp_bind, wp_getInode, Disk.lookup_eq_some hin, wp_putInode _ _ _ _ hin.1]

-- The number of entries that `remove_file` frees is right unless the last chunk is full.
theorem numIndirectBlocks_eq {s : Nat} (hs : 4096 < s) (hmod : s % 512 ≠ 0) :
    (((s : Int) - 8 * blockSize).tdiv blockSize + 1).toNat = chunks s - 8 := by
  have hsub : (s : Int) - 8 * blockSize = (s - 4096 : Nat) := by simp only [blockSize]; omega
  rw [hsub, Int.tdiv_eq_ediv_of_nonneg (Int.natCast_nonneg _)]
  simp only [blockSize, chunks]
  omega

section Frees
variable {d : Disk} {i id : Nat}

theorem removeFrees_iff_of_direct (h : pointers (d.size i) ≤ 8) :
    d.RemoveFrees i id ↔ ∃ k < 8, id = ((d.inode i).block k).toNat :=
  or_iff_left fun ⟨_, hp8, hp, _⟩ => by omega

theorem removeFrees_iff_of_indirect (h : 8 < chunks (d.size i)) :
    d.RemoveFrees i id ↔ ((∃ k < 8, id = ((d.inode i).block k).toNat) ∨
      ∃ x < chunks (d.size i) - 8, id = ((d.row ((d.inode i).block 8).toNat).word x).toNat) ∨
      id = ((d.inode i).block 8).toNat := by
  have hpc : pointers (d.size i) = chunks (d.size i) + 1 := ptrCount_of_lt h
  rw [Disk.RemoveFrees, or_assoc]
  refine or_congr_right ⟨?_, ?_⟩
  · rintro ⟨p, hp8, hp, rfl⟩
    rcases Nat.eq_or_lt_of_le hp8 with rfl | hgt
    · exact .inr (Disk.ptr_direct le_rfl)
    · exact .inl ⟨p - 9, by omega, Disk.ptr_entry hgt⟩
  · rintro (⟨x, hx, rfl⟩ | rfl)
    · refine ⟨x + 9, by omega, by omega, ?_⟩
      rw [Disk.ptr_entry (by omega), Nat.add_sub_cancel]
    · exact ⟨8, le_rfl, by omega, (Disk.ptr_direct le_rfl).symm⟩

end Frees

-- The loop over the entries of the indirect block.
theorem wp_freeEntryLoop {d : Disk} {b : Block} {n : Nat} {Q : Unit → Disk → Prop} (hn : n ≤ 128)
    (hlt : ∀ x < n, (b.word x).toNat < 32768)
    (hQ : ∀ e, d.Freed (fun id => ∃ x, 0 ≤ x ∧ x < 0 + n ∧ id = (b.word x).toNat) e → Q () e) :
    wp (forLoop (fun x => entry b x >>= freeBlock) 0 n) Q d := by
  refine wp_freeLoop b.word (fun x _ hx => hlt x (by omega)) (fun x _ hx R e h => ?_) hQ
  rw [wp_bind, wp_entry _ _ _ _ (by omega)]
  exact h

theorem wp_removeFile {d : Disk} {inum : UInt32} {Q : Unit → Disk → Prop}
    (hin : d.InUse inum.toNat) (hs : d.size inum.toNat ≤ 69632)
    (hasc : Ascending (d.inode inum.toNat))
    (hregion : ∀ p < pointers (d.size inum.toNat),
      123 ≤ d.ptr inum.toNat p ∧ d.ptr inum.toNat p < 32768)
    (hmod : 4096 < d.size inum.toNat → d.size inum.toNat % 512 ≠ 0)
    (hQ : ∀ e, d.Freed (d.RemoveFrees inum.toNat) e →
      Q () (e.setInode inum.toNat (d.inode inum.toNat).setTypeFree)) :
    wp (removeFile inum) Q d := by
  set i := inum.toNat with hi
  set ino := d.inode i with hino
  have hlt : ∀ k < 9, (ino.block k).toNat < 32768 := fun k hk => hasc.lt hk
  have hold : asInt ino.size = (d.size i : Int) := asInt_of_lt (by change d.size i < _; omega)
  -- the record is where it was when the blocks are free
  have hfree : ∀ e, d.Freed (d.RemoveFrees i) e → wp (freeInode inum) Q e := by
    intro e he
    have hrec : e.inode i = ino :=
      Disk.inode_congr (he.rows _ (tableBlock_bounds hin.1).1)
    have hin' : e.InUse i := ⟨hin.1, by rw [hrec]; exact hin.2⟩
    rw [wp_freeInode hin', ← hi, hrec]
    exact hQ e he
  simp only [removeFile, wp_bind, wp_getInode, Disk.lookup_eq_some hin, ← hi, ← hino, hold]
  refine wp_freeLoop ino.block (fun x _ hx => hlt x (by omega)) (fun x _ _ R e h => h)
    fun e he => ?_
  by_cases hbig : 4096 < d.size i
  · have h8 : 8 < chunks (d.size i) := lt_chunks_iff.mpr (by omega)
    have hpc : pointers (d.size i) = chunks (d.size i) + 1 := ptrCount_of_lt h8
    have hn136 : chunks (d.size i) ≤ 136 := chunks_le_iff.mpr (by omega)
    have h8reg : 123 ≤ (ino.block 8).toNat ∧ (ino.block 8).toNat < 32768 := by
      have := hregion 8 (by omega)
      rwa [Disk.ptr_direct le_rfl] at this
    have hcur : (d.size i : Int) - 8 * blockSize > 0 := by simp only [blockSize]; omega
    have hword : ∀ x < chunks (d.size i) - 8,
        ((d.row (ino.block 8).toNat).word x).toNat < 32768 := by
      intro x hx
      have hreg := hregion (x + 9) (by omega)
      rw [Disk.ptr_entry (by omega), Nat.add_sub_cancel] at hreg
      exact hreg.2
    rw [if_pos hcur]
    simp only [wp_bind, wp_freshBlock, readBlock, wp_readDisk _ _ _ _ h8reg.2, forall_const,
      he.rows _ (show 9 ≤ (ino.block 8).toNat by omega), numIndirectBlocks_eq hbig (hmod hbig)]
    refine wp_freeEntryLoop (by omega) hword fun f hf => ?_
    rw [wp_freeBlock]
    refine hfree _ ((he.trans hf fun _ => Iff.rfl).markFree h8reg.2 fun id => ?_)
    rw [removeFrees_iff_of_indirect h8]
    simp only [Nat.zero_le, true_and, Nat.zero_add]
    rfl
  · have hpc : pointers (d.size i) ≤ 8 := by
      have := chunks_le_iff (s := d.size i) (n := 8)
      unfold pointers ptrCount
      split <;> omega
    have hcur : ¬ (d.size i : Int) - 8 * blockSize > 0 := by simp only [blockSize]; omega
    rw [if_neg hcur]
    refine hfree e ⟨fun id => ?_, he.rows⟩
    rw [he.used, removeFrees_iff_of_direct hpc]
    simp only [Nat.zero_le, true_and, Nat.zero_add]
    rfl

-- Removing an inode that is not in use does nothing.
theorem wp_removeFile_refused {d : Disk} {inum : UInt32} {Q : Unit → Disk → Prop}
    (h : ¬ d.InUse inum.toNat) : wp (removeFile inum) Q d ↔ Q () d := by
  simp only [removeFile, wp_bind, wp_getInode, Disk.lookup_eq_none h, pure_eq, wp_ret]

end InodeFs
