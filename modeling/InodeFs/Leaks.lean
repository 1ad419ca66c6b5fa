import InodeFs.Isolation

/-!
# No block is leaked

A write that leaves the indirect blocks forgets the data blocks behind them.  In a run without such
a write every marked block has an owner.
-/

namespace InodeFs

open BlockLayer InodeLayer FsServer Prog Disk

/-- Every data block that is marked in the bitmap is held by an inode in use. -/
def NoLeak (d : Disk) : Prop :=
  ∀ id, 123 ≤ id → id < blockNum → d.bit id = true → ∃ i, d.InUse i ∧ id ∈ heldBlocks d i

/-- A safe request that does not take a file from indirect blocks to direct ones, and finds a free
inode for a create. -/
def TidyStep (d : Disk) : Request → Prop
  | .create _ _ => ∃ i < 1024, ¬ d.InUse i
  | .put id buf => SafeStep d (.put id buf) ∧
      (Accepted buf → d.InUse (inumOf id) →
        ¬ (8 * blockSize < d.size (inumOf id) ∧ putSize buf ≤ 8 * blockSize))
  | q => SafeStep d q

theorem TidyStep.safe {d : Disk} {q : Request} (h : TidyStep d q) : SafeStep d q := by
  cases q with
  | create type time => trivial
  | put id buf => exact h.1
  | get id now => trivial
  | getattr id => trivial
  | remove id => exact h

/-! ## One request -/

section
variable {d e : Disk} {i s : Nat} {buf : Mem}

-- Each block handed out is the block of a pointer of the new file.
theorem exists_newPtr {ino : Inode} {k : Nat} (hk : k < allocsBefore ino (pointers s)) :
    ∃ p < pointers s, d.newPtr ino p = d.fresh ino k := by
  by_cases h8 : k < 8 ∨ chunks ino.size.toNat ≤ 8
  · have hp : k < pointers s := by
      unfold allocsBefore at hk
      split at hk <;> omega
    refine ⟨k, hp, ?_⟩
    have hkept : ¬ Kept ino k := fun hc => by have := hc.1; have := hc.2.1; omega
    rw [newPtr_of_not_kept hkept, allocsBefore_of_le (by omega)]
  · -- the entries of the old file come before those allocated now
    have hp : k - 8 + (chunks ino.size.toNat + 1) < pointers s := by
      unfold allocsBefore at hk
      split at hk <;> omega
    refine ⟨_, hp, ?_⟩
    have hkept : ¬ Kept ino (k - 8 + (chunks ino.size.toNat + 1)) := fun hc => by
      have := hc.2.2
      omega
    rw [newPtr_of_not_kept hkept, allocsBefore_of_lt (by omega) (by omega)]
    congr 1
    omega

-- A put that does not leave the indirect blocks leaks nothing.
theorem NoLeak.put (h : NoLeak d) (hput : PutSafe d i s) (hd : Sound d) (hin : d.InUse i)
    (he : Stored d (d.inode i) buf s e) (htidy : ¬ (8 < chunks (d.size i) ∧ chunks s ≤ 8)) :
    NoLeak (e.setInode i (d.written (d.inode i) s)) := by
  intro id hlo hhi hbit
  have hok := hput.writeOk hd hin
  have hsize := hok.size hin.1 e
  have hin' := (he.inUse_iff hin).mpr hin
  have hown : ∀ p < pointers s, ∃ j, (e.setInode i (d.written (d.inode i) s)).InUse j ∧
      d.newPtr (d.inode i) p ∈ heldBlocks (e.setInode i (d.written (d.inode i) s)) j := by
    intro p hp
    exact ⟨i, hin', mem_heldBlocks.mpr ⟨p, hsize.symm ▸ hp, he.ptr hok hin.1 hp⟩⟩
  have hused := mem_used.mpr ⟨hhi, hbit⟩
  rw [used_setInode, he.used, mem_taken] at hused
  obtain ⟨hrel | ⟨k, hk, rfl⟩, hdrop⟩ := hused
  · obtain ⟨hmem, hdirect⟩ := mem_released.mp hrel
    obtain ⟨j, hj, hheld⟩ := h id hlo hhi (mem_used.mp hmem).2
    obtain ⟨p, hp, rfl⟩ := mem_heldBlocks.mp hheld
    by_cases hji : j = i
    · subst hji
      -- what is left of the old file is behind its indirect block
      have h8 : 8 ≤ p := by
        by_contra hlt
        refine hdirect p (by omega) ?_
        rw [ptr_direct (by omega)]
      have hn0 : 8 < chunks (d.size j) := by
        by_contra hle
        rw [pointers_eq_of_le (by omega)] at hp
        omega
      rw [pointers_eq_of_lt hn0] at hp
      have hkept : Kept (d.inode j) p := ⟨h8, hn0, Nat.le_of_lt_succ hp⟩
      have hn : 8 < chunks s := by omega
      by_cases hps : p ≤ chunks s
      · have := hown p (by rw [pointers_eq_of_lt hn]; omega)
        rwa [newPtr_of_kept hkept] at this
      · exact absurd (.inr ⟨hn, p, by omega, Nat.le_of_lt_succ hp, rfl⟩) hdrop
    · have hint := hput.intact hd hin he hji hj
      refine ⟨j, hint.inUse.mpr hj, mem_heldBlocks.mpr ⟨p, ?_, hint.ptr hp⟩⟩
      rw [hint.size]
      exact hp
  · obtain ⟨p, hp, hfresh⟩ := exists_newPtr (d := d) hk
    rw [← hfresh]
    exact hown p hp

-- A safe remove leaks nothing.
theorem NoLeak.remove (h : NoLeak d) (hd : Sound d) (hin : d.InUse i)
    (he : d.Freed (d.RemoveFrees i) e) : NoLeak (e.setInode i (d.inode i).setTypeFree) := by
  intro id hlo hhi hbit
  have hused := mem_used.mpr ⟨hhi, hbit⟩
  rw [used_setInode, he.used] at hused
  obtain ⟨hmem, hkeep⟩ := hused
  obtain ⟨j, hj, hheld⟩ := h id hlo hhi (mem_used.mp hmem).2
  obtain ⟨p, hp, rfl⟩ := mem_heldBlocks.mp hheld
  by_cases hji : j = i
  · subst hji
    by_cases h8 : p < 8
    · refine absurd (.inl ⟨p, h8, ?_⟩) hkeep
      rw [ptr_direct (by omega)]
    · exact absurd (.inr ⟨p, by omega, hp, rfl⟩) hkeep
  · have hint := hd.intact_of_freed hin he hji hj
    refine ⟨j, hint.inUse.mpr hj, mem_heldBlocks.mpr ⟨p, ?_, hint.ptr hp⟩⟩
    rw [hint.size]
    exact hp

-- A change of a record that leaves every file in use its pointers leaks nothing.
theorem NoLeak.setInode (h : NoLeak d) {ino : Inode}
    (hheld : ∀ j id, d.InUse j → id ∈ heldBlocks d j →
      (d.setInode i ino).InUse j ∧ id ∈ heldBlocks (d.setInode i ino) j) :
    NoLeak (d.setInode i ino) := by
  intro id hlo hhi hbit
  have hused := mem_used.mpr ⟨hhi, hbit⟩
  rw [used_setInode] at hused
  obtain ⟨j, hj, hmem⟩ := h id hlo hhi (mem_used.mp hused).2
  exact ⟨j, hheld j id hj hmem⟩

end

/-- The step lemma. -/
theorem NoLeak.served {d e : Disk} {q : Request} {r : Reply} (h : NoLeak d) (hd : Sound d)
    (hq : TidyStep d q) (hserved : Served d q r e) : NoLeak e := by
  cases hserved with
  | put hacc hin he =>
    refine h.put (hq.1 hacc hin) hd hin he fun hc => hq.2 hacc hin ?_
    have h1 := lt_chunks_iff.mp hc.1
    have h2 := chunks_le_iff.mp hc.2
    simp only [blockSize]
    omega
  | removed hin he => exact h.remove hd hin he
  | created hi hfree hlow =>
    rename_i type time i
    refine h.setInode fun j id hj hid => ?_
    have hji : j ≠ i := fun heq => hfree (heq ▸ hj)
    have hint := intact_setInode hd hi (newInode type time) hji hj
    obtain ⟨p, hp, rfl⟩ := mem_heldBlocks.mp hid
    exact ⟨hint.inUse.mpr hj, mem_heldBlocks.mpr ⟨p, hint.size.symm ▸ hp, hint.ptr hp⟩⟩
  | createdFull hfull =>
    obtain ⟨i, hi, hfree⟩ := hq
    exact absurd (hfull i hi) hfree
  | get hin =>
    rename_i id now
    refine h.setInode fun j b hj hb => ?_
    by_cases hji : j = inumOf id
    · subst hji
      obtain ⟨p, hp, rfl⟩ := mem_heldBlocks.mp hb
      refine ⟨?_, mem_heldBlocks.mpr ⟨p, ?_, hd.ptr_setAtime hin now hp⟩⟩
      · rw [InUse, inode_setInode_self _ _ hin.1]
        exact hin
      · rw [size_setAtime hin.1]
        exact hp
    · have hint := intact_setInode hd hin.1 ((d.inode (inumOf id)).setAtime now) hji hj
      obtain ⟨p, hp, rfl⟩ := mem_heldBlocks.mp hb
      exact ⟨hint.inUse.mpr hj, mem_heldBlocks.mpr ⟨p, hint.size.symm ▸ hp, hint.ptr hp⟩⟩
  | putRefused _ => exact h
  | getAbsent _ => exact h
  | getattr _ => exact h
  | getattrAbsent _ => exact h
  | removeAbsent _ => exact h

theorem Fresh.noLeak {d : Disk} (h : Fresh d) : NoLeak d := by
  intro id _ hhi hbit
  have hused := mem_used.mpr ⟨hhi, hbit⟩
  rw [h.used] at hused
  exact absurd hused (Finset.notMem_empty id)

/-- In a tidy run every marked data block has an owner, and all of them are free when no inode is in
use. -/
theorem noLeak_of_tidy {d : Disk} (h : ReachableBy TidyStep d) :
    NoLeak d ∧ ((∀ i, ¬ d.InUse i) → ∀ id, 123 ≤ id → id < blockNum → d.bit id = false) := by
  have hleak : NoLeak d := (ReachableBy.invariant (fun _ _ hq => hq.safe) (fun _ hd => hd.noLeak)
    (fun _ _ _ _ hd hq hserved hI => hI.served hd hq hserved) h).2
  refine ⟨hleak, fun hempty id hlo hhi => ?_⟩
  by_contra hbit
  obtain ⟨i, hi, -⟩ := hleak id hlo hhi (Bool.not_eq_false _ ▸ hbit)
  exact hempty i hi

theorem noLeak_of_tidy_put : ∃ d, d.size 0 = 5000 ∧
    NoLeak d ∧ ((∀ i, ¬ d.InUse i) → ∀ id, 123 ≤ id → id < blockNum → d.bit id = false) := by
  have hfresh := fresh_madeAt 0
  have hlen : (List.replicate 5000 (1 : UInt8)).length = 5000 := List.length_replicate
  have hs : SizeOk (List.replicate 5000 (1 : UInt8)).length := by
    rw [hlen]
    exact ⟨by decide, by omega⟩
  have hput : TidyStep (madeAt 0) (.put 0 (List.replicate 5000 1)) := by
    refine ⟨hfresh.safeStep_put hs, fun _ _ => ?_⟩
    rw [show inumOf 0 = 0 from rfl, hfresh.size_zero]
    omega
  obtain ⟨e, he, -, hsize⟩ := hfresh.put_root (fun _ _ hq => hq.safe) hs hput
  exact ⟨e, hsize.trans hlen, noLeak_of_tidy he⟩

/-- The put of nothing over a file of 4608 bytes forgets the block of its ninth chunk. -/
theorem not_noLeak_of_roomy : ¬ ∀ d, RoomilyReachable d → NoLeak d := by
  intro h
  obtain ⟨d, hd, hp⟩ := exists_roomilyReachable
    [(.put 0 (List.replicate 4608 1), zeros), (.put 0 [], zeros)]
    (fun d => d.bit 132 && (List.range 1024).all fun i => !d.InUse i || d.size i == 0)
    (by decide +kernel) (by decide +kernel)
  rw [Bool.and_eq_true, List.all_eq_true] at hp
  obtain ⟨hbit, hsize⟩ := hp
  obtain ⟨i, hi, hheld⟩ := h d hd 132 (by omega) (by decide) hbit
  obtain ⟨p, hlt, -⟩ := mem_heldBlocks.mp hheld
  have hzero := hsize i (List.mem_range.mpr hi.1)
  simp only [hi, decide_true, Bool.not_true, Bool.false_or, beq_iff_eq] at hzero
  rw [hzero] at hlt
  exact absurd hlt (Nat.not_lt_zero p)

end InodeFs
