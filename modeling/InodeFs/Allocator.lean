import InodeFs.Bitmap

/-!
# The block allocator, bit by bit

`alloc_block` sets the bit of the first data block that is free and touches no other bit of the disk;
`free_block` clears one bit.  The one undoes the other.
-/

namespace InodeFs

open BlockLayer Prog Disk

/-! ## One bit -/

/-- From `d` to `e` no bit of the disk changes but that of block `id`. -/
def OnlyBit (d : Disk) (id : Nat) (e : Disk) : Prop :=
  ∀ r < blockNum, ∀ i < blockSize, ∀ j < 8, ¬ (r = bblock id ∧ 8 * i + j = id % bpb) →
    bitOf ((e.row r).byte i) j = bitOf ((d.row r).byte i) j

/-- `alloc_block` answers the first data block whose bit is clear and sets that bit, or `-1` when all of
them are set. -/
def AllocatesFirst (d : Disk) : Prop :=
  wp allocBlock (fun a e => 123 ≤ a.toNat ∧
    (a = 0xffffffff ↔ ∀ id, 123 ≤ id → id < blockNum → d.bit id = true) ∧
    (a = 0xffffffff → e = d) ∧
    (a ≠ 0xffffffff → a.toNat < blockNum ∧ d.bit a.toNat = false ∧
      (∀ id, 123 ≤ id → id < a.toNat → d.bit id = true) ∧
      e.bit a.toNat = true ∧ OnlyBit d a.toNat e)) d

/-- `free_block` clears the bit of the block. -/
def ClearsBit (d : Disk) (id : UInt32) : Prop :=
  wp (freeBlock id) (fun _ e => e.bit id.toNat = false ∧ OnlyBit d id.toNat e) d

/-- `free_block` takes the block that `alloc_block` has answered, and the disk is as before. -/
def FreeRestores (d : Disk) : Prop :=
  wp allocBlock (fun a e => a ≠ 0xffffffff → wp (freeBlock a) (fun _ f => f = d) e) d

section Bits
variable {d : Disk} {id : Nat}

-- Block 0 holds no bit of the bitmap.
theorem onlyBit_setBitmapByte {v : UInt8}
    (h : ∀ x, bblock x < 32768 → x ≠ id → (d.setBitmapByte id v).bit x = d.bit x) :
    OnlyBit d id (d.setBitmapByte id v) := by
  intro r hr i hi j hj hno
  rcases Nat.eq_zero_or_pos r with rfl | hpos
  · rw [row_setBitmapByte_ne d id v (Nat.succ_ne_zero _).symm]
  · rw [← bit_bitNumber _ hpos hi hj, ← bit_bitNumber d hpos hi hj]
    refine h _ ?_ ?_
    · rwa [(bblock_bitNumber hpos hi hj).1]
    · rintro rfl
      refine hno ⟨(bblock_bitNumber hpos hi hj).1.symm, ?_⟩
      simp only [bitNumber, bpb, blockSize]
      simp only [blockSize] at hi
      omega

theorem onlyBit_markUsed (hfree : d.bit id = false) : OnlyBit d id (d.markUsed id) := by
  refine onlyBit_setBitmapByte fun x hx hne => ?_
  have hbit := bit_markUsed d id x hx hfree
  rwa [decide_eq_false hne, Bool.or_false] at hbit

theorem onlyBit_markFree : OnlyBit d id (d.markFree id) := by
  refine onlyBit_setBitmapByte fun x _ hne => ?_
  have hbit := bit_markFree d id x
  rwa [decide_eq_true hne, Bool.and_true] at hbit

theorem markFree_markUsed (hfree : d.bit id = false) :
    (d.markUsed id).markFree id = d := by
  refine ext_row fun r hr => ?_
  rcases Nat.eq_zero_or_pos r with rfl | hpos
  · rw [markFree, row_setBitmapByte_ne _ id _ (Nat.succ_ne_zero _).symm, markUsed,
      row_setBitmapByte_ne d id _ (Nat.succ_ne_zero _).symm]
  · refine row_eq_of_bit_eq hpos fun x hx => ?_
    rw [bit_markFree, bit_markUsed d id x (hx ▸ hr) hfree]
    by_cases hxi : x = id
    · rw [hxi, hfree, decide_eq_false (not_not_intro rfl), Bool.and_false]
    · rw [decide_eq_false hxi, decide_eq_true hxi, Bool.or_false, Bool.and_true]

-- The free data blocks, by their bits.
theorem freeIn_used_eq_empty_iff :
    freeIn d.used = ∅ ↔ ∀ id, 123 ≤ id → id < 32768 → d.bit id = true := by
  rw [Finset.eq_empty_iff_forall_notMem]
  refine forall_congr' fun id => ?_
  rw [mem_freeIn, mem_used, not_and, and_imp]
  refine imp_congr_right fun _ => imp_congr_right fun hlt => ?_
  rw [not_not, and_iff_right hlt]

theorem bit_eq_false_of_mem (hid : id ∈ freeIn d.used) : d.bit id = false := by
  obtain ⟨⟨-, hlt⟩, hno⟩ := mem_freeIn.mp hid
  exact Bool.eq_false_iff.mpr fun hset => hno (mem_used.mpr ⟨hlt, hset⟩)

end Bits

/-! ## The allocator -/

theorem allocatesFirst (d : Disk) : AllocatesFirst d := by
  refine (wp_allocBlock _ d).mpr ⟨fun id hid hleast => ?_, fun hnone => ?_⟩
  · obtain ⟨⟨hlo, hhi⟩, -⟩ := mem_freeIn.mp hid
    have hfree := bit_eq_false_of_mem hid
    have htoNat : (UInt32.ofNat id).toNat = id := toNat_ofNat (by omega)
    have hne : UInt32.ofNat id ≠ 0xffffffff := fun h => by
      have h' := congrArg UInt32.toNat h
      rw [htoNat] at h'
      exact absurd hhi (h' ▸ by decide)
    have hset : (d.markUsed id).bit id = true := by
      have hrow := bblock_lt hhi
      rw [bit_markUsed d id id (by omega) hfree, decide_eq_true rfl, Bool.or_true]
    have hbelow : ∀ x, 123 ≤ x → x < id → d.bit x = true := fun x hx hxid => by
      by_contra hclear
      have hx' : x ∈ freeIn d.used :=
        mem_freeIn.mpr ⟨⟨hx, by omega⟩, fun hmem => hclear (mem_used.mp hmem).2⟩
      exact Nat.not_lt.mpr (hleast x hx') hxid
    rw [htoNat]
    refine ⟨hlo, iff_of_false hne fun hall => ?_, fun h => absurd h hne,
      fun _ => ⟨hhi, hfree, hbelow, hset, onlyBit_markUsed hfree⟩⟩
    cases hfree.symm.trans (hall id hlo hhi)
  · have hall := freeIn_used_eq_empty_iff.mp hnone
    exact ⟨by decide, iff_of_true rfl hall, fun _ => rfl, fun h => absurd rfl h⟩

theorem clearsBit (d : Disk) (id : UInt32) : ClearsBit d id := by
  refine (wp_freeBlock id _ d).mpr ⟨?_, onlyBit_markFree⟩
  rw [bit_markFree, decide_eq_false (not_not_intro rfl), Bool.and_false]

theorem freeRestores (d : Disk) : FreeRestores d := by
  refine (wp_allocBlock _ d).mpr ⟨fun id hid _ _ => ?_, fun _ h => absurd rfl h⟩
  obtain ⟨⟨-, hhi⟩, -⟩ := mem_freeIn.mp hid
  rw [wp_freeBlock, toNat_ofNat (by omega)]
  exact markFree_markUsed (bit_eq_false_of_mem hid)

/-- The allocator on any disk; `free_block` may be called with any id, also with none of a block. -/
theorem allocator (d : Disk) : AllocatesFirst d ∧ (∀ id, ClearsBit d id) ∧ FreeRestores d :=
  ⟨allocatesFirst d, clearsBit d, freeRestores d⟩

end InodeFs
