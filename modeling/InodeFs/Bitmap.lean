import InodeFs.BlockLayer
import Mathlib.Algebra.Order.Group.Nat
import Mathlib.Order.Interval.Finset.Nat

/-!
# What the block allocator does to the bitmap

The bitmap of a disk is a set of block numbers, `Disk.used`; `alloc_block` inserts the least data
block that is not in it and `free_block` erases one block from it.
-/

namespace InodeFs

open BlockLayer Prog

/-! ## Bits of a byte -/

/-- Bit `k` of a byte. -/
def bitOf (b : UInt8) (k : Nat) : Bool := b.toBitVec.getLsbD k

theorem bitOf_charBit (k j : Nat) (hk : k < 8) (hj : j < 8) :
    bitOf (charBit k) j = decide (j = k) := by
  have h : ∀ k < 8, ∀ j < 8, bitOf (charBit k) j = decide (j = k) := by decide
  exact h k hk j hj

theorem bitOf_xor (a b : UInt8) (j : Nat) : bitOf (a ^^^ b) j = (bitOf a j ^^ bitOf b j) := by
  rw [bitOf, UInt8.toBitVec_xor, BitVec.getLsbD_xor]; rfl

theorem bitOf_and (a b : UInt8) (j : Nat) : bitOf (a &&& b) j = (bitOf a j && bitOf b j) := by
  rw [bitOf, UInt8.toBitVec_and, BitVec.getLsbD_and]; rfl

theorem bitOf_not (a : UInt8) (j : Nat) (hj : j < 8) : bitOf (~~~a) j = !bitOf a j := by
  rw [bitOf, UInt8.toBitVec_not, BitVec.getLsbD_not, decide_eq_true hj, Bool.true_and]; rfl

theorem ext_bitOf {a b : UInt8} (h : ∀ j < 8, bitOf a j = bitOf b j) : a = b := by
  apply UInt8.toBitVec_inj.mp
  exact BitVec.eq_of_getLsbD_eq fun i hi => h i hi

theorem bitOf_zero (j : Nat) : bitOf 0 j = false := by
  rw [bitOf, UInt8.toBitVec_zero, BitVec.getLsbD_zero]

theorem eq_zero_of_bitOf {b : UInt8} (h : ∀ j < 8, bitOf b j ≠ true) : b = 0 := by
  refine ext_bitOf fun j hj => ?_
  rw [bitOf_zero, Bool.eq_false_iff.mpr (h j hj)]

-- The test of `alloc_block`.
theorem and_charBit_ne_zero (b : UInt8) (k : Nat) (hk : k < 8) :
    b &&& charBit k ≠ 0 ↔ bitOf b k = true := by
  constructor
  · intro hne
    by_contra hb
    apply hne
    apply ext_bitOf
    intro j hj
    rw [bitOf_and, bitOf_charBit k j hk hj]
    by_cases hjk : j = k
    · subst hjk
      rw [Bool.not_eq_true] at hb
      rw [hb, Bool.false_and, bitOf_zero]
    · rw [decide_eq_false hjk, Bool.and_false, bitOf_zero]
  · intro hb hz
    have h := congrArg (fun v => bitOf v k) hz
    simp only [bitOf_and, hb, bitOf_charBit k k hk hk, decide_true, Bool.and_true] at h
    rw [bitOf_zero] at h
    cases h

/-! ## Bits of the disk -/

namespace Disk

/-- The byte of the bitmap that holds the bit of block `id`. -/
def bitmapByte (d : Disk) (id : Nat) : UInt8 := (d.row (bblock id)).byte (id % bpb / 8)

/-- The bit of block `id`. -/
def bit (d : Disk) (id : Nat) : Bool := bitOf (d.bitmapByte id) (id % bpb % 8)

/-- The disk with the byte that holds the bit of block `id` replaced. -/
def setBitmapByte (d : Disk) (id : Nat) (v : UInt8) : Disk :=
  d.setRow (bblock id) ((d.row (bblock id)).setByte (id % bpb / 8) v)

/-- `*byte ^= (char) 1 << bit_offset_in_byte` -/
def markUsed (d : Disk) (id : Nat) : Disk :=
  d.setBitmapByte id (d.bitmapByte id ^^^ charBit (id % bpb % 8))

/-- `*byte &= ~((char) 1 << bit_offset_in_byte)` -/
def markFree (d : Disk) (id : Nat) : Disk :=
  d.setBitmapByte id (d.bitmapByte id &&& ~~~charBit (id % bpb % 8))

theorem bblock_lt {id : Nat} (h : id < 32768) : 1 ≤ bblock id ∧ bblock id ≤ 8 := by
  simp only [bblock, bpb, blockSize]
  omega

theorem row_setBitmapByte_ne (d : Disk) (id : Nat) (v : UInt8) {r : Nat} (h : r ≠ bblock id) :
    (d.setBitmapByte id v).row r = d.row r := row_setRow_ne d _ h

-- A byte of the bitmap is replaced for the eight blocks that share it.  An id that is no block's stands
-- in the same way for a bit of a later row.
theorem bitmapByte_setBitmapByte (d : Disk) (id x : Nat) (v : UInt8) (hx : bblock x < 32768) :
    (d.setBitmapByte id v).bitmapByte x = if x / 8 = id / 8 then v else d.bitmapByte x := by
  have hdef : ∀ y, bblock y = y / 4096 + 1 := fun _ => rfl
  rw [bitmapByte, setBitmapByte, row_setRow]
  by_cases hrow : bblock x = bblock id
  · rw [if_pos ⟨hrow, hx⟩, Block.byte_setByte _ _ _ _ (by simp only [bpb, blockSize]; omega)]
    rw [hdef, hdef] at hrow
    by_cases hby : x / 8 = id / 8
    · rw [if_pos (by simp only [bpb, blockSize]; omega), if_pos hby]
    · rw [if_neg (by simp only [bpb, blockSize]; omega), if_neg hby, bitmapByte, hdef x, hdef id,
        hrow]
  · rw [if_neg fun h => hrow h.1]
    rw [hdef, hdef] at hrow
    rw [if_neg (by omega), bitmapByte]

theorem bit_setBitmapByte (d : Disk) (id x : Nat) (v : UInt8) (hx : bblock x < 32768) :
    (d.setBitmapByte id v).bit x = if x / 8 = id / 8 then bitOf v (x % bpb % 8) else d.bit x := by
  rw [bit, bitmapByte_setBitmapByte d id x v hx]
  split <;> rfl

-- Past the last row there are no bits.
theorem bit_of_ge (d : Disk) {x : Nat} (hx : 32768 ≤ bblock x) : d.bit x = false := by
  have hzero : ∀ i, Block.byte (fun _ => 0) i = 0 := fun i => by
    unfold Block.byte
    split <;> rfl
  rw [bit, bitmapByte, row_of_ge d hx, hzero, bitOf_zero]

theorem bit_markFree (d : Disk) (id x : Nat) :
    (d.markFree id).bit x = (d.bit x && decide (x ≠ id)) := by
  by_cases hx : 32768 ≤ bblock x
  · rw [bit_of_ge _ hx, bit_of_ge _ hx, Bool.false_and]
  rw [markFree, bit_setBitmapByte d id x _ (Nat.not_le.mp hx)]
  simp only [bpb, blockSize]
  split
  · rename_i hby
    rw [bitOf_and, bitOf_not _ _ (by omega), bitOf_charBit _ _ (by omega) (by omega)]
    have hsame : d.bitmapByte id = d.bitmapByte x := by
      simp only [bitmapByte, bblock, bpb, blockSize]
      rw [show id / (512 * 8) = x / (512 * 8) by omega,
        show id % (512 * 8) / 8 = x % (512 * 8) / 8 by omega]
    rw [hsame]
    simp only [bit, bpb, blockSize, ne_eq, decide_not]
    congr 3
    exact propext (by omega)
  · rename_i hby
    rw [decide_eq_true (by rintro rfl; exact hby rfl), Bool.and_true]

theorem bit_markUsed (d : Disk) (id x : Nat) (hx : bblock x < 32768)
    (hfree : d.bit id = false) : (d.markUsed id).bit x = (d.bit x || decide (x = id)) := by
  rw [markUsed, bit_setBitmapByte d id x _ hx]
  by_cases hxi : x = id
  · subst hxi
    rw [bit] at hfree
    rw [if_pos rfl, bitOf_xor, bitOf_charBit _ _ (by omega) (by omega), hfree, decide_eq_true rfl,
      decide_eq_true rfl, Bool.or_true]
    rfl
  · rw [decide_eq_false hxi, Bool.or_false]
    simp only [bpb, blockSize]
    split
    · rename_i hby
      rw [bitOf_xor, bitOf_charBit _ _ (by omega) (by omega),
        decide_eq_false (by omega), Bool.xor_false]
      simp only [bit, bitmapByte, bblock, bpb, blockSize]
      rw [show id / (512 * 8) = x / (512 * 8) by omega,
        show id % (512 * 8) / 8 = x % (512 * 8) / 8 by omega]
    · rfl

/-! ## The bitmap as a set -/

/-- The blocks whose bit is set. -/
def used (d : Disk) : Finset Nat := (Finset.range 32768).filter fun id => d.bit id = true

/-- The data blocks that `used` leaves. -/
def freeIn (used : Finset Nat) : Finset Nat := Finset.Ico 123 32768 \ used

theorem mem_used {d : Disk} {id : Nat} : id ∈ d.used ↔ id < 32768 ∧ d.bit id = true := by
  rw [used, Finset.mem_filter, Finset.mem_range]

theorem mem_freeIn {U : Finset Nat} {id : Nat} :
    id ∈ freeIn U ↔ (123 ≤ id ∧ id < 32768) ∧ id ∉ U := by
  rw [freeIn, Finset.mem_sdiff, Finset.mem_Ico]

theorem used_markFree (d : Disk) (id : Nat) :
    (d.markFree id).used = d.used.erase id := by
  ext x
  rw [mem_used, Finset.mem_erase, mem_used]
  constructor
  · rintro ⟨hx, hb⟩
    rw [bit_markFree, Bool.and_eq_true, decide_eq_true_eq] at hb
    exact ⟨hb.2, hx, hb.1⟩
  · rintro ⟨hne, hx, hb⟩
    exact ⟨hx, by rw [bit_markFree, hb, decide_eq_true hne]; rfl⟩

theorem used_markUsed (d : Disk) (id : Nat) (hid : id < 32768) (hfree : id ∉ d.used) :
    (d.markUsed id).used = insert id d.used := by
  have hbit : d.bit id = false := by
    rw [← Bool.not_eq_true]
    exact fun h => hfree (mem_used.mpr ⟨hid, h⟩)
  have hrow : ∀ x < 32768, bblock x < 32768 := fun x hx => by
    have := bblock_lt hx
    omega
  ext x
  rw [mem_used, Finset.mem_insert, mem_used]
  constructor
  · rintro ⟨hx, hb⟩
    rw [bit_markUsed d id x (hrow x hx) hbit, Bool.or_eq_true, decide_eq_true_eq] at hb
    exact hb.elim (fun h => .inr ⟨hx, h⟩) .inl
  · rintro (rfl | ⟨hx, hb⟩)
    · exact ⟨hid, by rw [bit_markUsed d x x (hrow x hid) hbit, decide_eq_true rfl, Bool.or_true]⟩
    · exact ⟨hx, by rw [bit_markUsed d id x (hrow x hx) hbit, hb, Bool.true_or]⟩

-- The bitmap reads blocks 1 to 8 only.
theorem used_congr {d e : Disk} (h : ∀ r, 1 ≤ r → r ≤ 8 → d.row r = e.row r) :
    d.used = e.used := by
  ext x
  rw [mem_used, mem_used]
  refine and_congr_right fun hx => ?_
  have hb := bblock_lt hx
  rw [bit, bit, bitmapByte, bitmapByte, h _ hb.1 hb.2]

/-- Bit `j` of byte `i` of block `r`, as the bit of a block number. -/
def bitNumber (r i j : Nat) : Nat := (r - 1) * 4096 + i * 8 + j

theorem bblock_bitNumber {r i j : Nat} (hr : 1 ≤ r) (hi : i < 512) (hj : j < 8) :
    bblock (bitNumber r i j) = r ∧ bitNumber r i j % bpb / 8 = i := by
  simp only [bitNumber, bblock, bpb, blockSize]
  omega

theorem bit_bitNumber (d : Disk) {r i j : Nat} (hr : 1 ≤ r) (hi : i < 512) (hj : j < 8) :
    d.bit (bitNumber r i j) = bitOf ((d.row r).byte i) j := by
  obtain ⟨hrow, hbyte⟩ := bblock_bitNumber hr hi hj
  have hbit : bitNumber r i j % bpb % 8 = j := by
    simp only [bitNumber, bpb, blockSize]
    omega
  rw [bit, bitmapByte, hrow, hbyte, hbit]

-- The bits of a byte determine it.
theorem byte_eq_of_bit_eq {d e : Disk} {r i : Nat} (hr : 1 ≤ r) (hi : i < 512)
    (h : ∀ x, bblock x = r → x % bpb / 8 = i → d.bit x = e.bit x) :
    (d.row r).byte i = (e.row r).byte i := by
  apply ext_bitOf
  intro j hj
  obtain ⟨hrow, hbyte⟩ := bblock_bitNumber hr hi hj
  rw [← bit_bitNumber d hr hi hj, ← bit_bitNumber e hr hi hj]
  exact h _ hrow hbyte

theorem row_eq_of_bit_eq {d e : Disk} {r : Nat} (hr : 1 ≤ r)
    (h : ∀ x, bblock x = r → d.bit x = e.bit x) : d.row r = e.row r :=
  Block.ext_byte fun _ hi => byte_eq_of_bit_eq hr hi fun x hx _ => h x hx

-- The bitmap determines blocks 1 to 8.
theorem row_eq_of_used_eq {d e : Disk} (h : d.used = e.used) {r : Nat} (hr : 1 ≤ r)
    (hr' : r ≤ 8) : d.row r = e.row r := by
  refine row_eq_of_bit_eq hr fun x hx => ?_
  have hlt : x < 32768 := by
    simp only [bblock, bpb, blockSize] at hx
    omega
  have hm := Finset.ext_iff.mp h x
  rw [mem_used, mem_used] at hm
  rw [Bool.eq_iff_iff]
  simpa only [hlt, true_and] using hm

@[simp] theorem used_setRow (d : Disk) (r : Nat) (b : Block) (hr : 9 ≤ r) :
    (d.setRow r b).used = d.used :=
  used_congr fun _ _ _ => row_setRow_ne d b (by omega)

theorem row_setBitmapByte (d : Disk) {id r : Nat} (v : UInt8) (hid : id < 32768)
    (hr : 9 ≤ r) : (d.setBitmapByte id v).row r = d.row r :=
  row_setBitmapByte_ne d id v (by have := bblock_lt hid; omega)

theorem row_markFree (d : Disk) {id r : Nat} (hid : id < 32768) (hr : 9 ≤ r) :
    (d.markFree id).row r = d.row r := row_setBitmapByte d _ hid hr

theorem row_markUsed (d : Disk) {id r : Nat} (hid : id < 32768) (hr : 9 ≤ r) :
    (d.markUsed id).row r = d.row r := row_setBitmapByte d _ hid hr

/-- The disk with the bits of all these ids cleared. -/
def markAll (d : Disk) (ids : List Nat) : Disk := ids.foldl markFree d

theorem markAll_singleton (d : Disk) (id : Nat) : d.markAll [id] = d.markFree id := rfl

theorem markAll_append (d : Disk) (ids ids' : List Nat) :
    d.markAll (ids ++ ids') = (d.markAll ids).markAll ids' := List.foldl_append ..

theorem bit_markAll (d : Disk) (ids : List Nat) (x : Nat) :
    (d.markAll ids).bit x = (d.bit x && decide (x ∉ ids)) := by
  induction ids generalizing d with
  | nil => rw [markAll, List.foldl_nil, decide_eq_true List.not_mem_nil, Bool.and_true]
  | cons id ids ih =>
    rw [markAll, List.foldl_cons, ← markAll, ih, bit_markFree, Bool.and_assoc, ← Bool.decide_and]
    congr 2
    rw [List.mem_cons, not_or]

theorem row_markAll (d : Disk) {ids : List Nat} (hids : ∀ id ∈ ids, id < 32768) {r : Nat}
    (hr : 9 ≤ r) : (d.markAll ids).row r = d.row r := by
  refine row_eq_of_bit_eq (by omega) fun x hx => ?_
  have hno : x ∉ ids := fun hmem => by
    have := bblock_lt (hids x hmem)
    omega
  rw [bit_markAll, decide_eq_true hno, Bool.and_true]

/-- From `d` to `e`, the blocks in `P` are freed and nothing else happens. -/
structure Freed (d : Disk) (P : Nat → Prop) (e : Disk) : Prop where
  used : ∀ id, id ∈ e.used ↔ id ∈ d.used ∧ ¬ P id
  rows : ∀ r, 9 ≤ r → e.row r = d.row r

namespace Freed

variable {d e : Disk} {P R : Nat → Prop}

theorem refl (hP : ∀ id, ¬ P id) : Freed d P d :=
  ⟨fun id => ⟨fun h => ⟨h, hP id⟩, And.left⟩, fun _ _ => rfl⟩

theorem trans {f : Disk} {T : Nat → Prop} (h : Freed d P e) (h' : Freed e R f)
    (hT : ∀ x, T x ↔ P x ∨ R x) : Freed d T f := by
  constructor
  · intro x
    rw [h'.used, h.used, hT, not_or, and_assoc]
  · intro r hr
    rw [h'.rows r hr, h.rows r hr]

theorem markFree (h : Freed d P e) {id : Nat} (hid : id < 32768)
    (hR : ∀ x, R x ↔ P x ∨ x = id) : Freed d R (e.markFree id) := by
  constructor
  · intro x
    rw [used_markFree, Finset.mem_erase, h.used, hR, not_or]
    exact ⟨fun hx => ⟨hx.2.1, hx.2.2, hx.1⟩, fun hx => ⟨hx.2.2, hx.1, hx.2.1⟩⟩
  · intro r hr
    rw [row_markFree e hid hr, h.rows r hr]

end Freed

end Disk

/-! ## The allocator -/

theorem toNat_ofNat {n : Nat} (h : n < 32769) : (UInt32.ofNat n).toNat = n :=
  UInt32.toNat_ofNat_of_lt' (by simp only [UInt32.size]; omega)

theorem toNat_bblock {id : Nat} (hid : id < 32768) :
    (UInt32.ofNat (bblock id)).toNat = bblock id := by
  have h := Disk.bblock_lt hid
  exact toNat_ofNat (by omega)

/-- `free_block` clears the bit of any id at all; the bit of one that is no block's lies in a later row,
or nowhere. -/
theorem wp_freeBlock (id : UInt32) (Q : Unit → Disk → Prop) (d : Disk) :
    wp (freeBlock id) Q d ↔ Q () (d.markFree id.toNat) := by
  have hid := id.toNat_lt
  have hb : (UInt32.ofNat (bblock id.toNat)).toNat = bblock id.toNat := by
    refine UInt32.toNat_ofNat_of_lt' ?_
    simp only [bblock, bpb, blockSize, UInt32.size]
    omega
  simp only [freeBlock, wp_bind, wp_lock, wp_freshBlock]
  by_cases hrow : (UInt32.ofNat (bblock id.toNat)).toNat < 32768
  · simp only [wp_readDisk _ _ _ _ hrow, wp_writeDisk _ _ _ _ _ hrow, wp_unlock, forall_const, hb]
    rfl
  · have hge := Nat.not_lt.mp hrow
    have hsame : d.markFree id.toNat = d := Disk.setRow_of_ge d _ (by rwa [hb] at hge)
    simp only [wp_writeDisk_of_ge _ _ _ _ hge, wp_unlock, wp_readDisk_const _ _ (Q ()),
      forall_const, hsame]

-- The disk after a counting loop that clears the bits of `id i, …, id (i + n - 1)`.
theorem wp_forLoop_markFree {id : Nat → Nat} {body : Nat → FsM Unit} {i n : Nat}
    {Q : Unit → Disk → Prop} {d : Disk} (hbody : ∀ x, i ≤ x → x < i + n →
      ∀ (R : Unit → Disk → Prop) (e : Disk), wp (body x) R e ↔ R () (e.markFree (id x))) :
    wp (forLoop body i n) Q d ↔ Q () (d.markAll ((List.range' i n).map id)) := by
  induction n generalizing i d with
  | zero => rfl
  | succ n ih =>
    rw [forLoop, wp_bind, hbody i le_rfl (by omega), ih fun x hx hlt => hbody x (by omega) (by omega)]
    rfl

-- A counting loop that frees the blocks `id i, …, id (i + n - 1)`.
theorem wp_freeLoop (id : Nat → UInt32) {body : Nat → FsM Unit} {i n : Nat} {d : Disk}
    {Q : Unit → Disk → Prop} (hlt : ∀ x, i ≤ x → x < i + n → (id x).toNat < 32768)
    (hbody : ∀ x, i ≤ x → x < i + n → ∀ (R : Unit → Disk → Prop) (e : Disk),
      wp (freeBlock (id x)) R e → wp (body x) R e)
    (hQ : ∀ e, Disk.Freed d (fun b => ∃ x, i ≤ x ∧ x < i + n ∧ b = (id x).toNat) e → Q () e) :
    wp (forLoop body i n) Q d := by
  refine wp_forLoop (fun y e => Disk.Freed d (fun b => ∃ x, i ≤ x ∧ x < y ∧ b = (id x).toNat) e)
    ?_ ?_ hQ
  · exact Disk.Freed.refl fun b ⟨x, hx, hlt, _⟩ => by omega
  · intro y e hy hy' he
    refine hbody y hy hy' _ _ ?_
    rw [wp_freeBlock]
    refine he.markFree (hlt y hy hy') fun b => ⟨?_, ?_⟩
    · rintro ⟨x, hx, hxy, rfl⟩
      rcases Nat.lt_succ_iff_lt_or_eq.mp hxy with h | rfl
      · exact .inl ⟨x, hx, h, rfl⟩
      · exact .inr rfl
    · rintro (⟨x, hx, hxy, rfl⟩ | rfl)
      · exact ⟨x, hx, by omega, rfl⟩
      · exact ⟨y, hy, Nat.lt_succ_self y, rfl⟩

/-- `alloc_block` hands out the least free data block, or `-1` when there is none. -/
theorem wp_allocBlock (Q : UInt32 → Disk → Prop) (d : Disk) :
    wp allocBlock Q d ↔
      (∀ id ∈ Disk.freeIn d.used, (∀ x ∈ Disk.freeIn d.used, id ≤ x) →
        Q (UInt32.ofNat id) (d.markUsed id)) ∧
      (Disk.freeIn d.used = ∅ → Q 0xffffffff d) := by
  -- the scan has found every bit below `id` set
  have scan : ∀ n id, 123 ≤ id → id + n = 32768 → (∀ x ∈ Disk.freeIn d.used, id ≤ x) →
      (wp (allocScan n id) Q d ↔
        (∀ id ∈ Disk.freeIn d.used, (∀ x ∈ Disk.freeIn d.used, id ≤ x) →
          Q (UInt32.ofNat id) (d.markUsed id)) ∧
        (Disk.freeIn d.used = ∅ → Q 0xffffffff d)) := by
    intro n
    induction n with
    | zero =>
      intro id _ hid hlow
      have hempty : Disk.freeIn d.used = ∅ := by
        apply Finset.eq_empty_of_forall_notMem
        intro x hx
        have h1 := hlow x hx
        have h2 := (Disk.mem_freeIn.mp hx).1
        omega
      simp only [allocScan, wp_bind, wp_unlock, pure_eq, wp_ret, hempty, Finset.notMem_empty,
        false_imp_iff, implies_true, true_and, forall_const]
    | succ n ih =>
      intro id hlo hid hlow
      have hid' : id < 32768 := by omega
      have hb := toNat_bblock hid'
      have hlt := Disk.bblock_lt hid'
      have hrow : (UInt32.ofNat (bblock id)).toNat < 32768 := by omega
      have htest : (d.row (bblock id)).byte (id % bpb / 8) &&& charBit (id % bpb % 8) ≠ 0 ↔
          d.bit id = true := and_charBit_ne_zero _ _ (by omega)
      simp only [allocScan, wp_bind, wp_freshBlock, wp_readDisk _ _ _ _ hrow, forall_const, hb,
        htest]
      by_cases hset : d.bit id = true
      · rw [if_pos hset]
        apply ih (id + 1) (by omega) (by omega)
        intro x hx
        have h1 := hlow x hx
        rcases Nat.eq_or_lt_of_le h1 with rfl | hgt
        · exact absurd (Disk.mem_used.mpr ⟨hid', hset⟩) (Disk.mem_freeIn.mp hx).2
        · exact hgt
      · rw [if_neg hset]
        have hmem : id ∈ Disk.freeIn d.used :=
          Disk.mem_freeIn.mpr ⟨⟨hlo, hid'⟩, fun h => hset (Disk.mem_used.mp h).2⟩
        simp only [wp_bind, wp_writeDisk _ _ _ _ _ hrow, wp_unlock, pure_eq, wp_ret, hb]
        constructor
        · intro hQ
          refine ⟨fun y hy hle => ?_, fun he => absurd hmem (he ▸ Finset.notMem_empty id)⟩
          rw [le_antisymm (hle id hmem) (hlow y hy)]
          exact hQ
        · intro hQ
          exact hQ.1 id hmem hlow
  rw [allocBlock, wp_bind, wp_lock]
  exact scan _ 123 le_rfl rfl fun x hx => (Disk.mem_freeIn.mp hx).1.1

end InodeFs
