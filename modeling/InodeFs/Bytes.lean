import Mathlib.Tactic.IntervalCases
import Mathlib.Tactic.NormNum

/-!
# Bytes in memory

The machine is little-endian, with `short` of two bytes and `int` of four.  A pointer is the
function from offsets to the bytes behind it; a disk block is an array of 512 of them.
-/

namespace InodeFs

/-- The bytes behind a pointer. -/
abbrev Mem := Nat → UInt8

/-- `BLOCK_SIZE` -/
abbrev blockSize : Nat := 512

/-- `char buf[BLOCK_SIZE]` -/
abbrev Block := Fin 512 → UInt8

/-! ## Integers and their bytes -/

/-- Byte `k` of a 32-bit integer. -/
def byteOf (v : UInt32) (k : Nat) : UInt8 := UInt8.ofNat (v.toNat / 256 ^ k)

/-- The 32-bit integer whose bytes are at `m`. -/
def wordOf (m : Mem) : UInt32 :=
  UInt32.ofNat ((m 0).toNat + 256 * (m 1).toNat + 65536 * (m 2).toNat + 16777216 * (m 3).toNat)

theorem wordOf_byteOf (v : UInt32) (m : Mem) (h : ∀ k < 4, m k = byteOf v k) : wordOf m = v := by
  have hv := v.toNat_lt
  apply UInt32.toNat_inj.mp
  rw [wordOf, h 0 (by omega), h 1 (by omega), h 2 (by omega), h 3 (by omega)]
  simp only [byteOf, UInt8.toNat_ofNat', UInt32.toNat_ofNat']
  norm_num
  omega

theorem byteOf_wordOf (m : Mem) {k : Nat} (hk : k < 4) : byteOf (wordOf m) k = m k := by
  have h0 := (m 0).toNat_lt
  have h1 := (m 1).toNat_lt
  have h2 := (m 2).toNat_lt
  have h3 := (m 3).toNat_lt
  apply UInt8.toNat_inj.mp
  simp only [byteOf, wordOf, UInt8.toNat_ofNat', UInt32.toNat_ofNat']
  interval_cases k <;> norm_num <;> omega

theorem wordOf_congr {m m' : Mem} (h : ∀ k < 4, m k = m' k) : wordOf m = wordOf m' := by
  rw [wordOf, wordOf, h 0 (by omega), h 1 (by omega), h 2 (by omega), h 3 (by omega)]

/-- Byte `k` of a 16-bit integer. -/
def byteOf16 (v : UInt16) (k : Nat) : UInt8 := UInt8.ofNat (v.toNat / 256 ^ k)

/-- The 16-bit integer whose bytes are at `m`. -/
def wordOf16 (m : Mem) : UInt16 := UInt16.ofNat ((m 0).toNat + 256 * (m 1).toNat)

theorem wordOf16_byteOf16 (v : UInt16) (m : Mem) (h : ∀ k < 2, m k = byteOf16 v k) :
    wordOf16 m = v := by
  have hv := v.toNat_lt
  apply UInt16.toNat_inj.mp
  rw [wordOf16, h 0 (by omega), h 1 (by omega)]
  simp only [byteOf16, UInt8.toNat_ofNat', UInt16.toNat_ofNat']
  norm_num
  omega

theorem byteOf16_wordOf16 (m : Mem) {k : Nat} (hk : k < 2) : byteOf16 (wordOf16 m) k = m k := by
  have h0 := (m 0).toNat_lt
  have h1 := (m 1).toNat_lt
  apply UInt8.toNat_inj.mp
  simp only [byteOf16, wordOf16, UInt8.toNat_ofNat', UInt16.toNat_ofNat']
  interval_cases k
  · norm_num
  · norm_num
    omega

/-! ## Blocks -/

namespace Block

/-- `buf[i]`; every use below has `i < 512`. -/
def byte (b : Block) (i : Nat) : UInt8 := if h : i < 512 then b ⟨i, h⟩ else 0

/-- The first 512 bytes at `m`. -/
def ofMem (m : Mem) : Block := fun i => m i

/-- `buf[i] = v` -/
def setByte (b : Block) (i : Nat) (v : UInt8) : Block := fun j => if j.val = i then v else b j

/-- `memcpy(buf, src, n)` -/
def copyFrom (b : Block) (src : Mem) (n : Nat) : Block := fun j => if j.val < n then src j else b j

/-- `((int *) buf)[i]` -/
def word (b : Block) (i : Nat) : UInt32 := wordOf fun k => b.byte (4 * i + k)

/-- `memcpy(buf + i * sizeof(uint32_t), &v, sizeof(uint32_t))` -/
def setWord (b : Block) (i : Nat) (v : UInt32) : Block := fun j =>
  if 4 * i ≤ j.val ∧ j.val < 4 * i + 4 then byteOf v (j.val - 4 * i) else b j

theorem ext_byte {b c : Block} (h : ∀ i < 512, b.byte i = c.byte i) : b = c := by
  funext i
  simpa only [byte, i.isLt, dif_pos] using h i.val i.isLt

theorem byte_setByte (b : Block) (i j : Nat) (v : UInt8) (hj : j < 512) :
    (b.setByte i v).byte j = if j = i then v else b.byte j := by
  simp only [byte, setByte, hj, dif_pos]

theorem byte_copyFrom (b : Block) (src : Mem) (n j : Nat) (hj : j < 512) :
    (b.copyFrom src n).byte j = if j < n then src j else b.byte j := by
  simp only [byte, copyFrom, hj, dif_pos]

theorem byte_setWord (b : Block) (i j : Nat) (v : UInt32) (hj : j < 512) :
    (b.setWord i v).byte j =
      if 4 * i ≤ j ∧ j < 4 * i + 4 then byteOf v (j - 4 * i) else b.byte j := by
  simp only [byte, setWord, hj, dif_pos]

theorem word_setWord_self (b : Block) (i : Nat) (v : UInt32) (hi : i < 128) :
    (b.setWord i v).word i = v := by
  apply wordOf_byteOf
  intro k hk
  rw [byte_setWord _ _ _ _ (by omega), if_pos (by omega), Nat.add_sub_cancel_left]

theorem word_setWord_ne (b : Block) (i j : Nat) (v : UInt32) (hj : j < 128) (hij : j ≠ i) :
    (b.setWord i v).word j = b.word j := by
  apply wordOf_congr
  intro k hk
  rw [byte_setWord _ _ _ _ (by omega), if_neg (by omega)]

end Block

/-- `memcpy(dst + off, src, n)` into memory that is not a block. -/
def copyInto (dst : Mem) (off : Nat) (src : Block) (n : Nat) : Mem := fun i =>
  if off ≤ i ∧ i < off + n then src.byte (i - off) else dst i

end InodeFs
