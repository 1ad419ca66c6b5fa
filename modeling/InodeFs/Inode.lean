import InodeFs.BlockLayer

/-!
# `struct inode` and its place in a block of the inode table

A record is fourteen words of four bytes: `type` in the first half of word 0, with two bytes of
padding, then `size`, `atime`, `mtime`, `ctime` and the nine block ids.
-/

namespace InodeFs

structure Inode where
  type : Int16
  size : UInt32
  atime : UInt32
  mtime : UInt32
  ctime : UInt32
  blocks : Fin 9 → UInt32

namespace Inode

/-- Word `w` of the record, for the words after `type`. -/
def word (ino : Inode) (w : Nat) : UInt32 :=
  if w = 1 then ino.size
  else if w = 2 then ino.atime
  else if w = 3 then ino.mtime
  else if w = 4 then ino.ctime
  else if h : w - 5 < 9 then ino.blocks ⟨w - 5, h⟩ else 0

/-- Byte `o` of the record; nothing for the padding, which an assignment leaves as it is. -/
def byte? (ino : Inode) (o : Nat) : Option UInt8 :=
  if o < 2 then some (byteOf16 ino.type.toUInt16 o)
  else if o < 4 then none
  else some (byteOf (ino.word (o / 4)) (o % 4))

/-- `*ino_disk` where `ino_disk = (struct inode *) buf + slot` -/
def ofBlock (b : Block) (slot : Nat) : Inode where
  type := (wordOf16 fun k => b.byte (sizeofInode * slot + k)).toInt16
  size := b.word (14 * slot + 1)
  atime := b.word (14 * slot + 2)
  mtime := b.word (14 * slot + 3)
  ctime := b.word (14 * slot + 4)
  blocks := fun k => b.word (14 * slot + 5 + k)

/-- `*ino_disk = *ino` -/
def intoBlock (ino : Inode) (slot : Nat) (b : Block) : Block := fun j =>
  if sizeofInode * slot ≤ j.val ∧ j.val < sizeofInode * slot + sizeofInode then
    (ino.byte? (j.val - sizeofInode * slot)).getD (b j)
  else b j

/-- `new inode()` -/
def zero : Inode := ⟨0, 0, 0, 0, 0, fun _ => 0⟩

/-- `ino->blocks[i]`, `0` where there is no such element -/
def block (ino : Inode) (i : Nat) : UInt32 := if h : i < 9 then ino.blocks ⟨i, h⟩ else 0

/-- `ino->blocks[i] = v` -/
def setBlock (ino : Inode) (i : Nat) (v : UInt32) : Inode :=
  { ino with blocks := fun k => if k.val = i then v else ino.blocks k }

/-- `ino->atime = now` -/
def setAtime (ino : Inode) (now : UInt32) : Inode := { ino with atime := now }

/-- `ino->size = size` -/
def setSize (ino : Inode) (size : UInt32) : Inode := { ino with size := size }

/-- `ino->type = 0` -/
def setTypeFree (ino : Inode) : Inode := { ino with type := 0 }

@[simp] theorem block_setAtime (ino : Inode) (now : UInt32) (k : Nat) :
    (ino.setAtime now).block k = ino.block k := rfl

@[simp] theorem block_setSize (ino : Inode) (size : UInt32) (k : Nat) :
    (ino.setSize size).block k = ino.block k := rfl

@[simp] theorem block_setBlock (ino : Inode) (i k : Nat) (v : UInt32) :
    (ino.setBlock i v).block k = if k = i ∧ k < 9 then v else ino.block k := by
  unfold block setBlock
  by_cases hk : k < 9
  · simp only [hk, dif_pos, and_true]
  · simp only [hk, dif_neg, not_false_iff, and_false, if_false]

theorem byte_intoBlock (ino : Inode) (slot j : Nat) (b : Block) (hj : j < 512) :
    (ino.intoBlock slot b).byte j =
      if sizeofInode * slot ≤ j ∧ j < sizeofInode * slot + sizeofInode then
        (ino.byte? (j - sizeofInode * slot)).getD (b.byte j)
      else b.byte j := by
  simp only [Block.byte, intoBlock, hj, dif_pos]

theorem word_intoBlock (ino : Inode) (slot w : Nat) (b : Block) (hs : slot < 9)
    (hw : 1 ≤ w) (hw' : w < 14) : (ino.intoBlock slot b).word (14 * slot + w) = ino.word w := by
  apply wordOf_byteOf
  intro k hk
  rw [byte_intoBlock _ _ _ _ (by omega), if_pos (by simp only [sizeofInode]; omega),
    show 4 * (14 * slot + w) + k - sizeofInode * slot = 4 * w + k by simp only [sizeofInode]; omega,
    byte?, if_neg (by omega), if_neg (by omega), Option.getD_some,
    show (4 * w + k) / 4 = w by omega, show (4 * w + k) % 4 = k by omega]

theorem type_intoBlock (ino : Inode) (slot : Nat) (b : Block) (hs : slot < 9) :
    wordOf16 (fun k => (ino.intoBlock slot b).byte (sizeofInode * slot + k)) =
      ino.type.toUInt16 := by
  apply wordOf16_byteOf16
  intro k hk
  rw [byte_intoBlock _ _ _ _ (by simp only [sizeofInode]; omega),
    if_pos (by simp only [sizeofInode]; omega), Nat.add_sub_cancel_left, byte?,
    if_pos (by omega), Option.getD_some]

-- The bytes of a record that was loaded are those of its place.
theorem byte?_ofBlock (b : Block) (slot : Nat) {o : Nat} (ho : o < 56) (hpad : o < 2 ∨ 4 ≤ o) :
    (ofBlock b slot).byte? o = some (b.byte (sizeofInode * slot + o)) := by
  rw [byte?]
  by_cases h2 : o < 2
  · rw [if_pos h2]
    exact congrArg some (byteOf16_wordOf16 (fun k => b.byte (sizeofInode * slot + k)) h2)
  · rw [if_neg h2, if_neg (by omega)]
    have hword : (ofBlock b slot).word (o / 4) = b.word (14 * slot + o / 4) := by
      have hw : 1 ≤ o / 4 ∧ o / 4 < 14 := by omega
      generalize o / 4 = w at hw
      obtain ⟨hlo, hhi⟩ := hw
      interval_cases w <;> rfl
    have hbyte : byteOf (b.word (14 * slot + o / 4)) (o % 4) =
        b.byte (4 * (14 * slot + o / 4) + o % 4) :=
      byteOf_wordOf (fun k => b.byte (4 * (14 * slot + o / 4) + k)) (Nat.mod_lt _ (by decide))
    rw [hword, hbyte]
    congr 2
    simp only [sizeofInode]
    omega

-- A byte that is stored as it was loaded stays.
theorem byte_intoBlock_of_eq (ino : Inode) (slot j : Nat) (b : Block) (hj : j < 512)
    (h : sizeofInode * slot ≤ j → j < sizeofInode * slot + sizeofInode →
      ino.byte? (j - sizeofInode * slot) = (ofBlock b slot).byte? (j - sizeofInode * slot)) :
    (ino.intoBlock slot b).byte j = b.byte j := by
  rw [byte_intoBlock _ _ _ _ hj]
  split
  · rename_i hin
    rw [h hin.1 hin.2]
    have ho : j - sizeofInode * slot < 56 := Nat.sub_lt_left_of_lt_add hin.1 hin.2
    by_cases hpad : j - sizeofInode * slot < 2 ∨ 4 ≤ j - sizeofInode * slot
    · rw [byte?_ofBlock b slot ho hpad, Option.getD_some, Nat.add_sub_cancel' hin.1]
    · rw [byte?, if_neg (by omega), if_pos (by omega), Option.getD_none]
  · rfl

-- A record is what its bytes are, but for the padding.
theorem ofBlock_eq_iff {b c : Block} {slot : Nat} :
    ofBlock b slot = ofBlock c slot ↔ ∀ o < 56, (o < 2 ∨ 4 ≤ o) →
      b.byte (sizeofInode * slot + o) = c.byte (sizeofInode * slot + o) := by
  refine ⟨fun h o ho hpad => ?_, fun h => ?_⟩
  · have hbyte := byte?_ofBlock b slot ho hpad
    rw [h, byte?_ofBlock c slot ho hpad] at hbyte
    exact (Option.some.inj hbyte).symm
  · have hword : ∀ w, 1 ≤ w → w < 14 → b.word (14 * slot + w) = c.word (14 * slot + w) := by
      intro w hlo hhi
      apply wordOf_congr
      intro k hk
      have hbyte := h (4 * w + k) (by omega) (by omega)
      rwa [show sizeofInode * slot + (4 * w + k) = 4 * (14 * slot + w) + k by
        simp only [sizeofInode]; omega] at hbyte
    simp only [ofBlock, mk.injEq]
    refine ⟨?_, hword 1 (by omega) (by omega), hword 2 (by omega) (by omega),
      hword 3 (by omega) (by omega), hword 4 (by omega) (by omega), ?_⟩
    · simp only [wordOf16]
      rw [h 0 (by omega) (by omega), h 1 (by omega) (by omega)]
    · funext k
      rw [Nat.add_assoc]
      exact hword _ (by omega) (by omega)

-- Storing a record and loading it back.
theorem ofBlock_intoBlock (ino : Inode) (slot : Nat) (b : Block) (hs : slot < 9) :
    ofBlock (ino.intoBlock slot b) slot = ino := by
  have hblocks : (fun k : Fin 9 => (ino.intoBlock slot b).word (14 * slot + 5 + k)) =
      ino.blocks := by
    funext k
    rw [Nat.add_assoc, word_intoBlock _ _ _ _ hs (by omega) (by omega), word,
      if_neg (by omega), if_neg (by omega), if_neg (by omega), if_neg (by omega),
      dif_pos (by omega)]
    congr 1
    apply Fin.ext
    simp only [Nat.add_sub_cancel_left]
  cases ino with
  | mk type size atime mtime ctime blocks =>
    simp only [ofBlock, mk.injEq]
    refine ⟨?_, ?_, ?_, ?_, ?_, hblocks⟩
    · rw [type_intoBlock _ _ _ hs]; rfl
    all_goals
      rw [word_intoBlock _ _ _ _ hs (by omega) (by omega)]
      rfl

-- Storing a record leaves the records at the other places as they were.
theorem ofBlock_intoBlock_ne (ino : Inode) (slot other : Nat) (b : Block) (ho : other < 9)
    (hne : other ≠ slot) : ofBlock (ino.intoBlock slot b) other = ofBlock b other := by
  refine ofBlock_eq_iff.mpr fun o ho _ => ?_
  simp only [sizeofInode]
  rw [byte_intoBlock _ _ _ _ (by omega), if_neg (by simp only [sizeofInode]; omega)]

end Inode

end InodeFs
