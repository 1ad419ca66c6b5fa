import InodeFs.Isolation
import InodeFs.Shrink

/-!
# What `remove_file` does to other files

`remove_file` frees all eight direct slots, whatever the size, and one entry too many when the last
chunk is full.  `free_block` looks at no id: one that is no block's is the number of a bit behind the
bitmap, in the inode table or in a data block.
-/

namespace InodeFs

open BlockLayer InodeLayer Prog Disk

/-! ## Removing a file and nothing else -/

/-- From `d` to `e`, the blocks of file `i` are free and so is the inode; every other bit of the bitmap,
inode record and data block is as it was. -/
structure Disk.Removed (d : Disk) (i : Nat) (e : Disk) : Prop where
  used : ∀ id, id ∈ e.used ↔ id ∈ d.used ∧ ¬ d.Holds i id
  free : (e.inode i).type = 0
  inodes : ∀ j < 1024, j ≠ i → e.inode j = d.inode j
  data : ∀ r, 123 ≤ r → e.row r = d.row r

/-- Whatever uninitialised memory holds, `remove_file` returns, having removed the file and nothing
else. -/
def RemovesExactly (d : Disk) (inum : UInt32) : Prop :=
  wp (removeFile inum) (fun _ e => d.Removed inum.toNat e) d

/-- Bit `x` of the disk lies in byte `o` of the record of inode `j`. -/
def InRecord (j o x : Nat) : Prop :=
  bblock x = tableBlock j ∧ x % bpb / 8 = sizeofInode * (j % ipb) + o

/-- Bit `x` of the disk belongs to the bitmap, to a data block or to a field of another inode than
`i`. -/
inductive Foreign (i x : Nat) : Prop where
  | bitmap (h : bblock x ≤ 8)
  | data (h : 123 ≤ bblock x)
  | inode {j o : Nat} (hj : j < 1024) (hji : j ≠ i) (ho : o < 56) (hpad : o < 2 ∨ 4 ≤ o)
      (h : InRecord j o x)

namespace Disk

/-- The entry behind the ones that the file of inode `i` uses. -/
def nextEntry (d : Disk) (i : Nat) : UInt32 :=
  (d.row ((d.inode i).block 8).toNat).word (chunks (d.size i) - 8)

/-- `remove_file` frees `id` besides the blocks of the file: an unused direct slot, or, when the last of
its entries points to a full chunk, what the next one is (`v`). -/
inductive FreedToo (d : Disk) (i : Nat) (v : UInt32) : Nat → Prop where
  | direct {k : Nat} (hk : chunks (d.size i) ≤ k) (h8 : k < 8) :
      FreedToo d i v ((d.inode i).block k).toNat
  | entry (hs : 4096 < d.size i) (hmod : d.size i % 512 = 0) : FreedToo d i v v.toNat

/-- Freeing `id` harms nobody: it is one of the file's own, or its bit is clear already, or the bit is
nobody else's. -/
def Harmless (d : Disk) (i id : Nat) : Prop := d.Holds i id ∨ d.bit id = false ∨ ¬ Foreign i id

end Disk

/-- The ids that `remove_file` frees besides the blocks of the file do no harm, nor do they clear the
inode's type, and none of them is read past the indirect block. -/
structure RemovesOwn (d : Disk) (i : Nat) : Prop where
  notFull : d.size i ≠ blockSize * maxFile
  harmless : ∀ id, d.FreedToo i (d.nextEntry i) id → d.Harmless i id
  type : ∃ o < 2, ∃ x, InRecord i o x ∧ d.bit x = true ∧ ¬ d.FreedToo i (d.nextEntry i) x

/-! ## The ids that are freed -/

/-- What `remove_file` passes to `free_block`, in this order, when the entry behind those of the file is
`v`. -/
def Disk.removedIds (d : Disk) (i : Nat) (v : UInt32) : List Nat :=
  (List.range' 0 8).map (fun k => ((d.inode i).block k).toNat) ++
    if 4096 < d.size i then
      (List.range' 0 (chunks (d.size i) - 8)).map
          (fun x => ((d.row ((d.inode i).block 8).toNat).word x).toNat) ++
        (if d.size i % 512 = 0 then [v.toNat] else []) ++ [((d.inode i).block 8).toNat]
    else []

section Ids
variable {d : Disk} {i : Nat}

theorem mem_removedIds_of_le (hin : d.InUse i) {v : UInt32} {x : Nat} (hs : d.size i ≤ 4096) :
    x ∈ d.removedIds i v ↔ d.Holds i x ∨ d.FreedToo i v x := by
  have h8 : chunks (d.size i) ≤ 8 := chunks_le_iff.mpr (by omega)
  have hp : pointers (d.size i) = chunks (d.size i) := ptrCount_of_le h8
  simp only [removedIds, if_neg (Nat.not_lt.mpr hs), List.append_nil, List.mem_map,
    List.mem_range'_1, Nat.zero_add, Nat.zero_le, true_and]
  constructor
  · rintro ⟨k, hk, rfl⟩
    by_cases hlt : k < chunks (d.size i)
    · exact .inl ⟨hin, k, by omega, ptr_direct (by omega)⟩
    · exact .inr (.direct (Nat.not_lt.mp hlt) hk)
  · rintro (⟨-, p, hpp, rfl⟩ | hx)
    · exact ⟨p, by omega, (ptr_direct (by omega)).symm⟩
    · cases hx with
      | @direct k hk hlt => exact ⟨k, hlt, rfl⟩
      | entry hbig => exact absurd hs (Nat.not_le.mpr hbig)

-- The pointers of a file with an indirect block, in the order in which they are freed.
theorem holds_iff_of_lt (hin : d.InUse i) {x : Nat} (hs : 4096 < d.size i) :
    d.Holds i x ↔ (∃ k < 8, ((d.inode i).block k).toNat = x) ∨
      (∃ y < chunks (d.size i) - 8,
        ((d.row ((d.inode i).block 8).toNat).word y).toNat = x) ∨
      ((d.inode i).block 8).toNat = x := by
  have h8 : 8 < chunks (d.size i) := lt_chunks_iff.mpr (by omega)
  have hp : pointers (d.size i) = chunks (d.size i) + 1 := pointers_eq_of_lt h8
  constructor
  · rintro ⟨-, p, hpp, rfl⟩
    rcases Nat.lt_trichotomy p 8 with hlt | rfl | hgt
    · exact .inl ⟨p, hlt, (ptr_direct hlt.le).symm⟩
    · exact .inr (.inr (ptr_direct le_rfl).symm)
    · exact .inr (.inl ⟨p - 9, by omega, (ptr_entry hgt).symm⟩)
  · rintro (⟨k, hk, rfl⟩ | ⟨y, hy, rfl⟩ | rfl)
    · exact ⟨hin, k, by omega, ptr_direct hk.le⟩
    · exact ⟨hin, y + 9, by omega, by rw [ptr_entry (by omega), Nat.add_sub_cancel]⟩
    · exact ⟨hin, 8, by omega, ptr_direct le_rfl⟩

theorem mem_removedIds_of_lt (hin : d.InUse i) {v : UInt32} {x : Nat} (hs : 4096 < d.size i) :
    x ∈ d.removedIds i v ↔ d.Holds i x ∨ d.FreedToo i v x := by
  have h8 : 8 < chunks (d.size i) := lt_chunks_iff.mpr (by omega)
  have hextra : d.FreedToo i v x ↔ x ∈ (if d.size i % 512 = 0 then [v.toNat] else []) := by
    constructor
    · intro hx
      cases hx with
      | direct hk hlt => omega
      | entry _ hmod =>
        rw [if_pos hmod]
        exact List.mem_singleton_self _
    · intro hx
      split at hx
      · rename_i hmod
        obtain rfl := List.mem_singleton.mp hx
        exact .entry hs hmod
      · cases hx
  rw [holds_iff_of_lt hin hs, hextra]
  simp only [removedIds, if_pos hs, List.mem_append, List.mem_map, List.mem_range'_1, Nat.zero_add,
    Nat.zero_le, true_and, List.mem_singleton]
  constructor
  · rintro (hdirect | (hentry | hnext) | rfl)
    · exact .inl (.inl hdirect)
    · exact .inl (.inr (.inl hentry))
    · exact .inr hnext
    · exact .inl (.inr (.inr rfl))
  · rintro ((hdirect | hentry | rfl) | hnext)
    · exact .inl hdirect
    · exact .inr (.inl (.inl hentry))
    · exact .inr (.inr rfl)
    · exact .inr (.inl (.inr hnext))

theorem mem_removedIds (hin : d.InUse i) {v : UInt32} {x : Nat} :
    x ∈ d.removedIds i v ↔ d.Holds i x ∨ d.FreedToo i v x := by
  rcases Nat.lt_or_ge 4096 (d.size i) with hs | hs
  · exact mem_removedIds_of_lt hin hs
  · exact mem_removedIds_of_le hin hs

theorem wp_freeInode_iff {inum : UInt32} {Q : Unit → Disk → Prop} :
    wp (freeInode inum) Q d ↔ d.InUse inum.toNat ∧
      Q () (d.setInode inum.toNat (d.inode inum.toNat).setTypeFree) := by
  by_cases hin : d.InUse inum.toNat
  · rw [wp_freeInode hin]
    exact (and_iff_right hin).symm
  · simp only [freeInode, wp_bind, wp_getInode, lookup_eq_none hin]
    exact iff_of_false id fun h => hin h.1

-- The number of entries that `remove_file` frees.
theorem numIndirectBlocks_toNat {s : Nat} (hs : 4096 < s) :
    (((s : Int) - 8 * blockSize).tdiv blockSize + 1).toNat =
      chunks s - 8 + if s % 512 = 0 then 1 else 0 := by
  have hsub : (s : Int) - 8 * blockSize = (s - 4096 : Nat) := by simp only [blockSize]; omega
  rw [hsub, Int.tdiv_eq_ediv_of_nonneg (Int.natCast_nonneg _)]
  simp only [blockSize, chunks]
  split <;> omega

-- The loop over the entries of the indirect block `b`.
theorem wp_freeEntries_iff (b : Block) {n : Nat} {Q : Unit → Disk → Prop} (hn : n ≤ 128) :
    wp (forLoop (fun x => do
        let id ← entry b x
        freeBlock id) 0 n) Q d ↔
      Q () (d.markAll ((List.range' 0 n).map fun x => (b.word x).toNat)) := by
  refine wp_forLoop_markFree fun x _ hx R e => ?_
  rw [wp_bind, wp_entry _ _ _ _ (by omega), wp_freeBlock]

-- The direct slots are blocks of the file, so freeing them does not touch the indirect block.
theorem row_markAll_direct (h : WellHeld d (d.inode i)) (hs : 4096 < d.size i) {r : Nat}
    (hr : 9 ≤ r) :
    (d.markAll ((List.range' 0 8).map fun k => ((d.inode i).block k).toNat)).row r = d.row r := by
  have h8 : 8 < chunks (d.size i) := lt_chunks_iff.mpr (by omega)
  have hp : pointers (d.inode i).size.toNat = chunks (d.size i) + 1 := pointers_eq_of_lt h8
  refine row_markAll d (fun id hid => ?_) hr
  obtain ⟨k, hk, rfl⟩ := List.mem_map.mp hid
  have hk8 := (List.mem_range'_1.mp hk).2
  have hreg := h.region k (by omega)
  rw [ptrOf_direct (by omega)] at hreg
  exact hreg.2

/-- `remove_file` clears the bits of these ids, one after the other, and then frees the inode. -/
theorem wp_removeFile_iff {inum : UInt32} {Q : Unit → Disk → Prop} (hin : d.InUse inum.toNat)
    (h : WellHeld d (d.inode inum.toNat)) :
    wp (removeFile inum) Q d ↔
      ∀ v, (d.size inum.toNat ≠ 69632 → v = d.nextEntry inum.toNat) →
        wp (freeInode inum) Q (d.markAll (d.removedIds inum.toNat v)) := by
  set i := inum.toNat with hi
  have hsize : (d.inode i).size.toNat = d.size i := rfl
  have hn136 := h.chunks_le
  rw [hsize] at hn136
  have hle := chunks_le_iff.mp hn136
  simp only [removeFile, wp_bind, wp_getInode, lookup_eq_some hin, ← hi, h.asInt_size, hsize]
  rw [wp_forLoop_markFree fun x _ _ R e => wp_freeBlock _ R e]
  by_cases hs : 4096 < d.size i
  · have h8 : 8 < chunks (d.size i) := lt_chunks_iff.mpr (by omega)
    have h8reg := h.region 8 (by rw [hsize, pointers_eq_of_lt h8]; omega)
    rw [ptrOf_direct le_rfl] at h8reg
    have hrow := row_markAll_direct (r := ((d.inode i).block 8).toNat) h hs (by omega)
    rw [if_pos (by simp only [blockSize]; omega)]
    simp only [wp_bind, wp_freshBlock, readBlock, wp_readDisk _ _ _ _ h8reg.2, forall_const, hrow,
      numIndirectBlocks_toNat hs]
    by_cases hmod : d.size i % 512 = 0
    · -- one entry more, which may lie behind the block
      rw [if_pos hmod, forLoop_concat, wp_bind, wp_freeEntries_iff _ (by omega), wp_bind,
        wp_entry_iff]
      simp only [Nat.zero_add, wp_freeBlock, removedIds, if_pos hs, if_pos hmod, markAll_append,
        markAll_singleton]
      have hlast : chunks (d.size i) - 8 < 128 ↔ d.size i ≠ 69632 := by
        unfold chunks
        omega
      rw [hlast]
      exact Iff.rfl
    · rw [if_neg hmod, Nat.add_zero, wp_freeEntries_iff _ (by omega)]
      simp only [wp_freeBlock, removedIds, if_pos hs, if_neg hmod, List.append_nil, markAll_append,
        markAll_singleton]
      exact ⟨fun hQ _ _ => hQ, fun hQ => hQ (d.nextEntry i) fun _ => rfl⟩
  · rw [if_neg (by simp only [blockSize]; omega)]
    simp only [removedIds, if_neg hs, List.append_nil]
    exact ⟨fun hQ _ _ => hQ, fun hQ => hQ (d.nextEntry i) fun _ => rfl⟩

end Ids

/-! ## What is left of the disk -/

section Effect
variable {d : Disk} {i : Nat} {ids : List Nat} {extra : Nat → Prop}

theorem Disk.Holds.lt (h : WellHeld d (d.inode i)) {id : Nat} (hid : d.Holds i id) : id < 32768 := by
  obtain ⟨-, p, hp, rfl⟩ := hid
  exact (h.region p hp).2

theorem inode_eq_iff {e : Disk} {j : Nat} : d.inode j = e.inode j ↔ ∀ o < 56, (o < 2 ∨ 4 ≤ o) →
    (d.row (tableBlock j)).byte (sizeofInode * (j % ipb) + o) =
      (e.row (tableBlock j)).byte (sizeofInode * (j % ipb) + o) := Inode.ofBlock_eq_iff

theorem record_lt (j : Nat) {o : Nat} (ho : o < 56) : sizeofInode * (j % ipb) + o < 512 := by
  have hslot := slot_lt j
  simp only [sizeofInode]
  omega

-- An inode is in use when a bit of its type is set.
theorem inUse_iff_bit (hi : i < 1024) :
    d.InUse i ↔ ∃ o < 2, ∃ x, InRecord i o x ∧ d.bit x = true := by
  have hb := tableBlock_bounds hi
  constructor
  · rintro ⟨-, ht⟩
    by_contra hno
    have hzero : ∀ o < 2, (d.row (tableBlock i)).byte (sizeofInode * (i % ipb) + o) = 0 := by
      intro o ho
      refine eq_zero_of_bitOf fun j hj hset => ?_
      have hpos := record_lt i (show o < 56 by omega)
      rw [← bit_bitNumber d (by omega) hpos hj] at hset
      exact hno ⟨o, ho, _, bblock_bitNumber (by omega) hpos hj, hset⟩
    refine ht ?_
    change (wordOf16 fun k => (d.row (tableBlock i)).byte (sizeofInode * (i % ipb) + k)).toInt16 = 0
    rw [wordOf16, hzero 0 (by omega), hzero 1 (by omega)]
    rfl
  · rintro ⟨o, ho, x, ⟨hrow, hbyte⟩, hset⟩
    refine ⟨hi, fun ht => ?_⟩
    -- a type of zero has no bit set
    have hbytes := Inode.byte?_ofBlock (d.row (tableBlock i)) (i % ipb) (show o < 56 by omega) (.inl ho)
    have hrec : Inode.ofBlock (d.row (tableBlock i)) (i % ipb) = d.inode i := rfl
    rw [hrec, Inode.byte?, if_pos ho, ht, Option.some.injEq] at hbytes
    rw [bit, bitmapByte, hrow, hbyte, ← hbytes] at hset
    have hzero : byteOf16 (0 : Int16).toUInt16 o = 0 := by
      simp only [byteOf16, show (0 : Int16).toUInt16 = 0 from rfl, UInt16.toNat_zero, Nat.zero_div]
      rfl
    rw [hzero, bitOf_zero] at hset
    cases hset

variable (hids : ∀ x, x ∈ ids ↔ d.Holds i x ∨ extra x)

include hids

-- The type survives when one of its bits does.
theorem inUse_markAll_iff (hi : i < 1024) (h : WellHeld d (d.inode i)) :
    (d.markAll ids).InUse i ↔
      ∃ o < 2, ∃ x, InRecord i o x ∧ d.bit x = true ∧ ¬ extra x := by
  rw [inUse_iff_bit hi]
  refine exists_congr fun o => and_congr_right fun ho => exists_congr fun x =>
    and_congr_right fun hx => ?_
  have hno : ¬ d.Holds i x := fun hheld => by
    have hb := bblock_lt (hheld.lt h)
    have ht := tableBlock_bounds hi
    have hrow := hx.1
    omega
  rw [bit_markAll, Bool.and_eq_true, decide_eq_true_eq, hids, not_or]
  exact ⟨fun hbit => ⟨hbit.1, hbit.2.2⟩, fun hbit => ⟨hbit.1, hno, hbit.2⟩⟩

-- A bit that counts stays when it is no bit of the file's own blocks.
theorem bit_markAll_of_harmless (hharm : ∀ x, extra x → d.Harmless i x) {x : Nat}
    (hx : Foreign i x) (hno : ¬ d.Holds i x) : (d.markAll ids).bit x = d.bit x := by
  rw [bit_markAll]
  by_cases hmem : x ∈ ids
  · rcases hharm x (((hids x).mp hmem).resolve_left hno) with hheld | hclear | hfar
    · exact absurd hheld hno
    · rw [hclear, Bool.false_and]
    · exact absurd hx hfar
  · rw [decide_eq_true hmem, Bool.and_true]

theorem removed_of_harmless (hi : i < 1024) (h : WellHeld d (d.inode i))
    (hharm : ∀ x, extra x → d.Harmless i x) (ino : Inode) :
    d.Removed i ((d.markAll ids).setInode i ino.setTypeFree) := by
  have hfar : ∀ x, 9 ≤ bblock x → ¬ d.Holds i x := fun x hx hheld => by
    have := bblock_lt (hheld.lt h)
    omega
  refine ⟨fun id => ?_, ?_, fun j hj hji => ?_, fun r hr => ?_⟩
  · rw [used_setInode, mem_used, mem_used, and_assoc]
    refine and_congr_right fun hid => ?_
    by_cases hheld : d.Holds i id
    · rw [bit_markAll, decide_eq_false (not_not.mpr ((hids id).mpr (.inl hheld))), Bool.and_false]
      exact iff_of_false Bool.false_ne_true fun hc => hc.2 hheld
    · rw [bit_markAll_of_harmless hids hharm (.bitmap (bblock_lt hid).2) hheld]
      exact (and_iff_left hheld).symm
  · rw [inode_setInode_self _ _ hi]
    rfl
  · have hb := tableBlock_bounds hj
    rw [inode_setInode_ne _ _ hji, inode_eq_iff]
    intro o ho hpad
    refine byte_eq_of_bit_eq (by omega) (record_lt j ho) fun x hrow hbyte => ?_
    exact bit_markAll_of_harmless hids hharm (.inode hj hji ho hpad ⟨hrow, hbyte⟩)
      (hfar x (by omega))
  · rw [row_setInode_data _ _ hi hr]
    refine row_eq_of_bit_eq (by omega) fun x hx => ?_
    exact bit_markAll_of_harmless hids hharm (.data (by omega)) (hfar x (by omega))

-- A bit that counts and is lost shows in what is left of the disk.
theorem harmless_of_removed (hi : i < 1024) {ino : Inode}
    (he : d.Removed i ((d.markAll ids).setInode i ino.setTypeFree)) {x : Nat} (hx : extra x) :
    d.Harmless i x := by
  by_contra hno
  simp only [Harmless, not_or, not_not, Bool.not_eq_false] at hno
  obtain ⟨hheld, hset, hforeign⟩ := hno
  have hcleared : (d.markAll ids).bit x = false := by
    rw [bit_markAll, decide_eq_false (not_not.mpr ((hids x).mpr (.inr hx))), Bool.and_false]
  have hkept : (d.markAll ids).bit x = d.bit x → False := fun heq => by
    rw [hcleared, hset] at heq
    cases heq
  cases hforeign with
  | bitmap hrow =>
    have hlt : x < 32768 := by
      simp only [bblock, bpb, blockSize] at hrow
      omega
    have hused := (he.used x).mpr ⟨mem_used.mpr ⟨hlt, hset⟩, hheld⟩
    rw [used_setInode] at hused
    cases hcleared.symm.trans (mem_used.mp hused).2
  | data hrow =>
    have hdata := he.data (bblock x) hrow
    rw [row_setInode_data _ _ hi hrow] at hdata
    exact hkept (by rw [bit, bit, bitmapByte, bitmapByte, hdata])
  | inode hj hji ho hpad hrec =>
    have hino := he.inodes _ hj hji
    rw [inode_setInode_ne _ _ hji, inode_eq_iff] at hino
    have hbyte := hino _ ho hpad
    exact hkept (by rw [bit, bit, bitmapByte, bitmapByte, hrec.1, hrec.2, hbyte])

end Effect

/-! ## When a remove is exact -/

section Exact
variable {d : Disk} {inum : UInt32}

theorem exists_bitOf_of_word {b : Block} {k : Nat} (hk : k < 128) (h : b.word k ≠ 0) :
    ∃ y < 512, ∃ j < 8, bitOf (b.byte y) j = true := by
  by_contra hno
  have hzero : ∀ y < 512, b.byte y = 0 := fun y hy =>
    eq_zero_of_bitOf fun j hj hset => hno ⟨y, hy, j, hj, hset⟩
  apply h
  rw [Block.word, wordOf_congr fun x hx => hzero (4 * k + x) (by omega)]
  rfl

-- The bits that are set in an indirect block are the bits of a data block.
theorem exists_foreign_bit (h : WellHeld d (d.inode inum.toNat)) (hs : 4096 < d.size inum.toNat) :
    ∃ v : UInt32, ¬ d.Harmless inum.toNat v.toNat := by
  set i := inum.toNat
  have h8 : 8 < chunks (d.size i) := lt_chunks_iff.mpr (by omega)
  have hp : pointers (d.inode i).size.toNat = chunks (d.size i) + 1 := pointers_eq_of_lt h8
  have hrow := h.region 8 (by omega)
  have hptr := (h.region 9 (by omega)).1
  rw [ptrOf_direct le_rfl] at hrow
  rw [ptrOf_entry (by omega)] at hptr
  -- entry 0 names a data block, so it is not 0
  have hword : (d.row ((d.inode i).block 8).toNat).word 0 ≠ 0 := fun hzero => by
    rw [hzero] at hptr
    exact absurd hptr (by decide)
  obtain ⟨y, hy, j, hj, hset⟩ := exists_bitOf_of_word (by omega) hword
  obtain ⟨hblock, -⟩ := bblock_bitNumber (r := ((d.inode i).block 8).toNat) (by omega) hy hj
  have hnum : bitNumber ((d.inode i).block 8).toNat y j < 4294967296 := by
    simp only [bitNumber]
    omega
  refine ⟨UInt32.ofNat (bitNumber ((d.inode i).block 8).toNat y j), ?_⟩
  rw [UInt32.toNat_ofNat_of_lt' hnum]
  rintro (hheld | hclear | hfar)
  · have := bblock_lt (hheld.lt h)
    omega
  · rw [bit_bitNumber d (by omega) hy hj, hset] at hclear
    cases hclear
  · exact hfar (.data (by omega))

theorem RemovesExactly.own (hall : RemovesExactly d inum) (hin : d.InUse inum.toNat)
    (h : WellHeld d (d.inode inum.toNat)) : RemovesOwn d inum.toNat := by
  have hmem : ∀ v x, x ∈ d.removedIds inum.toNat v ↔
      d.Holds inum.toNat x ∨ d.FreedToo inum.toNat v x := fun v x => mem_removedIds hin
  rw [RemovesExactly, wp_removeFile_iff hin h] at hall
  simp only [wp_freeInode_iff] at hall
  have hnot : d.size inum.toNat ≠ 69632 := by
    intro hfull
    -- past the block there may be anything, also the number of a bit that counts
    obtain ⟨v, hv⟩ := exists_foreign_bit h (by omega)
    have hrun := hall v fun hne => absurd hfull hne
    exact hv (harmless_of_removed (hmem v) hin.1 hrun.2 (.entry (by omega) (by rw [hfull])))
  have hrun := hall (d.nextEntry inum.toNat) fun _ => rfl
  exact ⟨hnot, fun id hid => harmless_of_removed (hmem _) hin.1 hrun.2 hid,
    (inUse_markAll_iff (hmem _) hin.1 h).mp hrun.1⟩

theorem RemovesOwn.exactly (hown : RemovesOwn d inum.toNat) (hin : d.InUse inum.toNat)
    (h : WellHeld d (d.inode inum.toNat)) : RemovesExactly d inum := by
  have hmem : ∀ v x, x ∈ d.removedIds inum.toNat v ↔
      d.Holds inum.toNat x ∨ d.FreedToo inum.toNat v x := fun v x => mem_removedIds hin
  rw [RemovesExactly, wp_removeFile_iff hin h]
  simp only [wp_freeInode_iff]
  intro v hv
  obtain rfl := hv hown.notFull
  exact ⟨(inUse_markAll_iff (hmem _) hin.1 h).mpr hown.type,
    removed_of_harmless (hmem _) hin.1 h hown.harmless _⟩

/-- `remove_file` removes its file and nothing else if and only if the ids it frees besides the blocks
of the file do no harm. -/
theorem removesExactly_iff (hin : d.InUse inum.toNat) (h : WellHeld d (d.inode inum.toNat)) :
    RemovesExactly d inum ↔ RemovesOwn d inum.toNat :=
  ⟨fun hall => hall.own hin h, fun hown => hown.exactly hin h⟩

end Exact

/-- A file of 5000 bytes has no direct slot to spare, and its last chunk is partial. -/
theorem removesExactly_iff_put : ∃ d, d.size 0 = 5000 ∧ RemovesExactly d 0 := by
  obtain ⟨d, hd, hin, hsize⟩ := exists_root_of_size (n := 5000) ⟨by decide, by omega⟩
  have hnone : ∀ v id, ¬ d.FreedToo 0 v id := by
    intro v id hid
    cases hid with
    | direct hk h8 =>
      rw [hsize] at hk
      exact absurd (hk.trans_lt h8) (by decide)
    | entry _ hmod => omega
  obtain ⟨o, ho, x, hx, hset⟩ := (inUse_iff_bit (by omega)).mp hin
  have hroot : d.InUse (0 : UInt32).toNat := hin
  refine ⟨d, hsize, (removesExactly_iff hroot (hd.sound.wellHeld hin)).mpr ⟨?_, ?_, ?_⟩⟩
  · rw [UInt32.toNat_zero, hsize]
    decide
  · exact fun id hid => absurd hid (hnone _ id)
  · exact ⟨o, ho, x, hx, hset, hnone _ x⟩

theorem ExclusiveOwnership.wellHeld {d : Disk} (h : ExclusiveOwnership d) {i : Nat}
    (hin : d.InUse i) : WellHeld d (d.inode i) := by
  have hmem : ∀ p < pointers (d.size i), d.ptr i p ∈ heldBlocks d i := fun p hp =>
    mem_heldBlocks.mpr ⟨p, hp, rfl⟩
  refine ⟨fun p hp => h.region i hin _ (hmem p hp), fun p hp => ?_, fun p hp q hq he => ?_⟩
  · exact mem_used.mpr ⟨(h.region i hin _ (hmem p hp)).2, h.marked i hin _ (hmem p hp)⟩
  · have hnodup := h.nodup i hin
    rw [heldBlocks_eq] at hnodup
    exact List.inj_on_of_nodup_map hnodup (List.mem_range.mpr hp) (List.mem_range.mpr hq) he

/-- File 0 has shrunk to nothing and keeps the id of its first block, which file 1 has now. -/
theorem not_removesExactly_stale : ¬ ∀ d, Reachable d → ExclusiveOwnership d →
    ∀ inum : UInt32, d.InUse inum.toNat → d.size inum.toNat ≤ blockSize * maxFile →
      RemovesExactly d inum := by
  intro h
  obtain ⟨d, hd, hp⟩ := exists_roomilyReachable staleRun
    (fun d => decide (d.InUse 0 ∧ heldBlocks d 0 = [] ∧ heldBlocks d 1 = [123] ∧ d.bit 123 = true ∧
      d.size 0 = 0 ∧ (d.inode 0).block 0 = 123) &&
      (List.range 1024).all fun i => decide (i < 2) || !decide (d.InUse i))
    (by decide +kernel) (by decide +kernel)
  rw [Bool.and_eq_true, decide_eq_true_eq, List.all_eq_true] at hp
  obtain ⟨⟨hin, hheld, hheld', hbit, hsize, hslot⟩, hothers⟩ := hp
  -- only file 1 has a block
  have hheldBy : ∀ i, d.InUse i → ∀ id ∈ heldBlocks d i, i = 1 ∧ id = 123 := by
    intro i hi id hid
    have hlt := hothers i (List.mem_range.mpr hi.1)
    rw [Bool.or_eq_true, decide_eq_true_eq, Bool.not_eq_true', decide_eq_false_iff_not] at hlt
    have hi2 := hlt.resolve_right (not_not.mpr hi)
    interval_cases i
    · rw [hheld] at hid
      cases hid
    · rw [hheld'] at hid
      exact ⟨rfl, List.mem_singleton.mp hid⟩
  have hown : ExclusiveOwnership d := by
    refine ⟨fun i hi => ?_, fun i hi id hid => ?_, fun i hi id hid => ?_,
      fun i j hi hj hij id hid hid' => ?_⟩
    · rw [List.nodup_iff_count_le_one]
      intro id
      by_cases hid : id ∈ heldBlocks d i
      · obtain ⟨rfl, -⟩ := hheldBy i hi id hid
        rw [hheld']
        exact List.count_le_length
      · rw [List.count_eq_zero_of_not_mem hid]
        exact Nat.zero_le 1
    · obtain ⟨-, rfl⟩ := hheldBy i hi id hid
      decide
    · obtain ⟨-, rfl⟩ := hheldBy i hi id hid
      exact hbit
    · exact hij ((hheldBy i hi id hid).1.trans (hheldBy j hj id hid').1.symm)
  have hexact := h d hd.reachable hown 0 hin (by
    rw [UInt32.toNat_zero, hsize]
    exact Nat.zero_le _)
  have hfreed : d.FreedToo 0 (d.nextEntry 0) 123 := by
    have hslot' : ((d.inode 0).block 0).toNat = 123 := by rw [hslot]; rfl
    rw [← hslot']
    exact .direct (by rw [hsize]; decide) (by omega)
  rcases (hexact.own hin (hown.wellHeld hin)).harmless 123 hfreed with hholds | hclear | hfar
  · obtain ⟨-, hptr⟩ := hholds
    have hmem := mem_heldBlocks.mpr hptr
    rw [UInt32.toNat_zero, hheld] at hmem
    cases hmem
  · cases hbit.symm.trans hclear
  · exact hfar (.bitmap (by decide))

end InodeFs
