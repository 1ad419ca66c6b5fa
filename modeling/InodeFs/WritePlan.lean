import InodeFs.Layout

/-!
# Where `write_file` puts a file

`write_file` first frees the eight direct blocks, those past the end of the file included.  It then
sets the pointers of the new file in order: those that an old indirect block still names keep their
blocks, and `alloc_block` provides the others.  This is the plan as a function of the bitmap and of
the old pointers; `InodeFs.WriteFile` shows that the loop follows it.
-/

namespace InodeFs

open Lowest

namespace Disk

variable (d : Disk) (ino : Inode)

/-- The bitmap once the eight direct blocks are freed. -/
def released : Finset Nat := d.used \ (Finset.range 8).image fun k => (ino.block k).toNat

/-- The data blocks that are then free. -/
def available : Finset Nat := freeIn (d.released ino)

/-- The answer to call `k` of `alloc_block` from there on. -/
noncomputable def fresh (k : Nat) : Nat := nthFree (d.available ino) k

/-- The bitmap after `k` calls of `alloc_block`. -/
noncomputable def taken (k : Nat) : Finset Nat :=
  d.released ino ∪ (Finset.range k).image (d.fresh ino)

/-- Pointer `p` keeps its block. -/
def Kept (p : Nat) : Prop :=
  8 ≤ p ∧ 8 < chunks ino.size.toNat ∧ p ≤ chunks ino.size.toNat

instance (p : Nat) : Decidable (Kept ino p) := inferInstanceAs (Decidable (_ ∧ _))

/-- How many calls of `alloc_block` come before pointer `p` is set. -/
def allocsBefore (p : Nat) : Nat :=
  if p ≤ 8 ∨ chunks ino.size.toNat ≤ 8 then p else 8 + (p - (chunks ino.size.toNat + 1))

/-- Pointer `p` of the new file. -/
noncomputable def newPtr (p : Nat) : Nat :=
  if Kept ino p then d.ptrOf ino p else d.fresh ino (allocsBefore ino p)

/-- The record when the pointers of `n` chunks are set. -/
noncomputable def inoAt (n : Nat) : Inode :=
  { ino with blocks := fun p =>
      if p.val < ptrCount n then UInt32.ofNat (d.newPtr ino p) else ino.blocks p }

/-- The record that `write_file` stores for `s` bytes. -/
noncomputable def written (s : Nat) : Inode := (d.inoAt ino (chunks s)).setSize (UInt32.ofNat s)

end Disk

/-- A write of `s` bytes to a file with record `ino` does its work: the new size is laid out as the
reader expects, the write loop reuses just the entries that the old file has, the shrink loop frees
just those that the new file has not, and there are blocks enough. -/
structure WriteOk (d : Disk) (ino : Inode) (s : Nat) : Prop where
  sizeOk : SizeOk s
  oldSizeOk : SizeOk ino.size.toNat
  grow : 4096 < ino.size.toNat → chunks ino.size.toNat < chunks s → s % 512 ≠ 0 →
    ino.size.toNat + 512 ≤ s
  shrink : 4096 < s → s < ino.size.toNat →
    chunks (ino.size.toNat - s) + chunks s = chunks ino.size.toNat
  ascending : Ascending ino
  region : ∀ p < pointers ino.size.toNat, 123 ≤ d.ptrOf ino p ∧ d.ptrOf ino p < 32768
  used : ∀ p < pointers ino.size.toNat, d.ptrOf ino p ∈ d.used
  distinct : ∀ p < pointers ino.size.toNat, ∀ q < pointers ino.size.toNat,
    d.ptrOf ino p = d.ptrOf ino q → p = q
  fits : Disk.allocsBefore ino (pointers s) ≤ (d.available ino).card

/-- What the write loop itself relies on: nothing is said of the slots past the end of the file, nor
of the old size next to the new one. -/
structure Writable (d : Disk) (ino : Inode) (s : Nat) : Prop where
  sizeOk : SizeOk s
  region : ∀ p < pointers ino.size.toNat, 123 ≤ d.ptrOf ino p ∧ d.ptrOf ino p < 32768
  used : ∀ p < pointers ino.size.toNat, d.ptrOf ino p ∈ d.used
  distinct : ∀ p < pointers ino.size.toNat, ∀ q < pointers ino.size.toNat,
    d.ptrOf ino p = d.ptrOf ino q → p = q
  fits : Disk.allocsBefore ino (pointers s) ≤ (d.available ino).card

theorem WriteOk.writable {d : Disk} {ino : Inode} {s : Nat} (h : WriteOk d ino s) :
    Writable d ino s := ⟨h.sizeOk, h.region, h.used, h.distinct, h.fits⟩

namespace Disk

variable {d : Disk} {ino : Inode} {s : Nat}

theorem mem_released {id : Nat} :
    id ∈ d.released ino ↔ id ∈ d.used ∧ ∀ k < 8, id ≠ (ino.block k).toNat := by
  simp only [released, Finset.mem_sdiff, Finset.mem_image, Finset.mem_range, not_exists, not_and]
  exact and_congr_right fun _ => forall₂_congr fun k _ => ⟨Ne.symm, Ne.symm⟩

theorem mem_available {id : Nat} :
    id ∈ d.available ino ↔ (123 ≤ id ∧ id < 32768) ∧ id ∉ d.released ino := mem_freeIn

theorem fresh_mem {k : Nat} (hk : k < (d.available ino).card) :
    (123 ≤ d.fresh ino k ∧ d.fresh ino k < 32768) ∧ d.fresh ino k ∉ d.released ino :=
  mem_available.mp (nthFree_mem hk)

theorem taken_zero : d.taken ino 0 = d.released ino := by
  rw [taken, Finset.range_zero, Finset.image_empty, Finset.union_empty]

theorem taken_succ (k : Nat) : insert (d.fresh ino k) (d.taken ino k) = d.taken ino (k + 1) := by
  rw [taken, taken, Finset.range_add_one, Finset.image_insert, Finset.union_insert]

theorem mem_taken {id k : Nat} :
    id ∈ d.taken ino k ↔ id ∈ d.released ino ∨ ∃ j < k, d.fresh ino j = id := by
  simp only [taken, Finset.mem_union, Finset.mem_image, Finset.mem_range]

theorem freeIn_taken (k : Nat) : freeIn (d.taken ino k) = remaining (d.available ino) k := by
  ext id
  rw [mem_freeIn, mem_taken, mem_remaining, mem_available]
  constructor
  · rintro ⟨hid, hno⟩
    exact ⟨⟨hid, fun h => hno (.inl h)⟩, fun j hj he => hno (.inr ⟨j, hj, he.symm⟩)⟩
  · rintro ⟨⟨hid, hrel⟩, hne⟩
    refine ⟨hid, ?_⟩
    rintro (h | ⟨j, hj, he⟩)
    · exact hrel h
    · exact hne j hj he.symm

theorem allocsBefore_of_le {p : Nat} (h : p ≤ 8 ∨ chunks ino.size.toNat ≤ 8) :
    allocsBefore ino p = p := if_pos h

theorem allocsBefore_of_lt {p : Nat} (hp : 8 ≤ p) (h : 8 < chunks ino.size.toNat) :
    allocsBefore ino p = 8 + (p - (chunks ino.size.toNat + 1)) := by
  unfold allocsBefore
  split <;> omega

theorem block_inoAt (n : Nat) {p : Nat} (hp : p < 9) :
    (d.inoAt ino n).block p =
      if p < ptrCount n then UInt32.ofNat (d.newPtr ino p) else ino.block p := by
  simp only [Inode.block, inoAt, hp, dif_pos]

theorem ext_inoAt {n : Nat} {ino' : Inode} (htype : ino'.type = ino.type)
    (hsize : ino'.size = ino.size) (hatime : ino'.atime = ino.atime)
    (hmtime : ino'.mtime = ino.mtime) (hctime : ino'.ctime = ino.ctime)
    (hblocks : ∀ p < 9, ino'.block p =
      if p < ptrCount n then UInt32.ofNat (d.newPtr ino p) else ino.block p) :
    ino' = d.inoAt ino n := by
  obtain ⟨_, _, _, _, _, blocks⟩ := ino'
  obtain ⟨_, _, _, _, _, blocks'⟩ := ino
  subst htype hsize hatime hmtime hctime
  simp only [inoAt, Inode.mk.injEq, true_and]
  funext p
  simpa only [Inode.block, p.isLt, dif_pos] using hblocks p.val p.isLt

-- The direct section stores one more pointer.
theorem inoAt_setBlock {k : Nat} (hk : k < 8) :
    (d.inoAt ino k).setBlock k (UInt32.ofNat (d.newPtr ino k)) = d.inoAt ino (k + 1) := by
  refine ext_inoAt rfl rfl rfl rfl rfl fun p hp => ?_
  rw [Inode.block_setBlock, block_inoAt k hp, ptrCount_of_le hk.le, ptrCount_of_le hk]
  by_cases hpk : p = k
  · rw [if_pos ⟨hpk, hp⟩, if_pos (by omega), hpk]
  · rw [if_neg fun h => hpk h.1]
    by_cases hlt : p < k
    · rw [if_pos hlt, if_pos (by omega)]
    · rw [if_neg hlt, if_neg (by omega)]

-- The pointer to the indirect block is set with the first chunk behind it.
theorem inoAt_setBlock_eight :
    (d.inoAt ino 8).setBlock 8 (UInt32.ofNat (d.newPtr ino 8)) = d.inoAt ino 9 := by
  refine ext_inoAt rfl rfl rfl rfl rfl fun p hp => ?_
  rw [Inode.block_setBlock, block_inoAt 8 hp, ptrCount_of_le le_rfl,
    ptrCount_of_lt (Nat.lt_succ_self 8), if_pos (show p < 9 + 1 by omega)]
  by_cases hp8 : p = 8
  · rw [if_pos ⟨hp8, hp⟩, hp8]
  · rw [if_neg fun h => hp8 h.1, if_pos (by omega)]

-- From the first chunk behind the indirect block on, the record stays as it is.
theorem inoAt_succ {k : Nat} (hk : 8 < k) : d.inoAt ino (k + 1) = d.inoAt ino k := by
  refine ext_inoAt rfl rfl rfl rfl rfl fun p hp => ?_
  rw [block_inoAt _ hp, ptrCount_of_lt hk, ptrCount_of_lt (by omega), if_pos (by omega),
    if_pos (by omega)]

theorem inoAt_zero : d.inoAt ino 0 = ino := by
  cases ino
  simp only [inoAt, ptrCount, Nat.zero_le, if_pos, Nat.not_lt_zero, if_false]

theorem pointers_eq_of_le {s : Nat} (h : chunks s ≤ 8) : pointers s = chunks s :=
  ptrCount_of_le h

theorem pointers_eq_of_lt {s : Nat} (h : 8 < chunks s) : pointers s = chunks s + 1 :=
  ptrCount_of_lt h

theorem Kept.lt {p : Nat} (hk : Kept ino p) : p < pointers ino.size.toNat := by
  rw [pointers_eq_of_lt hk.2.1]
  have := hk.2.2
  omega

-- Every direct slot of an indirect file is its own.
theorem Kept.direct_lt {p q : Nat} (hk : Kept ino p) (hq : q < 8) :
    q < pointers ino.size.toNat := by
  have := hk.lt
  have := hk.1
  omega

theorem newPtr_of_kept {p : Nat} (hk : Kept ino p) : d.newPtr ino p = d.ptrOf ino p := if_pos hk

theorem newPtr_of_not_kept {p : Nat} (hk : ¬ Kept ino p) :
    d.newPtr ino p = d.fresh ino (allocsBefore ino p) := if_neg hk

theorem block_inoAt_kept (hk : Kept ino 8) (n : Nat) : (d.inoAt ino n).block 8 = ino.block 8 := by
  rw [block_inoAt n (by omega)]
  split
  · rw [newPtr_of_kept hk, ptrOf_direct le_rfl, UInt32.ofNat_toNat]
  · rfl

theorem inoAt_nine_of_kept (hk : Kept ino 8) : d.inoAt ino 9 = d.inoAt ino 8 := by
  rw [← inoAt_setBlock_eight, newPtr_of_kept hk, ptrOf_direct le_rfl, UInt32.ofNat_toNat]
  refine ext_inoAt rfl rfl rfl rfl rfl fun p hp => ?_
  rw [Inode.block_setBlock, block_inoAt 8 hp, ptrCount_of_le le_rfl]
  by_cases hp8 : p = 8
  · rw [if_pos ⟨hp8, hp⟩, if_neg (by omega), hp8]
  · rw [if_neg fun h => hp8 h.1]

end Disk

namespace Writable

open Disk

variable {d : Disk} {ino : Inode} {s : Nat} (h : Writable d ino s)

include h

-- A kept block is still marked when the direct blocks are freed.
theorem kept_mem_released {p : Nat} (hk : Kept ino p) : d.ptrOf ino p ∈ d.released ino := by
  refine mem_released.mpr ⟨h.used p hk.lt, fun q hq he => ?_⟩
  rw [← ptrOf_direct (d := d) (show q ≤ 8 by omega)] at he
  have hpq := h.distinct p hk.lt q (hk.direct_lt hq) he
  have := hk.1
  omega

theorem allocsBefore_lt {p : Nat} (hp : p < pointers s) (hk : ¬ Kept ino p) :
    allocsBefore ino p < (d.available ino).card := by
  refine lt_of_lt_of_le ?_ h.fits
  unfold allocsBefore Kept at *
  split <;> split <;> omega

theorem newPtr_region {p : Nat} (hp : p < pointers s) :
    123 ≤ d.newPtr ino p ∧ d.newPtr ino p < 32768 := by
  by_cases hk : Kept ino p
  · rw [newPtr_of_kept hk]
    exact h.region p hk.lt
  · rw [newPtr_of_not_kept hk]
    exact (fresh_mem (h.allocsBefore_lt hp hk)).1

theorem newPtr_inj {p q : Nat} (hp : p < pointers s) (hq : q < pointers s)
    (he : d.newPtr ino p = d.newPtr ino q) : p = q := by
  by_cases hkp : Kept ino p <;> by_cases hkq : Kept ino q
  · rw [newPtr_of_kept hkp, newPtr_of_kept hkq] at he
    exact h.distinct p hkp.lt q hkq.lt he
  · rw [newPtr_of_kept hkp, newPtr_of_not_kept hkq] at he
    exact absurd (he ▸ h.kept_mem_released hkp) (fresh_mem (h.allocsBefore_lt hq hkq)).2
  · rw [newPtr_of_not_kept hkp, newPtr_of_kept hkq] at he
    exact absurd (he ▸ h.kept_mem_released hkq) (fresh_mem (h.allocsBefore_lt hp hkp)).2
  · rw [newPtr_of_not_kept hkp, newPtr_of_not_kept hkq] at he
    have heq := nthFree_inj (h.allocsBefore_lt hp hkp) (h.allocsBefore_lt hq hkq) he
    unfold allocsBefore Kept at *
    split at heq <;> split at heq <;> omega

-- The new pointers are marked in the bitmap when the last block is allocated.
theorem newPtr_mem_taken {p : Nat} (hp : p < pointers s) :
    d.newPtr ino p ∈ d.taken ino (allocsBefore ino (pointers s)) := by
  by_cases hk : Kept ino p
  · rw [newPtr_of_kept hk]
    exact mem_taken.mpr (.inl (h.kept_mem_released hk))
  · rw [newPtr_of_not_kept hk]
    refine mem_taken.mpr (.inr ⟨_, ?_, rfl⟩)
    unfold allocsBefore Kept at *
    split <;> split <;> omega

end Writable

namespace WriteOk

open Disk

variable {d : Disk} {ino : Inode} {s : Nat} (h : WriteOk d ino s)

include h

theorem newPtr_region {p : Nat} (hp : p < pointers s) :
    123 ≤ d.newPtr ino p ∧ d.newPtr ino p < 32768 := h.writable.newPtr_region hp

theorem newPtr_inj {p q : Nat} (hp : p < pointers s) (hq : q < pointers s)
    (he : d.newPtr ino p = d.newPtr ino q) : p = q := h.writable.newPtr_inj hp hq he

theorem allocsBefore_lt {p : Nat} (hp : p < pointers s) (hk : ¬ Kept ino p) :
    allocsBefore ino p < (d.available ino).card := h.writable.allocsBefore_lt hp hk

-- The blocks below a slot that was ever set are free again, so the allocator does not pass them.
theorem fresh_le_block {p q : Nat} (hp : p < 9) (hqp : q < p) (h0 : ino.block p ≠ 0) :
    d.fresh ino q ≤ (ino.block q).toNat := by
  have hasc := h.ascending
  have hne : ∀ j < p, ino.block j ≠ 0 := fun j hj he => by
    have := ((hasc p hp h0).2.2 j hj).1
    rw [he] at this
    exact absurd this (by decide)
  refine (nthFree_le_of_increasing (F := d.available ino) (f := fun j => (ino.block j).toNat)
    ?_ ?_).2
  · intro j hj
    have hreg := hasc j (by omega) (hne j (by omega))
    refine mem_available.mpr ⟨⟨hreg.1, hreg.2.1⟩, fun hrel => ?_⟩
    exact (mem_released.mp hrel).2 j (by omega) rfl
  · intro i j hij hj
    exact ((hasc j (by omega) (hne j (by omega))).2.2 i hij).2

theorem fresh_lt_block {p q : Nat} (hp : p < 9) (hqp : q < p) (h0 : ino.block p ≠ 0) :
    d.fresh ino q < (ino.block p).toNat :=
  lt_of_le_of_lt (h.fresh_le_block hp hqp h0) ((h.ascending p hp h0).2.2 q hqp).2

theorem newPtr_lt {p q : Nat} (hp : p < 9) (hps : p < pointers s) (hqp : q < p) :
    d.newPtr ino q < d.newPtr ino p := by
  have hq : ¬ Kept ino q := fun hk => by have := hk.1; omega
  rw [newPtr_of_not_kept hq, allocsBefore_of_le (.inl (by omega))]
  by_cases hk : Kept ino p
  · rw [newPtr_of_kept hk, ptrOf_direct (by omega)]
    refine h.fresh_lt_block hp hqp fun h0 => ?_
    have hreg := (h.region p hk.lt).1
    rw [ptrOf_direct (by omega), h0] at hreg
    exact absurd hreg (by decide)
  · have hcard := h.allocsBefore_lt hps hk
    rw [allocsBefore_of_le (.inl (by omega))] at hcard
    rw [newPtr_of_not_kept hk, allocsBefore_of_le (.inl (by omega))]
    exact nthFree_lt hqp hcard

theorem block_written {p : Nat} (hp : p < 9) :
    ((d.written ino s).block p).toNat =
      if p < pointers s then d.newPtr ino p else (ino.block p).toNat := by
  rw [written, Inode.block_setSize, block_inoAt _ hp,
    show ptrCount (chunks s) = pointers s from rfl]
  by_cases hps : p < pointers s
  · have := h.newPtr_region hps
    rw [if_pos hps, if_pos hps, toNat_ofNat (by omega)]
  · rw [if_neg hps, if_neg hps]

-- The record that is stored has its slots in order.
theorem ascending_written : Ascending (d.written ino s) := by
  intro p hp h0
  have hpos : ∀ v : UInt32, 0 < v.toNat ↔ v ≠ 0 := fun v => by
    rw [Nat.pos_iff_ne_zero, ne_eq, ne_eq, ← UInt32.toNat_inj]; rfl
  rw [← hpos, h.block_written hp] at h0
  rw [h.block_written hp]
  by_cases hps : p < pointers s
  · rw [if_pos hps]
    refine ⟨(h.newPtr_region hps).1, (h.newPtr_region hps).2, fun q hq => ?_⟩
    have hreg := h.newPtr_region (show q < pointers s by omega)
    rw [h.block_written (by omega), if_pos (by omega)]
    exact ⟨by omega, h.newPtr_lt hp hps hq⟩
  · rw [if_neg hps, hpos] at h0
    rw [if_neg hps]
    obtain ⟨hlo, hhi, hbelow⟩ := h.ascending p hp h0
    refine ⟨hlo, hhi, fun q hq => ?_⟩
    rw [h.block_written (by omega)]
    by_cases hqs : q < pointers s
    · have hreg := h.newPtr_region hqs
      have hq : ¬ Kept ino q := fun hk => by have := hk.1; omega
      rw [if_pos hqs]
      refine ⟨by omega, ?_⟩
      rw [newPtr_of_not_kept hq, allocsBefore_of_le (.inl (by omega))]
      exact h.fresh_lt_block hp (by omega) h0
    · rw [if_neg hqs]
      exact hbelow q hq

end WriteOk

end InodeFs
