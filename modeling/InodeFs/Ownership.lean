import InodeFs.WriteFile
import InodeFs.RemoveFile

/-!
# One request keeps the files apart

`PutSafe` and `RemoveSafe` say when `write_file` and `remove_file` free and reuse just the blocks of
their own file.  Under them every request keeps `Sound`, and leaves the other files intact.
-/

namespace InodeFs

open Disk

/-- From `d` to `e`, file `j` keeps its record and its blocks their contents. -/
structure Disk.Intact (d e : Disk) (j : Nat) : Prop where
  inode : e.inode j = d.inode j
  rows : ∀ p < pointers (d.size j), e.row (d.ptr j p) = d.row (d.ptr j p)

namespace Disk.Intact

variable {d e : Disk} {j : Nat}

theorem size (h : d.Intact e j) : e.size j = d.size j := by rw [Disk.size, h.inode]; rfl

theorem inUse (h : d.Intact e j) : e.InUse j ↔ d.InUse j := by rw [InUse, h.inode]; rfl

theorem ptr (h : d.Intact e j) {p : Nat} (hp : p < pointers (d.size j)) :
    e.ptr j p = d.ptr j p := by
  rw [Disk.ptr, Disk.ptr, h.inode]
  by_cases h8 : p ≤ 8
  · rw [ptrOf_direct h8, ptrOf_direct h8]
  · have hrow := h.rows 8 (by omega)
    rw [ptr_direct le_rfl] at hrow
    rw [ptrOf_entry (by omega), ptrOf_entry (by omega), hrow]

theorem fileByte (h : d.Intact e j) {k : Nat} (hk : k < d.size j) :
    e.fileByte j k = d.fileByte j k := by
  have hp := chunkPtr_lt (lt_chunks_iff.mpr (show 512 * (k / 512) < d.size j by omega))
  rw [Disk.fileByte, h.ptr hp, h.rows _ hp, Disk.fileByte]

theorem contents (h : d.Intact e j) : e.contents j = d.contents j := by
  rw [Disk.contents, h.size, Disk.contents]
  refine List.map_congr_left fun k hk => ?_
  exact h.fileByte (List.mem_range.mp hk)

end Disk.Intact

/-- What `Sound` asks of inode `i` alone, next to the other files of `d`. -/
structure Own (d e : Disk) (i : Nat) : Prop where
  sizeOk : SizeOk (e.size i)
  ascending : Ascending (e.inode i)
  region : ∀ p < pointers (e.size i), 123 ≤ e.ptr i p ∧ e.ptr i p < 32768
  used : ∀ p < pointers (e.size i), e.ptr i p ∈ e.used
  distinct : ∀ p < pointers (e.size i), ∀ q < pointers (e.size i), e.ptr i p = e.ptr i q → p = q
  apart : ∀ p < pointers (e.size i), ∀ j ≠ i, ¬ d.Holds j (e.ptr i p)

-- A step that touches only inode `i` and blocks that no other file holds.
theorem Sound.update {d e : Disk} {i : Nat} (h : Sound d)
    (hothers : ∀ j ≠ i, e.InUse j → d.InUse j ∧ d.Intact e j ∧
      ∀ p < pointers (d.size j), d.ptr j p ∈ e.used)
    (hown : e.InUse i → Own d e i) : Sound e := by
  have hholds : ∀ j ≠ i, e.InUse j → ∀ p < pointers (e.size j), d.Holds j (e.ptr j p) := by
    intro j hj hin p hp
    obtain ⟨hd, hi, -⟩ := hothers j hj hin
    rw [hi.size] at hp
    exact ⟨hd, p, hp, (hi.ptr hp).symm⟩
  constructor
  · intro j hin
    by_cases hj : j = i
    · subst hj
      exact (hown hin).sizeOk
    · obtain ⟨hd, hi, -⟩ := hothers j hj hin
      rw [hi.size]
      exact h.sizeOk j hd
  · intro j hin
    by_cases hj : j = i
    · subst hj
      exact (hown hin).ascending
    · obtain ⟨hd, hi, -⟩ := hothers j hj hin
      rw [hi.inode]
      exact h.ascending j hd
  · intro j hin p hp
    by_cases hj : j = i
    · subst hj
      exact (hown hin).region p hp
    · obtain ⟨hd, hi, -⟩ := hothers j hj hin
      rw [hi.size] at hp
      rw [hi.ptr hp]
      exact h.region j hd p hp
  · intro j hin p hp
    by_cases hj : j = i
    · subst hj
      exact (hown hin).used p hp
    · obtain ⟨hd, hi, hu⟩ := hothers j hj hin
      rw [hi.size] at hp
      rw [hi.ptr hp]
      exact hu p hp
  · intro j k hjin hkin p hp q hq he
    by_cases hj : j = i <;> by_cases hk : k = i
    · subst hj hk
      exact ⟨rfl, (hown hjin).distinct p hp q hq he⟩
    · subst hj
      exact absurd (he ▸ hholds k hk hkin q hq) ((hown hjin).apart p hp k hk)
    · subst hk
      exact absurd (he ▸ hholds j hj hjin p hp) ((hown hkin).apart q hq j hj)
    · obtain ⟨hdj, hij, -⟩ := hothers j hj hjin
      obtain ⟨hdk, hik, -⟩ := hothers k hk hkin
      rw [hij.size] at hp
      rw [hik.size] at hq
      rw [hij.ptr hp, hik.ptr hq] at he
      exact h.owner j k hdj hdk p hp q hq he

/-! ## `write_file` -/

/-- A put of `s` bytes to inode `i` puts every chunk where the reader looks for it, reuses just the
entries that the old file has, and frees just those that the new one has not. -/
structure PutLaysOut (d : Disk) (i s : Nat) : Prop where
  sizeOk : SizeOk s
  grow : 4096 < d.size i → chunks (d.size i) < chunks s → s % 512 ≠ 0 → d.size i + 512 ≤ s
  shrink : 4096 < s → s < d.size i → chunks (d.size i - s) + chunks s = chunks (d.size i)

/-- A put of `s` bytes to inode `i` frees and reuses its own blocks only. -/
structure PutSafe (d : Disk) (i s : Nat) : Prop extends PutLaysOut d i s where
  /-- What a stale slot names, when the write frees it, is no block of another file. -/
  stale : ∀ k < 9, pointers (d.size i) ≤ k → (k = 8 → chunks s ≤ 8) →
    ∀ j ≠ i, ¬ d.Holds j ((d.inode i).block k).toNat
  fits : allocsBefore (d.inode i) (pointers s) ≤ (d.available (d.inode i)).card

section Put
variable {d e : Disk} {i s : Nat} {buf : Mem}

theorem PutLaysOut.writeOk (h : PutLaysOut d i s) (hd : Sound d) (hin : d.InUse i)
    (hfits : allocsBefore (d.inode i) (pointers s) ≤ (d.available (d.inode i)).card) :
    WriteOk d (d.inode i) s where
  sizeOk := h.sizeOk
  oldSizeOk := hd.sizeOk i hin
  grow := h.grow
  shrink := h.shrink
  ascending := hd.ascending i hin
  region := hd.region i hin
  used := hd.used i hin
  distinct := fun p hp q hq he => (hd.owner i i hin hin p hp q hq he).2
  fits := hfits

theorem PutSafe.writeOk (h : PutSafe d i s) (hd : Sound d) (hin : d.InUse i) :
    WriteOk d (d.inode i) s := h.toPutLaysOut.writeOk hd hin h.fits

-- Enough free blocks for the whole new file are enough.
theorem fits_of_free {ino : Inode} (h : pointers s ≤ (freeIn d.used).card) :
    allocsBefore ino (pointers s) ≤ (d.available ino).card := by
  have hsub : freeIn d.used ⊆ d.available ino := by
    intro id hid
    obtain ⟨hreg, hno⟩ := mem_freeIn.mp hid
    exact mem_available.mpr ⟨hreg, fun hrel => hno (mem_released.mp hrel).1⟩
  have hcard := Finset.card_le_card hsub
  have hle : allocsBefore ino (pointers s) ≤ pointers s := by
    unfold allocsBefore
    split <;> omega
  omega

-- What a direct slot names is no block of another file, stale or not.
theorem PutSafe.direct_apart (h : PutSafe d i s) (hd : Sound d) (hin : d.InUse i) {k j : Nat}
    (hk : k < 9) (hk8 : k = 8 → chunks s ≤ 8) (hj : j ≠ i) :
    ¬ d.Holds j ((d.inode i).block k).toNat := by
  by_cases hp : k < pointers (d.size i)
  · rintro ⟨hjin, q, hq, he⟩
    rw [← ptrOf_direct (d := d) (show k ≤ 8 by omega)] at he
    exact hj (hd.owner j i hjin hin q hq k hp he).1
  · exact h.stale k hk (by omega) hk8 j hj

-- The blocks of the other files stay marked when the direct blocks are freed.
theorem PutSafe.ptr_mem_released (h : PutSafe d i s) (hd : Sound d) (hin : d.InUse i) {j p : Nat}
    (hj : j ≠ i) (hjin : d.InUse j) (hp : p < pointers (d.size j)) :
    d.ptr j p ∈ d.released (d.inode i) := by
  refine mem_released.mpr ⟨hd.used j hjin p hp, fun k hk he => ?_⟩
  exact h.direct_apart hd hin (show k < 9 by omega) (by omega) hj ⟨hjin, p, hp, he⟩

-- The new pointers name no block of another file.
theorem PutSafe.newPtr_apart (h : PutSafe d i s) (hd : Sound d) (hin : d.InUse i) {j p : Nat}
    (hj : j ≠ i) (hp : p < pointers s) : ¬ d.Holds j (d.newPtr (d.inode i) p) := by
  have hok := h.writeOk hd hin
  rintro ⟨hjin, q, hq, he⟩
  by_cases hk : Kept (d.inode i) p
  · rw [newPtr_of_kept hk] at he
    exact hj (hd.owner j i hjin hin q hq p hk.lt he).1
  · rw [newPtr_of_not_kept hk] at he
    have hmem := h.ptr_mem_released hd hin hj hjin hq
    rw [he] at hmem
    exact (fresh_mem (hok.allocsBefore_lt hp hk)).2 hmem

-- What is freed last is no block of another file.
theorem PutSafe.dropped_apart (h : PutSafe d i s) (hd : Sound d) (hin : d.InUse i) {j id : Nat}
    (hj : j ≠ i) (hid : d.Dropped (d.inode i) s id) : ¬ d.Holds j id := by
  rcases hid with ⟨hn, rfl⟩ | ⟨hn, p, hp, hp', rfl⟩
  · exact h.direct_apart hd hin (by omega) (fun _ => hn) hj
  · rintro ⟨hjin, q, hq, he⟩
    have hlt : p < pointers (d.size i) := by
      have : 8 < chunks (d.size i) := by change 8 < chunks (d.inode i).size.toNat; omega
      rw [pointers_eq_of_lt this]
      exact Nat.lt_succ_of_le hp'
    exact hj (hd.owner j i hjin hin q hq p hlt he).1

-- The disk after `write_file`, whose last step stores the record.
theorem Stored.row (h : Stored d (d.inode i) buf s e) (hi : i < 1024) {r : Nat} (hr : 123 ≤ r)
    (hne : ∀ p < pointers s, r ≠ d.newPtr (d.inode i) p) :
    (e.setInode i (d.written (d.inode i) s)).row r = d.row r := by
  rw [row_setInode_data _ _ hi hr, h.other r hr hne]

theorem Stored.inode_ne (h : Stored d (d.inode i) buf s e) {j : Nat} (hj : j < 1024)
    (hji : j ≠ i) : (e.setInode i (d.written (d.inode i) s)).inode j = d.inode j := by
  have hb := tableBlock_bounds hj
  rw [inode_setInode_ne _ _ hji]
  exact inode_congr (h.table _ hb.1 hb.2)

theorem PutSafe.intact (h : PutSafe d i s) (hd : Sound d) (hin : d.InUse i)
    (he : Stored d (d.inode i) buf s e) {j : Nat} (hj : j ≠ i) (hjin : d.InUse j) :
    d.Intact (e.setInode i (d.written (d.inode i) s)) j where
  inode := he.inode_ne hjin.1 hj
  rows := fun p hp => by
    refine he.row hin.1 (hd.region j hjin p hp).1 fun q hq heq => ?_
    exact h.newPtr_apart hd hin hj hq ⟨hjin, p, hp, heq⟩

theorem WriteOk.size (hok : WriteOk d (d.inode i) s) (hi : i < 1024) (e : Disk) :
    (e.setInode i (d.written (d.inode i) s)).size i = s := by
  have hs := hok.sizeOk.le
  rw [Disk.size, inode_setInode_self _ _ hi]
  exact UInt32.toNat_ofNat_of_lt' (by simp only [UInt32.size]; omega)

-- The pointers of the new file are those of the plan.
theorem Stored.ptr (he : Stored d (d.inode i) buf s e) (hok : WriteOk d (d.inode i) s)
    (hi : i < 1024) {p : Nat} (hp : p < pointers s) :
    (e.setInode i (d.written (d.inode i) s)).ptr i p = d.newPtr (d.inode i) p := by
  have hreg := hok.newPtr_region hp
  rw [Disk.ptr, inode_setInode_self _ _ hi]
  by_cases h8 : p ≤ 8
  · rw [ptrOf_direct h8, hok.block_written (by omega), if_pos hp]
  · have h8reg := hok.newPtr_region (show 8 < pointers s by omega)
    rw [ptrOf_entry (by omega), hok.block_written (by omega), if_pos (by omega),
      row_setInode_data _ _ hi h8reg.1, he.entries p (by omega) hp, toNat_ofNat (by omega)]

-- The new file holds the bytes of the buffer.
theorem Stored.fileByte (he : Stored d (d.inode i) buf s e) (hok : WriteOk d (d.inode i) s)
    (hi : i < 1024) {k : Nat} (hk : k < s) :
    (e.setInode i (d.written (d.inode i) s)).fileByte i k = buf k := by
  have hc : k / 512 < chunks s := lt_chunks_iff.mpr (by omega)
  have hp := chunkPtr_lt hc
  have hreg := hok.newPtr_region hp
  rw [Disk.fileByte, he.ptr hok hi hp, row_setInode_data _ _ hi hreg.1,
    he.data _ hc _ (by omega) (by omega), show 512 * (k / 512) + k % 512 = k by omega]

theorem PutSafe.used_apart (h : PutSafe d i s) (hd : Sound d) (hin : d.InUse i)
    (he : Stored d (d.inode i) buf s e) {j p : Nat} (hj : j ≠ i) (hjin : d.InUse j)
    (hp : p < pointers (d.size j)) : d.ptr j p ∈ e.used := by
  refine (he.used _).mpr ⟨mem_taken.mpr (.inl (h.ptr_mem_released hd hin hj hjin hp)), ?_⟩
  exact fun hdrop => h.dropped_apart hd hin hj hdrop ⟨hjin, p, hp, rfl⟩

theorem Stored.inUse_iff (he : Stored d (d.inode i) buf s e) (hin : d.InUse i) {j : Nat} :
    (e.setInode i (d.written (d.inode i) s)).InUse j ↔ d.InUse j := by
  by_cases hji : j = i
  · subst hji
    rw [InUse, inode_setInode_self _ _ hin.1]
    exact Iff.rfl
  · refine and_congr_right fun hj => ?_
    rw [he.inode_ne hj hji]

/-- A safe put keeps the files apart. -/
theorem PutSafe.sound (h : PutSafe d i s) (hd : Sound d) (hin : d.InUse i)
    (he : Stored d (d.inode i) buf s e) : Sound (e.setInode i (d.written (d.inode i) s)) := by
  have hok := h.writeOk hd hin
  refine hd.update (i := i) (fun j hj hjin => ?_) fun _ => ?_
  · have hjd := (he.inUse_iff hin).mp hjin
    refine ⟨hjd, h.intact hd hin he hj hjd, fun p hp => ?_⟩
    rw [used_setInode]
    exact h.used_apart hd hin he hj hjd hp
  · have hsize := hok.size hin.1 e
    constructor
    · rw [hsize]; exact h.sizeOk
    · rw [inode_setInode_self _ _ hin.1]; exact hok.ascending_written
    · intro p hp
      rw [hsize] at hp
      rw [he.ptr hok hin.1 hp]
      exact hok.newPtr_region hp
    · intro p hp
      rw [hsize] at hp
      rw [he.ptr hok hin.1 hp, used_setInode, he.used]
      exact ⟨hok.writable.newPtr_mem_taken hp, hok.newPtr_not_dropped hp⟩
    · intro p hp q hq heq
      rw [hsize] at hp hq
      rw [he.ptr hok hin.1 hp, he.ptr hok hin.1 hq] at heq
      exact hok.newPtr_inj hp hq heq
    · intro p hp j hj
      rw [hsize] at hp
      rw [he.ptr hok hin.1 hp]
      exact h.newPtr_apart hd hin hj hp

end Put

/-! ## `remove_file` -/

/-- Removing inode `i` frees its own blocks only. -/
structure RemoveSafe (d : Disk) (i : Nat) : Prop where
  stale : ∀ k < 8, pointers (d.size i) ≤ k → ∀ j ≠ i, ¬ d.Holds j ((d.inode i).block k).toNat
  /-- The loop over the indirect block stops at the last entry of the file. -/
  partialChunk : 4096 < d.size i → d.size i % 512 ≠ 0

section Remove
variable {d e : Disk} {i : Nat}

theorem RemoveSafe.frees_apart (h : RemoveSafe d i) (hd : Sound d) (hin : d.InUse i) {j id : Nat}
    (hj : j ≠ i) (hid : d.RemoveFrees i id) : ¬ d.Holds j id := by
  have hown : ∀ p < pointers (d.size i), ¬ d.Holds j (d.ptr i p) := by
    rintro p hp ⟨hjin, q, hq, he⟩
    exact hj (hd.owner j i hjin hin q hq p hp he).1
  rcases hid with ⟨k, hk, rfl⟩ | ⟨p, -, hp, rfl⟩
  · by_cases hp : k < pointers (d.size i)
    · have := hown k hp
      rwa [ptr_direct (by omega)] at this
    · exact h.stale k hk (by omega) j hj
  · exact hown p hp

theorem Disk.Freed.inode {P : Nat → Prop} (he : d.Freed P e) {j : Nat} (hj : j < 1024) :
    e.inode j = d.inode j := inode_congr (he.rows _ (tableBlock_bounds hj).1)

theorem Sound.intact_of_freed (hd : Sound d) (hin : d.InUse i) {P : Nat → Prop} (he : d.Freed P e)
    {j : Nat} (hj : j ≠ i) (hjin : d.InUse j) :
    d.Intact (e.setInode i (d.inode i).setTypeFree) j where
  inode := by rw [inode_setInode_ne _ _ hj, he.inode hjin.1]
  rows := fun p hp => by
    have hreg := (hd.region j hjin p hp).1
    rw [row_setInode_data _ _ hin.1 hreg, he.rows _ (by omega)]

theorem not_inUse_setTypeFree (hi : i < 1024) (ino : Inode) :
    ¬ (e.setInode i ino.setTypeFree).InUse i := by
  rw [InUse, inode_setInode_self _ _ hi]
  exact fun h => h.2 rfl

/-- A safe remove keeps the files apart. -/
theorem RemoveSafe.sound (h : RemoveSafe d i) (hd : Sound d) (hin : d.InUse i)
    (he : d.Freed (d.RemoveFrees i) e) : Sound (e.setInode i (d.inode i).setTypeFree) := by
  refine hd.update (i := i) (fun j hj hjin => ?_) fun hi => absurd hi (not_inUse_setTypeFree hin.1 _)
  have hjd : d.InUse j := by
    rw [InUse, inode_setInode_ne _ _ hj, he.inode hjin.1] at hjin
    exact hjin
  refine ⟨hjd, hd.intact_of_freed hin he hj hjd, fun p hp => ?_⟩
  rw [used_setInode, he.used]
  exact ⟨hd.used j hjd p hp, fun hfree => h.frees_apart hd hin hj hfree ⟨hjd, p, hp, rfl⟩⟩

end Remove

/-! ## Records that hold no block, and access times -/

section Table
variable {d : Disk} {i : Nat}

theorem intact_setInode (hd : Sound d) (hi : i < 1024) (ino : Inode) {j : Nat} (hj : j ≠ i)
    (hjin : d.InUse j) : d.Intact (d.setInode i ino) j where
  inode := inode_setInode_ne d ino hj
  rows := fun p hp => row_setInode_data d ino hi (hd.region j hjin p hp).1

-- Creating an inode keeps the files apart, even when it overwrites one.
theorem Sound.create (hd : Sound d) (hi : i < 1024) (type : UInt32) (time : Nat → UInt32) :
    Sound (d.setInode i (newInode type time)) := by
  refine hd.update (i := i) (fun j hj hjin => ?_) fun _ => ?_
  · have hjd := (inUse_setInode_ne d _ hj).mp hjin
    refine ⟨hjd, intact_setInode hd hi _ hj hjd, fun p hp => ?_⟩
    rw [used_setInode]
    exact hd.used j hjd p hp
  · have hrec := inode_setInode_self d (newInode type time) hi
    have hsize : (d.setInode i (newInode type time)).size i = 0 := by rw [Disk.size, hrec]; rfl
    have hnone : ∀ p, ¬ p < pointers ((d.setInode i (newInode type time)).size i) := by
      intro p
      rw [hsize]
      exact Nat.not_lt_zero p
    constructor
    · rw [hsize]; exact ⟨Nat.zero_le _, by omega⟩
    · intro p hp h0
      rw [hrec] at h0
      refine absurd ?_ h0
      unfold Inode.block newInode Inode.zero
      split <;> rfl
    all_goals exact fun p hp => absurd hp (hnone p)

theorem size_setAtime (hi : i < 1024) (now : UInt32) :
    (d.setInode i ((d.inode i).setAtime now)).size i = d.size i := by
  rw [Disk.size, inode_setInode_self _ _ hi]
  rfl

theorem Sound.ptr_setAtime (hd : Sound d) (hin : d.InUse i) (now : UInt32) {p : Nat}
    (hp : p < pointers (d.size i)) :
    (d.setInode i ((d.inode i).setAtime now)).ptr i p = d.ptr i p := by
  rw [Disk.ptr, inode_setInode_self _ _ hin.1, Disk.ptr]
  by_cases h8 : p ≤ 8
  · rw [ptrOf_direct h8, ptrOf_direct h8, Inode.block_setAtime]
  · have h8reg := (hd.region i hin 8 (by omega)).1
    rw [ptr_direct le_rfl] at h8reg
    rw [ptrOf_entry (by omega), ptrOf_entry (by omega), Inode.block_setAtime,
      row_setInode_data _ _ hin.1 h8reg]

theorem Sound.fileByte_setAtime (hd : Sound d) (hin : d.InUse i) (now : UInt32) {k : Nat}
    (hk : k < d.size i) :
    (d.setInode i ((d.inode i).setAtime now)).fileByte i k = d.fileByte i k := by
  have hp := chunkPtr_lt (lt_chunks_iff.mpr (show 512 * (k / 512) < d.size i by omega))
  rw [Disk.fileByte, hd.ptr_setAtime hin now hp,
    row_setInode_data _ _ hin.1 (hd.region i hin _ hp).1, Disk.fileByte]

-- Reading a file leaves every file intact but for its access time.
theorem Sound.read (hd : Sound d) (hin : d.InUse i) (now : UInt32) :
    Sound (d.setInode i ((d.inode i).setAtime now)) := by
  have hsize := size_setAtime (d := d) hin.1 now
  have hptr : ∀ p < pointers (d.size i), _ := fun p hp => hd.ptr_setAtime hin now hp
  refine hd.update (i := i) (fun j hj hjin => ?_) fun _ => ?_
  · have hjd := (inUse_setInode_ne d _ hj).mp hjin
    refine ⟨hjd, intact_setInode hd hin.1 _ hj hjd, fun p hp => ?_⟩
    rw [used_setInode]
    exact hd.used j hjd p hp
  · constructor
    · rw [hsize]; exact hd.sizeOk i hin
    · rw [inode_setInode_self _ _ hin.1]; exact hd.ascending i hin
    all_goals rw [hsize]
    · intro p hp
      rw [hptr p hp]; exact hd.region i hin p hp
    · intro p hp
      rw [hptr p hp, used_setInode]; exact hd.used i hin p hp
    · intro p hp q hq heq
      rw [hptr p hp, hptr q hq] at heq
      exact (hd.owner i i hin hin p hp q hq heq).2
    · rintro p hp j hj ⟨hjin, q, hq, heq⟩
      rw [hptr p hp] at heq
      exact hj (hd.owner j i hjin hin q hq p hp heq).1

end Table

end InodeFs
