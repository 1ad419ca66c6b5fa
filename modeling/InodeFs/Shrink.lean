import InodeFs.Ownership
import InodeFs.Runs
import InodeFs.Slots

/-!
# What the shrink loop frees

The loop counts bytes, old size minus new size in steps of 512, and not blocks.  It takes one step too
many when the last chunk of the new file is less full than that of the old one.
-/

namespace InodeFs

open BlockLayer InodeLayer Prog Disk

/-! ## Freeing entries -/

/-- `free_block` on each of these entries of an indirect block. -/
def freeEntries (indirectBlock : Block) : List Nat → FsM Unit
  | [] => pure ()
  | x :: xs => do
      let id ← entry indirectBlock x
      freeBlock id
      freeEntries indirectBlock xs

/-- The program calls `free_block` once on each of these entries, in some order, and does nothing
else. -/
def FreesJust {α : Type} (p : FsM α) (indirectBlock : Block) (entries : List Nat) : Prop :=
  ∃ order a, order.Perm entries ∧ p = freeEntries indirectBlock order >>= fun _ => pure a

-- The loop frees as many entries as there are steps of 512 bytes.
theorem shrinkLoop_eq (b : Block) (i n : Nat) :
    ∃ v, shrinkLoop b i n = freeEntries b (List.range' i (chunks n)) >>= fun _ => pure v := by
  -- by induction on the fuel: every step of 512 bytes frees one entry
  have hloop : ∀ fuel (m : Int) i, m.toNat ≤ fuel → ∃ v,
      whileLoop (fun v => decide (v.2 > 0)) (shrinkStep b) fuel (i, m) =
        freeEntries b (List.range' i (chunks m.toNat)) >>= fun _ => pure v := by
    intro fuel
    induction fuel with
    | zero =>
      intro m i hm
      rw [Nat.le_zero.mp hm]
      exact ⟨_, rfl⟩
    | succ fuel ih =>
      intro m i hm
      rw [whileLoop]
      by_cases hpos : m > 0
      · rw [if_pos (decide_eq_true hpos)]
        obtain ⟨v, hv⟩ := ih (m - blockSize) (i + 1) (by simp only [blockSize]; omega)
        have hchunks : chunks m.toNat = chunks (m - blockSize).toNat + 1 := by
          unfold chunks
          simp only [blockSize]
          omega
        refine ⟨v, ?_⟩
        rw [hchunks, List.range'_succ, freeEntries, shrinkStep]
        simp only [bind_assoc, pure_eq, ret_bind]
        simp only [pure_eq] at hv
        rw [hv]
      · rw [if_neg (by rwa [decide_eq_true_eq])]
        rw [show m.toNat = 0 by omega]
        exact ⟨_, rfl⟩
  obtain ⟨v, hv⟩ := hloop n n i (by omega)
  exact ⟨v, hv⟩

/-- The stores of `free_block`. -/
def freeStore : Action → Option Unit
  | .write .freeBlock _ _ => some ()
  | _ => none

-- A list of entries is as long as there are such stores.
theorem collects_freeEntries {α : Type} (b : Block) (xs : List Nat) (a : α) (l : List Unit) :
    Follows (S := FsSig) (collects freeStore) (freeEntries b xs >>= fun _ => pure a)
      (fun _ l' => l'.length = l.length + xs.length) l := by
  induction xs generalizing l with
  | nil => exact rfl
  | cons x xs ih =>
    have hentry : Follows (S := FsSig) (collects freeStore) (entry b x) (fun _ l' => l' = l) l := by
      unfold entry
      split
      · exact rfl
      · exact fun _ => List.append_nil l
    rw [freeEntries, bind_assoc]
    refine Follows.bind (hentry.mono fun id l' hl' => ?_)
    subst hl'
    rw [bind_assoc]
    refine Follows.bind fun _ _ _ => ?_
    refine (ih _).mono fun _ l'' hl'' => ?_
    rw [hl'']
    simp only [freeStore, Option.toList_none, Option.toList_some, List.append_nil, List.length_append,
      List.length_cons, List.length_nil]
    omega

theorem length_eq_of_freesJust {b : Block} {i n m : Nat} {v : Nat × Int}
    (h : FreesJust (freeEntries b (List.range' i n) >>= fun _ => pure v) b (List.range' i m)) :
    n = m := by
  -- run once, the program has stored once for each entry, whichever list it is written with
  obtain ⟨order, a, hperm, heq⟩ := h
  have hloop := collects_freeEntries b (List.range' i n) v []
  have horder := collects_freeEntries b order a []
  obtain ⟨_, _, _, hrun, -⟩ := wp_run (wp_of_collects hloop Disk.init) fun _ _ => 0
  have hn := collects_run hloop hrun
  rw [heq] at hrun hn
  have hm := collects_run horder hrun
  have hlen := hn.symm.trans hm
  rw [hperm.length_eq, List.length_range', List.length_range'] at hlen
  omega

/-! ## Files that shrink -/

/-- The blocks that a file holds are data blocks in use, no two of them the same; its other ids are
arbitrary. -/
structure WellHeld (d : Disk) (ino : Inode) : Prop where
  region : ∀ p < pointers ino.size.toNat, 123 ≤ d.ptrOf ino p ∧ d.ptrOf ino p < 32768
  used : ∀ p < pointers ino.size.toNat, d.ptrOf ino p ∈ d.used
  distinct : ∀ p < pointers ino.size.toNat, ∀ q < pointers ino.size.toNat,
    d.ptrOf ino p = d.ptrOf ino q → p = q

namespace WellHeld

variable {d : Disk} {ino : Inode} {s : Nat} {buf : Mem} (h : WellHeld d ino)

include h

theorem chunks_le : chunks ino.size.toNat ≤ 136 := by
  by_contra hbig
  have hp : 137 < pointers ino.size.toNat := by
    rw [pointers_eq_of_lt (by omega)]
    omega
  -- an indirect block has no entry 128
  have hzero : ∀ b : Block, b.word 128 = 0 := fun b => by
    have hbytes : wordOf (fun k => if h : 4 * 128 + k < 512 then b ⟨4 * 128 + k, h⟩ else 0) =
        wordOf fun _ => 0 := wordOf_congr fun k _ => dif_neg (by omega)
    exact hbytes
  have hreg := (h.region 137 hp).1
  rw [ptrOf_entry (by omega), hzero] at hreg
  exact absurd hreg (by decide)

theorem asInt_size : asInt ino.size = ino.size.toNat := by
  have hle := chunks_le_iff.mp h.chunks_le
  exact asInt_of_lt (by omega)

-- The direct blocks are free when they have been released.
theorem card_available (h8 : 8 ≤ pointers ino.size.toNat) :
    (freeIn d.used).card + 8 ≤ (d.available ino).card := by
  have hdirect : ∀ k < 8, (123 ≤ (ino.block k).toNat ∧ (ino.block k).toNat < 32768) ∧
      (ino.block k).toNat ∈ d.used := fun k hk => by
    rw [← ptrOf_direct (d := d) (show k ≤ 8 by omega)]
    exact ⟨h.region k (by omega), h.used k (by omega)⟩
  -- the blocks that were free, and the eight direct ones
  have hsub : freeIn d.used ∪ ((Finset.range 8).image fun k => (ino.block k).toNat) ⊆
      d.available ino := by
    intro id hid
    rcases Finset.mem_union.mp hid with hid | hid
    · obtain ⟨hreg, hno⟩ := mem_freeIn.mp hid
      exact mem_available.mpr ⟨hreg, fun hrel => hno (mem_released.mp hrel).1⟩
    · obtain ⟨k, hk, rfl⟩ := Finset.mem_image.mp hid
      have hk8 := Finset.mem_range.mp hk
      exact mem_available.mpr ⟨(hdirect k hk8).1, fun hrel => (mem_released.mp hrel).2 k hk8 rfl⟩
  have hdisj : Disjoint (freeIn d.used) ((Finset.range 8).image fun k => (ino.block k).toNat) := by
    refine Finset.disjoint_left.mpr fun id hfree hid => ?_
    obtain ⟨k, hk, rfl⟩ := Finset.mem_image.mp hid
    exact (mem_freeIn.mp hfree).2 (hdirect k (Finset.mem_range.mp hk)).2
  have hcard : ((Finset.range 8).image fun k => (ino.block k).toNat).card = 8 := by
    rw [Finset.card_image_of_injOn, Finset.card_range]
    intro a ha b hb hab
    have ha8 := Finset.mem_range.mp (Finset.mem_coe.mp ha)
    have hb8 := Finset.mem_range.mp (Finset.mem_coe.mp hb)
    refine h.distinct a (by omega) b (by omega) ?_
    rwa [ptrOf_direct (by omega), ptrOf_direct (by omega)]
  have hle := Finset.card_le_card hsub
  rwa [Finset.card_union_of_disjoint hdisj, hcard] at hle

-- A shorter file always fits.
theorem writable_of_shrink (hlo : 4608 ≤ s) (hlt : s < ino.size.toNat) : Writable d ino s := by
  have hle := chunks_le_iff.mp h.chunks_le
  have hold : 8 < chunks ino.size.toNat := lt_chunks_iff.mpr (by omega)
  have hptr : pointers ino.size.toNat = chunks ino.size.toNat + 1 := pointers_eq_of_lt hold
  refine ⟨⟨?_, by omega⟩, h.region, h.used, h.distinct, ?_⟩
  · simp only [blockSize, maxFile, nDirect, nIndirect]
    omega
  · refine le_trans ?_ (le_trans (Nat.le_add_left _ _) (h.card_available (by omega)))
    have hmono : chunks s ≤ chunks ino.size.toNat := by
      unfold chunks
      omega
    unfold allocsBefore pointers ptrCount
    split <;> split <;> omega

-- Before the shrink loop the old indirect block is still there.
theorem wp_writeLoop_shrink (hlo : 4608 ≤ s) (hlt : s < ino.size.toNat) :
    wp (writeLoop ino buf s) (fun w e => Shrinks ino s w ∧ w.indirectIndex = chunks s - 8 ∧
      w.ino.block 8 = ino.block 8 ∧ e.row (ino.block 8).toNat = d.row (ino.block 8).toNat) d := by
  have hw := h.writable_of_shrink hlo hlt
  have hs8 : 8 < chunks s := lt_chunks_iff.mpr (by omega)
  have hmono : chunks s ≤ chunks ino.size.toNat := by
    unfold chunks
    omega
  have hkept8 : Kept ino 8 := ⟨le_rfl, by omega, by omega⟩
  have hdirect : ∀ k < 8, (ino.block k).toNat < 32768 := fun k hk => by
    have hreg := h.region k (hkept8.direct_lt hk)
    rw [ptrOf_direct (by omega)] at hreg
    exact hreg.2
  refine hw.wp_writeLoop h.asInt_size hdirect (fun w e hinv hk h8 hold => ?_)
    fun w e hl => ⟨?_, hl.indirectIndex, ?_, hw.row_indirect hkept8 hs8 le_rfl hl.placed⟩
  · -- the counter stays below the new size, and every chunk has an entry
    have hbytes := lt_chunks_iff.mp hk
    have hnum := hinv.num hk
    rw [if_neg (by omega)] at hnum
    have hkept : Kept ino (w.index + 1) := ⟨by omega, hold, by omega⟩
    exact iff_of_true (by omega) hkept
  · have hneed : w.needToOverwriteIndirect = true := by
      rw [hl.need, decide_eq_true_eq]
      exact hs8
    rw [Shrinks, hneed, Bool.true_and, decide_eq_true_eq, h.asInt_size]
    omega
  · rw [hl.record, block_inoAt_kept hkept8]

end WellHeld

-- Sizes up to 4607 never use the indirect section, whatever the disk is.
theorem wp_writeLoop_direct (ino : Inode) (buf : Mem) {s : Nat} (hs : s < 4608) (d : Disk) :
    wp (writeLoop ino buf s) (fun w _ => ¬ Shrinks ino s w) d := by
  have hs' : s ≤ 69632 := by omega
  have hfree := plain_returns (Plain.forLoop (fun x => plain_freeBlock (ino.block x)) 0 8) d
  rw [writeLoop, wp_bind]
  refine wp_mono hfree fun _ e _ => ?_
  simp only [wp_bind, wp_freshBlock]
  intro final
  -- below 4608 bytes `AtWrite` keeps `needToOverwriteIndirect` false
  refine wp_whileLoop (fun w _ => ∃ k ≤ chunks s, AtWrite s k w)
    (fun w => w.remainingBytesToWrite.toNat) ⟨0, Nat.zero_le _, atWrite_start ino s final⟩
    ?_ ?_ ?_ ?_
  · exact le_rfl
  · intro w hpos
    rw [decide_eq_true_eq] at hpos
    omega
  · rintro w e ⟨k, hk, hat⟩ hpos
    have hrem := hat.remaining
    rw [decide_eq_true_eq] at hpos
    have hlt : k < chunks s := lt_chunks_iff.mpr (by omega)
    refine wp_mono (wp_of_collects (stores_writeStep buf _ hs' hlt hat) e) fun w' _ hw' => ?_
    obtain ⟨_, hat', -⟩ := hw'
    have hrem' := hat'.remaining
    exact ⟨⟨k + 1, hlt, hat'⟩, by omega⟩
  · rintro w e ⟨k, -, hat⟩ -
    rw [Shrinks, hat.need, decide_eq_false (by omega), Bool.false_and]
    exact Bool.false_ne_true

/-- If the write enters its shrink loop, that loop frees the entries of the old file past the end of
the new one. -/
def ShrinksExactly (d : Disk) (i : Nat) (buf : Mem) (s : Nat) : Prop :=
  wp (writeLoop (d.inode i) buf s) (fun w e => Shrinks (d.inode i) s w →
    wp (loadIndirect w) (fun b _ => b = d.row ((d.inode i).block 8).toNat ∧
      FreesJust (shrinkLoop b w.indirectIndex (asInt (d.inode i).size - s)) b
        (List.range' (chunks s - 8) (chunks (d.size i) - chunks s))) e) d

section Exact
variable {d : Disk} {i s : Nat} {buf : Mem}

-- The loop as it is entered.
theorem exists_shrinkLoop_eq (h : WellHeld d (d.inode i)) (hlt : s < d.size i) (b : Block) (x : Nat) :
    ∃ v, shrinkLoop b x (asInt (d.inode i).size - s) =
      freeEntries b (List.range' x (chunks (d.size i - s))) >>= fun _ => pure v := by
  have hsub : asInt (d.inode i).size - s = (d.size i - s : Nat) := by
    rw [h.asInt_size]
    unfold Disk.size at *
    omega
  rw [hsub]
  exact shrinkLoop_eq b x (d.size i - s)

theorem shrinksExactly (h : WellHeld d (d.inode i)) (hlt : s < d.size i)
    (hfull : s < 4608 ∨ 512 * chunks s - s ≤ 512 * chunks (d.size i) - d.size i) :
    ShrinksExactly d i buf s := by
  by_cases hlo : s < 4608
  · exact wp_mono (wp_writeLoop_direct _ buf hlo d) fun w e hno hyes => absurd hyes hno
  · refine wp_mono (h.wp_writeLoop_shrink (by omega) hlt) fun w e hw _ => ?_
    obtain ⟨-, hind, h8, hrow⟩ := hw
    have hptr : 8 < pointers (d.size i) := by
      rw [pointers_eq_of_lt (lt_chunks_iff.mpr (by omega))]
      exact Nat.lt_succ_of_lt (lt_chunks_iff.mpr (by omega))
    have h8lt := (h.region 8 hptr).2
    rw [ptrOf_direct le_rfl] at h8lt
    simp only [loadIndirect, wp_bind, wp_freshBlock, h8]
    refine fun _ => (wp_readDisk _ _ _ _ h8lt).mpr ⟨hrow, ?_⟩
    -- as many steps as there are surplus chunks
    have hsteps : chunks (d.size i - s) = chunks (d.size i) - chunks s := by
      unfold chunks at *
      omega
    obtain ⟨v, hv⟩ := exists_shrinkLoop_eq h hlt (e.row ((d.inode i).block 8).toNat) w.indirectIndex
    rw [hv, hsteps, hind]
    exact ⟨_, v, List.Perm.refl _, rfl⟩

-- One entry too many.
theorem not_shrinksExactly (h : WellHeld d (d.inode i)) (hlo : 4608 ≤ s) (hlt : s < d.size i)
    (hgap : 512 * chunks (d.size i) - d.size i < 512 * chunks s - s) :
    ¬ ShrinksExactly d i buf s := by
  intro hexact
  have hboth := wp_and hexact (h.wp_writeLoop_shrink hlo hlt)
  obtain ⟨w, j, e, -, hloop, hshrinks, hind, -, -⟩ := wp_run hboth fun _ _ => 0
  obtain ⟨b, -, -, -, -, hfrees⟩ := wp_run (hloop hshrinks) j
  -- one step more than there are surplus chunks
  have hsteps : chunks (d.size i - s) = chunks (d.size i) - chunks s + 1 := by
    unfold chunks at *
    omega
  obtain ⟨v, hv⟩ := exists_shrinkLoop_eq h hlt b w.indirectIndex
  rw [hv, hsteps, hind] at hfrees
  have hlen := length_eq_of_freesJust hfrees
  omega

/-- The loop frees just the surplus if and only if the last chunk of the new file is as full as that
of the old one, or fuller. -/
theorem shrinksExactly_iff (h : WellHeld d (d.inode i)) (hlt : s < d.size i) :
    ShrinksExactly d i buf s ↔
      s < 4608 ∨ 512 * chunks s - s ≤ 512 * chunks (d.size i) - d.size i := by
  refine ⟨fun hexact => ?_, shrinksExactly h hlt⟩
  by_contra hno
  rw [not_or] at hno
  exact not_shrinksExactly h (by omega) hlt (by omega) hexact

end Exact

/-! ## A file of eleven full chunks -/

theorem Sound.wellHeld {d : Disk} (hd : Sound d) {i : Nat} (hin : d.InUse i) :
    WellHeld d (d.inode i) := by
  refine ⟨hd.region i hin, hd.used i hin, fun p hp q hq he => ?_⟩
  exact (hd.owner i i hin hin p hp q hq he).2

theorem exists_elevenChunks :
    ∃ d, Reachable d ∧ d.InUse 0 ∧ WellHeld d (d.inode 0) ∧ d.size 0 = 5632 := by
  obtain ⟨e, he, hin, hsize⟩ := exists_root_of_size (n := 5632) ⟨by decide, by omega⟩
  exact ⟨e, he.reachable, hin, he.sound.wellHeld hin, hsize⟩

/-- Down to ten full chunks. -/
theorem shrinksExactly_iff_full : ∃ d, WellHeld d (d.inode 0) ∧ d.size 0 = 5632 ∧
    ShrinksExactly d 0 (fun _ => 0) 5120 := by
  obtain ⟨d, -, -, hheld, hsize⟩ := exists_elevenChunks
  refine ⟨d, hheld, hsize, (shrinksExactly_iff hheld (by omega)).mpr (.inr ?_)⟩
  rw [hsize]
  decide

/-- With 5119 bytes left of 5632, two entries are freed where one is surplus. -/
theorem not_shrinksExactly_partial :
    ¬ ∀ d i buf s, Reachable d → d.InUse i → WellHeld d (d.inode i) → s < d.size i →
      ShrinksExactly d i buf s := by
  intro h
  obtain ⟨d, hd, hin, hheld, hsize⟩ := exists_elevenChunks
  have hlt : 5119 < d.size 0 := by omega
  refine not_shrinksExactly hheld (by omega) hlt ?_ (h d 0 (fun _ => 0) 5119 hd hin hheld hlt)
  rw [hsize]
  decide

end InodeFs
