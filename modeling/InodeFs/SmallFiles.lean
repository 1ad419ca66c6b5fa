import InodeFs.Space
import InodeFs.Prog.Ending

/-!
# Small files

A file of at most 4096 bytes has direct blocks only.  When every file stays that small, a put may
still free and take the blocks of another file through an id past the end of its own, so what a
`get` returns is not always what was put.  But the bytes are all that can go wrong: the ids of a
record always name data blocks, there is always space, and the rest of each reply and of each file
is right.
-/

namespace InodeFs

open BlockLayer InodeLayer FsServer Prog Disk

/-! ## A write that ends in the direct blocks -/

/-- The same variables with another size in the record. -/
def InodeLayer.WriteState.resize (z : UInt32) (w : WriteState) : WriteState :=
  { w with ino := w.ino.setSize z }

/-- The loop of a write of at most 4096 bytes has only the direct section to go through. -/
structure StaysDirect (w : WriteState) : Prop where
  counters : w.numBytesAlreadyWritten + w.remainingBytesToWrite ≤ 4096
  need : w.needToOverwriteIndirect = false

section Direct
variable {buf : Mem} {z : UInt32} {size old : Int} {w : WriteState} {s : Nat}

theorem writeDirect_resize (w : WriteState) :
    writeDirect buf (w.resize z) = writeDirect buf w >>= fun w' => pure (w'.resize z) := by
  simp only [writeDirect, Prog.bind_assoc]
  refine bind_congr fun b => bind_congr fun id => ?_
  change storeSlot (w.ino.setSize z) w.index id >>= _ = _
  unfold storeSlot
  split
  · rfl
  · rfl

namespace StaysDirect

theorem writeDirect (h : StaysDirect w) :
    Answers (fun w' => w'.remainingBytesToWrite = w.remainingBytesToWrite ∧
      w'.numBytesAlreadyWritten = w.numBytesAlreadyWritten ∧ StaysDirect w')
      (InodeLayer.writeDirect buf w) :=
  Answers.bind fun _ => Answers.bind fun _ => Answers.bind fun _ => Answers.bind fun _ =>
    ⟨rfl, rfl, h.counters, h.need⟩

theorem writeStep_eq (h : StaysDirect w) (hpos : w.remainingBytesToWrite > 0) :
    writeStep buf size old w =
      InodeLayer.writeDirect buf w >>= fun w => pure (endRound w) := by
  have hdir : w.numBytesAlreadyWritten < 8 * blockSize := by
    have := h.counters
    simp only [blockSize]
    omega
  rw [writeStep, if_pos hdir]
  rfl

theorem step (h : StaysDirect w) (hpos : w.remainingBytesToWrite > 0) :
    Answers StaysDirect (writeStep buf size old w) := by
  rw [h.writeStep_eq hpos]
  refine Follows.bind (h.writeDirect.mono fun w' _ hw' => ⟨?_, hw'.2.2.need⟩)
  obtain ⟨hrem, hnum, -⟩ := hw'
  have := h.counters
  simp only [endRound, hrem, hnum, blockSize]
  omega

theorem step_resize (h : StaysDirect w) (old old' : Int) (hpos : w.remainingBytesToWrite > 0) :
    writeStep buf size old (w.resize z) =
      writeStep buf size old' w >>= fun w' => pure (w'.resize z) := by
  have hr : StaysDirect (w.resize z) := ⟨h.counters, h.need⟩
  rw [hr.writeStep_eq hpos, h.writeStep_eq hpos, writeDirect_resize]
  simp only [Prog.bind_assoc, pure_eq, Prog.ret_bind]
  rfl

theorem loop (h : StaysDirect w) (n : Nat) :
    Answers StaysDirect
      (whileLoop (fun w => decide (w.remainingBytesToWrite > 0)) (writeStep buf size old) n w) :=
  Follows.whileLoop (fun _ _ hw hc => hw.step (of_decide_eq_true hc)) n h

/-- The loop does not look at the old size. -/
theorem loop_resize (h : StaysDirect w) (old old' : Int) (n : Nat) :
    whileLoop (fun w => decide (w.remainingBytesToWrite > 0)) (writeStep buf size old) n
        (w.resize z) =
      whileLoop (fun w => decide (w.remainingBytesToWrite > 0)) (writeStep buf size old') n w >>=
        fun w' => pure (w'.resize z) := by
  induction n generalizing w with
  | zero => rfl
  | succ n ih =>
    rw [whileLoop, whileLoop]
    by_cases hpos : w.remainingBytesToWrite > 0
    · have hpos' : (w.resize z).remainingBytesToWrite > 0 := hpos
      rw [if_pos (decide_eq_true hpos), if_pos (decide_eq_true hpos'), h.step_resize old old' hpos]
      simp only [Prog.bind_assoc, pure_eq, Prog.ret_bind]
      exact (h.step hpos).bind_congr fun w' hw' => ih hw'
    · have hpos' : ¬ (w.resize z).remainingBytesToWrite > 0 := hpos
      rw [if_neg (by simpa using hpos'), if_neg (by simpa using hpos)]
      rfl

end StaysDirect

-- Without an indirect section the end of the write does not look at the old size either.
theorem writeEnd_resize {ino : Inode} (hneed : w.needToOverwriteIndirect = false) :
    writeEnd (ino.setSize z) s (w.resize z) = writeEnd ino s w := by
  have hno : ∀ (ino : Inode) (w : WriteState), w.needToOverwriteIndirect = false →
      ¬ Shrinks ino s w := by
    intro ino w hw h
    rw [Shrinks, hw, Bool.false_and] at h
    exact Bool.false_ne_true h
  have hneed' : (w.resize z).needToOverwriteIndirect = false := hneed
  simp only [writeEnd, if_neg (hno _ _ hneed), if_neg (hno _ _ hneed'), hneed, hneed']
  rfl

/-- A write of at most 4096 bytes does not depend on the size of the old file. -/
theorem writeBlocks_setSize (ino : Inode) (hs : s ≤ 4096) :
    writeBlocks (ino.setSize z) buf s = writeBlocks ino buf s := by
  have hstart : ∀ final, StaysDirect (writeStart ino s final) := fun final =>
    ⟨by simp only [writeStart]; omega, rfl⟩
  have hloop : writeLoop (ino.setSize z) buf s =
      writeLoop ino buf s >>= fun w => pure (w.resize z) := by
    simp only [writeLoop, Prog.bind_assoc, Inode.block_setSize]
    exact bind_congr fun _ => bind_congr fun final => (hstart final).loop_resize _ _ s
  have hanswers : Answers StaysDirect (writeLoop ino buf s) :=
    Answers.bind fun _ => Answers.bind fun final => (hstart final).loop s
  rw [writeBlocks_eq, writeBlocks_eq, hloop, Prog.bind_assoc]
  simp only [pure_eq, Prog.ret_bind]
  exact hanswers.bind_congr fun w hw => writeEnd_resize hw.need

end Direct

/-! ## Files up to their bytes -/

/-- The file with zeros for its bytes. -/
def File.blank (f : File) : File := { f with bytes := List.replicate f.bytes.length 0 }

/-- The reply with zeros for the bytes of a file. -/
def Reply.blank : Reply → Reply
  | .created st id => .created st id
  | .status st => .status st
  | .bytes st buf => .bytes st (List.replicate buf.length 0)
  | .attr st a => .attr st a

/-- The store with zeros for all bytes. -/
def FileStore.blank (s : FileStore) : FileStore := fun i => (s i).map File.blank

/-- What a record says of its file. -/
def Inode.outline (ino : Inode) : Option File :=
  if h : ino.type = 0 then none
  else some ⟨ino.type, h, ino.atime, ino.mtime, ino.ctime, List.replicate ino.size.toNat 0⟩

section Blank
variable {s s' : FileStore} {i : Nat}

theorem File.blank_blank (f : File) : f.blank.blank = f.blank := by
  simp only [File.blank, List.length_replicate]

theorem map_blank_blank (f : Option File) :
    (f.map File.blank).map File.blank = f.map File.blank := by
  cases f with
  | none => rfl
  | some f => exact congrArg some f.blank_blank

theorem FileStore.blank_update (s : FileStore) (i : Nat) (f : Option File) :
    FileStore.blank (Function.update s i f) = Function.update s.blank i (f.map File.blank) := by
  funext j
  unfold FileStore.blank
  by_cases hj : j = i
  · subst hj
    rw [Function.update_self, Function.update_self]
  · rw [Function.update_of_ne hj, Function.update_of_ne hj]

theorem FileStore.blank_blank (s : FileStore) : s.blank.blank = s.blank :=
  funext fun i => map_blank_blank (s i)

/-- No file grows past its direct blocks, and no create finds the inodes all taken. -/
def FileStore.StaysSmall (s : FileStore) : Request → Prop
  | .create _ _ => ∃ i < inodeNum, s i = none
  | .put id buf => Accepted buf → s (inumOf id) ≠ none → putSize buf ≤ 4096
  | .get _ _ => True
  | .getattr _ => True
  | .remove _ => True

instance (s : FileStore) : (q : Request) → Decidable (s.StaysSmall q)
  | .create _ _ => inferInstanceAs (Decidable (∃ i < inodeNum, s i = none))
  | .put id buf =>
      inferInstanceAs (Decidable (Accepted buf → s (inumOf id) ≠ none → putSize buf ≤ 4096))
  | .get _ _ => inferInstanceAs (Decidable True)
  | .getattr _ => inferInstanceAs (Decidable True)
  | .remove _ => inferInstanceAs (Decidable True)

end Blank

/-! ## Disks of small files -/

/-- The record of a file that has no more than its direct blocks, and had no more before. -/
structure Inode.Small (ino : Inode) : Prop where
  size : ino.size.toNat ≤ 4096
  ascending : Ascending ino
  data : ∀ k < chunks ino.size.toNat, 123 ≤ (ino.block k).toNat
  direct : (ino.block 8).toNat = 0

/-- A slot of an inode in use, past the end of its file or not, names the block. -/
def Disk.Named (d : Disk) (id : Nat) : Prop :=
  ∃ i, d.InUse i ∧ ∃ k < 8, id = ((d.inode i).block k).toNat

/-- All files are small, and no block is lost: several files may have the same. -/
structure Disk.Tame (d : Disk) : Prop where
  small : ∀ i, d.InUse i → (d.inode i).Small
  named : ∀ id ∈ d.used, 123 ≤ id → d.Named id

theorem pointers_setSize_zero (ino : Inode) : pointers (ino.setSize 0).size.toNat = 0 := by
  change pointers (0 : UInt32).toNat = 0
  decide

theorem chunks_newInode (type : UInt32) (time : Nat → UInt32) :
    chunks (newInode type time).size.toNat = 0 := by
  change chunks (0 : UInt32).toNat = 0
  decide

namespace Inode.Small
variable {d : Disk} {ino : Inode} {s : Nat}

theorem chunks_le (h : ino.Small) : chunks ino.size.toNat ≤ 8 := chunks_le_iff.mpr h.size

theorem newInode (type : UInt32) (time : Nat → UInt32) : (newInode type time).Small where
  size := Nat.zero_le _
  ascending := fun k hk h0 => absurd (by rw [Inode.block, dif_pos hk]; rfl) h0
  data := fun k hk => absurd (chunks_newInode type time ▸ hk) (Nat.not_lt_zero k)
  direct := rfl

theorem setAtime (h : ino.Small) (now : UInt32) : (ino.setAtime now).Small :=
  ⟨h.size, h.ascending, h.data, h.direct⟩

-- Nothing is asked of the blocks that the slots name, since the old size plays no part.
theorem writeOk (h : ino.Small) (hs : s ≤ 4096) (hfree : 8 ≤ (freeIn d.used).card) :
    WriteOk d (ino.setSize 0) s where
  sizeOk := ⟨by simp only [blockSize, maxFile, nDirect, nIndirect]; omega, by omega⟩
  oldSizeOk := ⟨Nat.zero_le _, fun h => absurd h.1 (Nat.not_lt_zero _)⟩
  grow := fun h => absurd h (Nat.not_lt_zero _)
  shrink := fun _ h => absurd h (Nat.not_lt_zero _)
  ascending := h.ascending
  region := fun p hp => absurd (pointers_setSize_zero ino ▸ hp) (Nat.not_lt_zero p)
  used := fun p hp => absurd (pointers_setSize_zero ino ▸ hp) (Nat.not_lt_zero p)
  distinct := fun p hp => absurd (pointers_setSize_zero ino ▸ hp) (Nat.not_lt_zero p)
  fits := by
    have hn : chunks s ≤ 8 := chunks_le_iff.mpr hs
    refine fits_of_free (le_trans ?_ hfree)
    rwa [pointers_eq_of_le hn]

/-- The record that the write stores. -/
theorem written (h : ino.Small) (hs : s ≤ 4096) (hok : WriteOk d (ino.setSize 0) s) :
    (d.written (ino.setSize 0) s).Small := by
  have hn : chunks s ≤ 8 := chunks_le_iff.mpr hs
  have hp : pointers s = chunks s := pointers_eq_of_le hn
  have hsize : (d.written (ino.setSize 0) s).size.toNat = s :=
    UInt32.toNat_ofNat_of_lt' (by simp only [UInt32.size]; omega)
  constructor
  · rw [hsize]
    exact hs
  · exact hok.ascending_written
  · rw [hsize]
    intro k hk
    rw [hok.block_written (by omega), if_pos (by omega)]
    exact (hok.newPtr_region (by omega)).1
  · rw [hok.block_written (by omega), if_neg (by omega)]
    exact h.direct

end Inode.Small

section Tame
variable {d e : Disk} {i : Nat} {id : Nat}

-- A table of `m` rows and `n` columns names `m * n` numbers at most.
theorem card_le_of_slots {S : Finset Nat} {m n : Nat} (f : Nat → Nat → Nat)
    (h : ∀ x ∈ S, ∃ i < m, ∃ k < n, x = f i k) : S.card ≤ m * n := by
  have hsub : S ⊆ (Finset.range m ×ˢ Finset.range n).image fun x => f x.1 x.2 := by
    intro x hx
    obtain ⟨i, hi, k, hk, rfl⟩ := h x hx
    refine Finset.mem_image.mpr ⟨(i, k), ?_, rfl⟩
    exact Finset.mem_product.mpr ⟨Finset.mem_range.mpr hi, Finset.mem_range.mpr hk⟩
  refine (Finset.card_le_card hsub).trans (Finset.card_image_le.trans ?_)
  rw [Finset.card_product, Finset.card_range, Finset.card_range]

namespace Disk.Tame

-- The slots of 1024 inodes name a quarter of the data blocks at most.
theorem card_free (hd : d.Tame) : 8 ≤ (freeIn d.used).card := by
  have hcard : (Finset.Ico 123 32768 ∩ d.used).card ≤ 1024 * 8 := by
    refine card_le_of_slots (fun i k => ((d.inode i).block k).toNat) fun id hid => ?_
    rw [Finset.mem_inter, Finset.mem_Ico] at hid
    obtain ⟨i, hin, k, hk, he⟩ := hd.named id hid.2 hid.1.1
    exact ⟨i, hin.1, k, hk, he⟩
  have hsplit := Finset.card_sdiff_add_card_inter (Finset.Ico 123 32768) d.used
  rw [Nat.card_Ico] at hsplit
  unfold freeIn
  omega

theorem region (hd : d.Tame) (hin : d.InUse i) :
    ∀ p < pointers (d.size i), 123 ≤ d.ptr i p ∧ d.ptr i p < 32768 := by
  have hsmall := hd.small i hin
  have hn : chunks (d.size i) ≤ 8 := hsmall.chunks_le
  intro p hp
  rw [pointers_eq_of_le hn] at hp
  rw [ptr_direct (by omega)]
  exact ⟨hsmall.data p hp, hsmall.ascending.lt (by omega)⟩

/-- One record is stored.  A block that is marked then has its name from the new record, or from one
that the store leaves alone. -/
theorem setInode (hd : d.Tame) (hi : i < 1024) {ino : Inode}
    (hrows : ∀ r, 9 ≤ r → r ≤ 122 → e.row r = d.row r) (hsmall : ino.type ≠ 0 → ino.Small)
    (hused : ∀ id ∈ e.used, 123 ≤ id →
      (ino.type ≠ 0 ∧ ∃ k < 8, id = (ino.block k).toNat) ∨
      (id ∈ d.used ∧ (d.InUse i → ∀ k < 8, id ≠ ((d.inode i).block k).toNat))) :
    (e.setInode i ino).Tame where
  small := records_setInode hd.small hi hrows hsmall
  named := by
    intro id hid hreg
    rw [used_setInode] at hid
    rcases hused id hid hreg with ⟨htype, hk⟩ | ⟨hid', hno⟩
    · refine ⟨i, ?_, ?_⟩
      · rw [InUse, inode_setInode_self _ _ hi]
        exact ⟨hi, htype⟩
      · rw [inode_setInode_self _ _ hi]
        exact hk
    · obtain ⟨j, hjin, k, hk, rfl⟩ := hd.named id hid' hreg
      have hji : j ≠ i := by
        rintro rfl
        exact hno hjin k hk rfl
      have hb := tableBlock_bounds hjin.1
      have hrec : (e.setInode i ino).inode j = d.inode j := by
        rw [inode_setInode_ne _ _ hji]
        exact inode_congr (hrows _ hb.1 hb.2)
      refine ⟨j, ?_, k, hk, ?_⟩
      · rw [InUse, hrec]
        exact hjin
      · rw [hrec]

end Disk.Tame

/-! ## What a disk shows of its files -/

theorem blank_files (hi : i < 1024) : (d.files i).map File.blank = (d.inode i).outline := by
  unfold Inode.outline
  by_cases htype : (d.inode i).type = 0
  · rw [dif_pos htype, files_eq_none fun hin => hin.2 htype]
    rfl
  · have hin : d.InUse i := ⟨hi, htype⟩
    rw [dif_neg htype, files_of_inUse hin, Option.map_some]
    simp only [File.blank, Disk.file, length_contents]
    rfl

-- One record is stored.
theorem blank_setInode (hi : i < 1024) {ino : Inode}
    (hrows : ∀ r, 9 ≤ r → r ≤ 122 → e.row r = d.row r) {f : Option File}
    (hf : f.map File.blank = ino.outline) :
    (e.setInode i ino).files.blank = FileStore.blank (Function.update d.files i f) := by
  rw [FileStore.blank_update]
  funext j
  by_cases hji : j = i
  · subst hji
    rw [Function.update_self, hf, FileStore.blank, blank_files hi, inode_setInode_self _ _ hi]
  · rw [Function.update_of_ne hji, FileStore.blank, FileStore.blank]
    by_cases hj : j < 1024
    · have hb := tableBlock_bounds hj
      have hrec : e.inode j = d.inode j := inode_congr (hrows _ hb.1 hb.2)
      rw [blank_files hj, blank_files hj, inode_setInode_ne _ _ hji, hrec]
    · rw [files_eq_none fun hin => hj hin.1, files_eq_none fun hin => hj hin.1]

theorem outline_newInode (type : UInt32) (time : Nat → UInt32) :
    (File.created type time).map File.blank = (newInode type time).outline := by
  have htype : (newInode type time).type = type.toUInt16.toInt16 := rfl
  unfold Inode.outline File.created
  by_cases h0 : type.toUInt16.toInt16 = 0
  · rw [dif_pos h0, dif_pos (htype.trans h0)]
    rfl
  · rw [dif_neg h0, dif_neg fun h => h0 (htype.symm.trans h)]
    rfl

/-! ## One request -/

/-- The reply is that of the store up to bytes, and so are the files on the disk that is left. -/
structure Outcome (d : Disk) (q : Request) (r : Reply) (e : Disk) : Prop where
  tame : e.Tame
  reply : r.blank = (FileStore.step d.files q).1.blank
  files : e.files.blank = FileStore.blank (FileStore.step d.files q).2

namespace Outcome
variable {q : Request} {r : Reply}

theorem unchanged (hd : d.Tame) (hstep : FileStore.step d.files q = (r, d.files)) :
    Outcome d q r d := ⟨hd, by rw [hstep], by rw [hstep]⟩

-- A request that stores one record, once it has stored other blocks.
theorem stored {f : Option File} {ino : Inode} (hd : d.Tame) (hi : i < 1024)
    (hstep : FileStore.step d.files q = (r, Function.update d.files i f))
    (hrows : ∀ r, 9 ≤ r → r ≤ 122 → e.row r = d.row r) (hf : f.map File.blank = ino.outline)
    (hsmall : ino.type ≠ 0 → ino.Small)
    (hused : ∀ id ∈ e.used, 123 ≤ id →
      (ino.type ≠ 0 ∧ ∃ k < 8, id = (ino.block k).toNat) ∨
      (id ∈ d.used ∧ (d.InUse i → ∀ k < 8, id ≠ ((d.inode i).block k).toNat))) :
    Outcome d q r (e.setInode i ino) where
  tame := hd.setInode hi hrows hsmall hused
  reply := by rw [hstep]
  files := by rw [hstep, blank_setInode hi hrows hf]

end Outcome

theorem outline_setTypeFree (ino : Inode) : ino.setTypeFree.outline = none := dif_pos rfl

theorem outline_put {ino : Inode} {buf : List UInt8} (hin : d.InUse i)
    (hlen : putSize buf ≤ buf.length) (htype : ino.type = (d.inode i).type)
    (hatime : ino.atime = (d.inode i).atime) (hmtime : ino.mtime = (d.inode i).mtime)
    (hctime : ino.ctime = (d.inode i).ctime) (hsize : ino.size.toNat = putSize buf) :
    ((d.files i).map fun f => f.put buf).map File.blank = ino.outline := by
  have hne : ino.type ≠ 0 := fun h => hin.2 (htype.symm.trans h)
  rw [files_of_inUse hin, Option.map_some, Option.map_some, Inode.outline, dif_neg hne]
  refine congrArg some (File.ext htype.symm hatime.symm hmtime.symm hctime.symm ?_)
  change List.replicate (buf.take (putSize buf)).length 0 = List.replicate ino.size.toNat 0
  rw [List.length_take, Nat.min_eq_left hlen, hsize]

theorem outline_get (hin : d.InUse i) (now : UInt32) :
    ((d.files i).map fun f => f.get now).map File.blank =
      ((d.inode i).setAtime now).outline := by
  have hne : ((d.inode i).setAtime now).type ≠ 0 := hin.2
  rw [files_of_inUse hin, Option.map_some, Option.map_some, Inode.outline, dif_neg hne]
  refine congrArg some (File.ext rfl rfl rfl rfl ?_)
  change List.replicate (d.contents i).length 0 = List.replicate (d.size i) 0
  rw [length_contents]

namespace Disk.Tame

theorem wp_create (hd : d.Tame) {type : UInt32} {time : Nat → UInt32}
    (hq : d.files.StaysSmall (.create type time)) :
    wp (serve (.create type time)) (Outcome d (.create type time)) d := by
  refine wp_mono (InodeFs.wp_create type time) fun r e hserved => ?_
  cases hserved with
  | created hi hfree hlow =>
    refine .stored hd hi (step_create hi hfree hlow type time) (fun _ _ _ => rfl)
      (outline_newInode type time) (fun _ => .newInode type time) fun id hid _ => ?_
    exact .inr ⟨hid, fun hin => absurd hin hfree⟩
  | createdFull hfull =>
    obtain ⟨i, hi, hnone⟩ := hq
    exact absurd (hfull i hi) (files_eq_none_iff.mp hnone)

theorem wp_put (hd : d.Tame) {id : UInt64} {buf : List UInt8}
    (hq : d.files.StaysSmall (.put id buf)) :
    wp (serve (.put id buf)) (Outcome d (.put id buf)) d := by
  by_cases hno : ¬ Accepted buf ∨ ¬ d.InUse (inumOf id)
  · refine wp_mono (wp_put_refused hno) ?_
    rintro r e ⟨rfl, rfl⟩
    exact .unchanged hd (step_put_refused hno)
  · simp only [not_or, not_not] at hno
    obtain ⟨hacc, hin⟩ := hno
    have hs := hq hacc fun h => files_eq_none_iff.mp h hin
    have hsmall := hd.small _ hin
    have hok := hsmall.writeOk hs hd.card_free
    have hn : chunks (putSize buf) ≤ 8 := chunks_le_iff.mpr hs
    have hp : pointers (putSize buf) = chunks (putSize buf) := pointers_eq_of_le hn
    simp only [serve, FsServer.put, wp_bind, pure_eq, wp_ret]
    rw [wp_writeFile_accepted hin hacc, hacc.intSize_eq, ← writeBlocks_setSize _ hs]
    refine hok.wp_writeBlocks fun e he => ?_
    refine .stored hd hin.1 (step_put hacc) he.table ?_ (fun _ => hsmall.written hs hok) ?_
    · exact outline_put hin hacc.putSize_le_length rfl rfl rfl rfl
        (UInt32.toNat_ofNat_of_lt' (by simp only [UInt32.size]; omega))
    · intro id hid _
      rcases mem_taken.mp ((he.used id).mp hid).1 with hrel | ⟨p, hp', rfl⟩
      · rw [mem_released] at hrel
        exact .inr ⟨hrel.1, fun _ => hrel.2⟩
      · -- a block just allocated is the next in the record
        rw [hp, allocsBefore_of_le (.inl hn)] at hp'
        refine .inl ⟨hin.2, p, by omega, ?_⟩
        rw [hok.block_written (by omega), if_pos (by omega),
          newPtr_of_not_kept fun hk => by have := hk.1; omega, allocsBefore_of_le (.inl (by omega))]

theorem wp_get (hd : d.Tame) (id : UInt64) (now : UInt32) :
    wp (serve (.get id now)) (Outcome d (.get id now)) d := by
  have hfile : d.InUse (inumOf id) → d.size (inumOf id) ≤ 69632 ∧
      ∀ p < pointers (d.size (inumOf id)),
        123 ≤ d.ptr (inumOf id) p ∧ d.ptr (inumOf id) p < 32768 :=
    fun hin => ⟨(hd.small _ hin).size.trans (by omega), hd.region hin⟩
  refine wp_mono (InodeFs.wp_get id now hfile) fun r e hserved => ?_
  cases hserved with
  | get hin =>
    refine .stored hd hin.1 (step_get hin) (fun _ _ _ => rfl) (outline_get hin now)
      (fun _ => (hd.small _ hin).setAtime now) fun id' hid _ => ?_
    by_cases hown : ∃ k < 8, id' = ((d.inode (inumOf id)).block k).toNat
    · exact .inl ⟨hin.2, hown⟩
    · exact .inr ⟨hid, fun _ k hk he => hown ⟨k, hk, he⟩⟩
  | getAbsent hno => exact .unchanged hd (step_get_absent hno)

theorem wp_getattr (hd : d.Tame) (id : UInt64) :
    wp (serve (.getattr id)) (Outcome d (.getattr id)) d := by
  refine wp_mono (InodeFs.wp_getattr id) fun r e hserved => ?_
  cases hserved with
  | getattr hin => exact .unchanged hd (step_getattr hin)
  | getattrAbsent hno => exact .unchanged hd (step_getattr_absent hno)

theorem wp_remove (hd : d.Tame) (id : UInt64) :
    wp (serve (.remove id)) (Outcome d (.remove id)) d := by
  simp only [serve, FsServer.remove, wp_bind, pure_eq, wp_ret]
  by_cases hin : d.InUse (inumOf id)
  · have hsmall := hd.small _ hin
    have hsize : d.size (inumOf id) ≤ 4096 := hsmall.size
    refine wp_removeFile hin (hsize.trans (by omega)) hsmall.ascending (hd.region hin)
      (fun h => absurd h hsize.not_gt) fun e he => ?_
    refine .stored hd hin.1 step_remove (fun r hr _ => he.rows r hr) (outline_setTypeFree _).symm
      (fun h => absurd rfl h) fun id' hid _ => ?_
    obtain ⟨hused, hkept⟩ := (he.used id').mp hid
    exact .inr ⟨hused, fun _ k hk hk' => hkept (.inl ⟨k, hk, hk'⟩)⟩
  · rw [wp_removeFile_refused hin]
    exact .unchanged hd (step_remove_absent hin)

/-- What a request does to a disk of small files. -/
theorem wp_serve (hd : d.Tame) {q : Request} (hq : d.files.StaysSmall q) :
    wp (serve q) (Outcome d q) d := by
  cases q with
  | create type time => exact hd.wp_create hq
  | put id buf => exact hd.wp_put hq
  | get id now => exact hd.wp_get id now
  | getattr id => exact hd.wp_getattr id
  | remove id => exact hd.wp_remove id

theorem idsInRange (hd : d.Tame) (hin : d.InUse i) : d.IdsInRange i :=
  ⟨(hd.small i hin).size.trans (by omega), hd.region hin, (hd.small i hin).ascending⟩

/-- No request for small files leaves the arrays, when the lock that it takes exists. -/
theorem inArrays (hd : d.Tame) {q : Request} (hq : d.files.StaysSmall q) (hlock : LockExists q) :
    InArrays d q := by
  have hsize : ∀ {i}, d.InUse i → d.size i ≤ 4096 := fun hin => (hd.small _ hin).size
  cases q with
  | create type time =>
    exact (within_create d type time).and (.of_yields (inside_create type time) d)
  | put id buf =>
    have hsmall : Accepted buf → d.InUse (inumOf id) → putSize buf ≤ 4096 := fun hacc hin =>
      hq hacc fun h => files_eq_none_iff.mp h hin
    refine (within_put hlock fun hacc hin => ?_).and (staysInside_put fun hacc hin => ?_)
    · have hok := (hd.small _ hin).writeOk (hsmall hacc hin) hd.card_free
      rw [← writeBlocks_setSize _ (hsmall hacc hin)]
      exact within_writeBlocks hok
    · have hs := hsmall hacc hin
      exact ⟨(hsize hin).trans (by omega), fun hlo => absurd hlo (by omega)⟩
  | get id now =>
    exact (within_get hlock (fun hin => hd.idsInRange hin) now).and
      (staysInside_get (fun hin => (hsize hin).trans (by omega)) now)
  | getattr id => exact (within_getattr d id).and (.of_yields (inside_getattr id) d)
  | remove id =>
    refine (within_remove (fun hin => hd.idsInRange hin) fun hin hbig => ?_).and
      (staysInside_remove fun hin => (hsize hin).trans_lt (by omega))
    exact absurd hbig (hsize hin).not_gt

end Disk.Tame

end Tame

/-! ## Runs -/

theorem Fresh.tame {d : Disk} (h : Fresh d) : d.Tame where
  small := fun i hi => by
    obtain rfl := h.inUse_iff.mp hi
    obtain ⟨time, rfl⟩ := h.eq
    rw [inode_setInode_self _ _ (by omega)]
    exact .newInode _ _
  named := fun id hid => by
    rw [h.used] at hid
    exact absurd hid (Finset.notMem_empty id)

end InodeFs
