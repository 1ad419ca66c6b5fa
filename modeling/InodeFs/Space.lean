import InodeFs.FileStore
import InodeFs.Leaks
import Mathlib.Algebra.BigOperators.Ring.Finset
import Mathlib.Data.Finset.Card

/-!
# The space that the files take

On a disk where nothing is shared and nothing is leaked, the free data blocks and the blocks of the
files add up to the data region.  So what a run may do can be told from its files alone: `Admits` is
a condition on the store, and a run that meets it from the making of the file system on is answered
as the store answers it.
-/

namespace InodeFs

open BlockLayer InodeLayer FsServer Prog Disk

/-! ## The blocks of all files -/

/-- The number of data blocks. -/
def dataBlocks : Nat := blockNum - 123

/-- The blocks that a file holds, its indirect block included. -/
def heldCount (f : Option File) : Nat := (f.map fun f => pointers f.bytes.length).getD 0

/-- The blocks that all files hold. -/
def FileStore.blocks (s : FileStore) : Nat := ∑ i ∈ Finset.range inodeNum, heldCount (s i)

/-- The blocks of inode `i`. -/
def Disk.heldSet (d : Disk) (i : Nat) : Finset Nat :=
  if d.InUse i then (Finset.range (pointers (d.size i))).image (d.ptr i) else ∅

section Count
variable {d : Disk} {i : Nat}

theorem mem_heldSet {id : Nat} : id ∈ d.heldSet i ↔ d.Holds i id := by
  rw [heldSet, Holds]
  split
  · rename_i hin
    simp only [Finset.mem_image, Finset.mem_range, hin, true_and]
  · rename_i hno
    simp only [Finset.notMem_empty, hno, false_and]

theorem heldCount_files (h : d.InUse i) : heldCount (d.files i) = pointers (d.size i) := by
  rw [files_of_inUse h, heldCount, Option.map_some, Option.getD_some, Disk.file, length_contents]

theorem card_heldSet (hd : Sound d) (i : Nat) : (d.heldSet i).card = heldCount (d.files i) := by
  rw [heldSet]
  split
  · rename_i hin
    rw [Finset.card_image_of_injOn, Finset.card_range, heldCount_files hin]
    intro p hp q hq he
    exact (hd.owner i i hin hin p (Finset.mem_range.mp hp) q (Finset.mem_range.mp hq) he).2
  · rename_i hno
    rw [files_eq_none hno, Finset.card_empty]
    rfl

theorem Sound.heldSet_disjoint (hd : Sound d) {i j : Nat} (hij : i ≠ j) :
    Disjoint (d.heldSet i) (d.heldSet j) := by
  rw [Finset.disjoint_left]
  intro id hi hj
  obtain ⟨hin, p, hp, rfl⟩ := mem_heldSet.mp hi
  obtain ⟨hjn, q, hq, he⟩ := mem_heldSet.mp hj
  exact hij (hd.owner i j hin hjn p hp q hq he.symm).1

-- Where nothing is leaked, the blocks that are marked are those of the files.
theorem NoLeak.marked_eq (hleak : NoLeak d) (hd : Sound d) :
    Finset.Ico 123 32768 ∩ d.used = (Finset.range inodeNum).biUnion d.heldSet := by
  ext id
  rw [Finset.mem_inter, Finset.mem_Ico, Finset.mem_biUnion]
  constructor
  · rintro ⟨hid, hused⟩
    obtain ⟨i, hin, hheld⟩ := hleak id hid.1 hid.2 (mem_used.mp hused).2
    exact ⟨i, Finset.mem_range.mpr hin.1, mem_heldSet.mpr ⟨hin, mem_heldBlocks.mp hheld⟩⟩
  · rintro ⟨i, -, hmem⟩
    obtain ⟨hin, p, hp, rfl⟩ := mem_heldSet.mp hmem
    exact ⟨hd.region i hin p hp, hd.used i hin p hp⟩

/-- The free blocks and those of the files make up the data region. -/
theorem NoLeak.card_free_add_blocks (hleak : NoLeak d) (hd : Sound d) :
    (freeIn d.used).card + d.files.blocks = dataBlocks := by
  have hblocks : ((Finset.range inodeNum).biUnion d.heldSet).card = d.files.blocks := by
    rw [Finset.card_biUnion fun i _ j _ hij => hd.heldSet_disjoint hij]
    exact Finset.sum_congr rfl fun i _ => card_heldSet hd i
  have hsplit := Finset.card_sdiff_add_card_inter (Finset.Ico 123 32768) d.used
  rw [hleak.marked_eq hd, hblocks, Nat.card_Ico] at hsplit
  exact hsplit

end Count

/-! ## Requests that are safe for what the files are -/

/-- A put of `n` bytes over a file of `o` bytes lays the file out as the reader expects it, frees what it
does not reuse, and sets every slot of the record that was set before. -/
structure Overwrites (o n : Nat) : Prop where
  sizeOk : SizeOk n
  grow : 4096 < o → chunks o < chunks n → n % 512 ≠ 0 → o + 512 ≤ n
  shrink : 4096 < n → n < o → chunks (o - n) + chunks n = chunks o
  slots : min 9 (pointers o) ≤ pointers n

/-- What the files allow: a create when there is a number left, a put that fits into the data region
and overwrites the file that is there, and a remove of a file whose blocks the code counts right. -/
def FileStore.Admits (s : FileStore) : Request → Prop
  | .create _ _ => ∃ i < inodeNum, s i = none
  | .put id buf => Accepted buf → ∀ f ∈ s (inumOf id),
      Overwrites f.bytes.length (putSize buf) ∧
      s.blocks + pointers (putSize buf) ≤ dataBlocks + pointers f.bytes.length
  | .get _ _ => True
  | .getattr _ => True
  | .remove id => ∀ f ∈ s (inumOf id), 4096 < f.bytes.length → f.bytes.length % 512 ≠ 0

instance (s : Nat) : Decidable (SizeOk s) := inferInstanceAs (Decidable (_ ∧ _))

instance (o n : Nat) : Decidable (Overwrites o n) :=
  decidable_of_iff
    (SizeOk n ∧ (4096 < o → chunks o < chunks n → n % 512 ≠ 0 → o + 512 ≤ n) ∧
      (4096 < n → n < o → chunks (o - n) + chunks n = chunks o) ∧
      min 9 (pointers o) ≤ pointers n)
    ⟨fun h => ⟨h.1, h.2.1, h.2.2.1, h.2.2.2⟩, fun h => ⟨h.sizeOk, h.grow, h.shrink, h.slots⟩⟩

instance (s : FileStore) : (q : Request) → Decidable (s.Admits q)
  | .create _ _ => inferInstanceAs (Decidable (∃ i < inodeNum, s i = none))
  | .put id buf => inferInstanceAs (Decidable (Accepted buf → ∀ f ∈ s (inumOf id),
      Overwrites f.bytes.length (putSize buf) ∧
      s.blocks + pointers (putSize buf) ≤ dataBlocks + pointers f.bytes.length))
  | .get _ _ => inferInstanceAs (Decidable True)
  | .getattr _ => inferInstanceAs (Decidable True)
  | .remove id => inferInstanceAs (Decidable (∀ f ∈ s (inumOf id),
      4096 < f.bytes.length → f.bytes.length % 512 ≠ 0))

/-- The record has no id past the end of the file. -/
def Inode.Trim (ino : Inode) : Prop :=
  ∀ k < 9, pointers ino.size.toNat ≤ k → (ino.block k).toNat = 0

/-- No id is stale and no block is lost. -/
structure Disk.Clean (d : Disk) : Prop where
  sound : Sound d
  noLeak : NoLeak d
  trim : ∀ i, d.InUse i → (d.inode i).Trim

section Admitted
variable {d e : Disk} {i s : Nat}

theorem trim_newInode (type : UInt32) (time : Nat → UInt32) : (newInode type time).Trim := by
  intro k hk _
  rw [Inode.block, dif_pos hk]
  rfl

-- A slot that is 0 names no block of a file.
theorem Sound.not_holds_of_trim (hd : Sound d) (htrim : (d.inode i).Trim) {j k : Nat} (hk : k < 9)
    (hpk : pointers (d.size i) ≤ k) : ¬ d.Holds j ((d.inode i).block k).toNat := by
  rw [htrim k hk hpk]
  rintro ⟨hjin, p, hp, he⟩
  have := (hd.region j hjin p hp).1
  omega

-- The free blocks and the direct blocks of the file itself are available to a put.
theorem Sound.card_available (hd : Sound d) (hin : d.InUse i) :
    (freeIn d.used).card + min 8 (pointers (d.size i)) ≤ (d.available (d.inode i)).card := by
  have hinj : Set.InjOn (d.ptr i) (Finset.range (min 8 (pointers (d.size i)))) := by
    intro p hp q hq he
    rw [Finset.coe_range, Set.mem_Iio, lt_min_iff] at hp hq
    exact (hd.owner i i hin hin p hp.2 q hq.2 he).2
  have hdisj : Disjoint (freeIn d.used)
      ((Finset.range (min 8 (pointers (d.size i)))).image (d.ptr i)) := by
    rw [Finset.disjoint_right]
    intro id hid hfree
    obtain ⟨p, hp, rfl⟩ := Finset.mem_image.mp hid
    rw [Finset.mem_range, lt_min_iff] at hp
    exact (mem_freeIn.mp hfree).2 (hd.used i hin p hp.2)
  have hsub : freeIn d.used ∪ (Finset.range (min 8 (pointers (d.size i)))).image (d.ptr i) ⊆
      d.available (d.inode i) := by
    intro id hid
    rw [mem_available, mem_released]
    rcases Finset.mem_union.mp hid with hfree | hown
    · obtain ⟨hreg, hno⟩ := mem_freeIn.mp hfree
      exact ⟨hreg, fun h => hno h.1⟩
    · obtain ⟨p, hp, rfl⟩ := Finset.mem_image.mp hown
      rw [Finset.mem_range, lt_min_iff] at hp
      exact ⟨hd.region i hin p hp.2, fun h => h.2 p hp.1 (ptr_direct (by omega))⟩
  have hcard := Finset.card_le_card hsub
  rwa [Finset.card_union_of_disjoint hdisj, Finset.card_image_of_injOn hinj, Finset.card_range]
    at hcard

-- What the files leave of the data region is enough for the put.
theorem Disk.Clean.fits (hd : d.Clean) (hin : d.InUse i)
    (hspace : d.files.blocks + pointers s ≤ dataBlocks + pointers (d.size i)) :
    allocsBefore (d.inode i) (pointers s) ≤ (d.available (d.inode i)).card := by
  have hfree := hd.noLeak.card_free_add_blocks hd.sound
  have havail := hd.sound.card_available hin
  have hsize : (d.inode i).size.toNat = d.size i := rfl
  refine le_trans ?_ havail
  unfold allocsBefore
  rw [hsize]
  rcases Nat.lt_or_ge 8 (chunks (d.size i)) with hn | hn
  · have hptr := pointers_eq_of_lt hn
    split <;> omega
  · have hptr := pointers_eq_of_le hn
    rw [if_pos (.inr hn)]
    omega

theorem Disk.Clean.putSafe (hd : d.Clean) (hin : d.InUse i) (hover : Overwrites (d.size i) s)
    (hspace : d.files.blocks + pointers s ≤ dataBlocks + pointers (d.size i)) :
    PutSafe d i s where
  sizeOk := hover.sizeOk
  grow := hover.grow
  shrink := hover.shrink
  stale := fun _ hk hpk _ _ _ => hd.sound.not_holds_of_trim (hd.trim i hin) hk hpk
  fits := hd.fits hin hspace

theorem Overwrites.not_leaves {o n : Nat} (h : Overwrites o n) : ¬ (8 < chunks o ∧ chunks n ≤ 8) := by
  rintro ⟨ho, hn⟩
  have hslots := h.slots
  rw [pointers_eq_of_lt ho, pointers_eq_of_le hn] at hslots
  omega

/-- A request that the files allow is tidy. -/
theorem Disk.Clean.tidyStep (hd : d.Clean) {q : Request} (hq : d.files.Admits q) :
    TidyStep d q := by
  cases q with
  | create type time =>
    obtain ⟨i, hi, hnone⟩ := hq
    exact ⟨i, hi, files_eq_none_iff.mp hnone⟩
  | put id buf =>
    have hover : ∀ hin : d.InUse (inumOf id), Accepted buf →
        Overwrites (d.size (inumOf id)) (putSize buf) ∧
        d.files.blocks + pointers (putSize buf) ≤
          dataBlocks + pointers (d.size (inumOf id)) := by
      intro hin hacc
      have h := hq hacc _ (files_of_inUse hin)
      rwa [Disk.file, length_contents] at h
    constructor
    · intro hacc hin
      exact hd.putSafe hin (hover hin hacc).1 (hover hin hacc).2
    · rintro hacc hin ⟨ho, hn⟩
      refine (hover hin hacc).1.not_leaves ⟨lt_chunks_iff.mpr ?_, chunks_le_iff.mpr ?_⟩
      · simpa only [blockSize] using ho
      · simpa only [blockSize] using hn
  | get id now => trivial
  | getattr id => trivial
  | remove id =>
    intro hin
    have hodd := hq _ (files_of_inUse hin)
    rw [Disk.file, length_contents] at hodd
    exact ⟨fun k hk hpk _ _ => hd.sound.not_holds_of_trim (hd.trim _ hin) (by omega) hpk, hodd⟩

-- Only the record of inode `i` is stored.
theorem records_setInode {P : Inode → Prop} (hP : ∀ j, d.InUse j → P (d.inode j)) (hi : i < 1024)
    {ino : Inode} (hrows : ∀ r, 9 ≤ r → r ≤ 122 → e.row r = d.row r)
    (hown : ino.type ≠ 0 → P ino) :
    ∀ j, (e.setInode i ino).InUse j → P ((e.setInode i ino).inode j) := by
  intro j hj
  by_cases hji : j = i
  · subst hji
    rw [InUse, inode_setInode_self _ _ hi] at hj
    rw [inode_setInode_self _ _ hi]
    exact hown hj.2
  · have hb := tableBlock_bounds hj.1
    have hrec : e.inode j = d.inode j := inode_congr (hrows _ hb.1 hb.2)
    rw [InUse, inode_setInode_ne _ _ hji, hrec] at hj
    rw [inode_setInode_ne _ _ hji, hrec]
    exact hP j hj

theorem WriteOk.trim_written (hok : WriteOk d (d.inode i) s) (htrim : (d.inode i).Trim)
    (hslots : min 9 (pointers (d.size i)) ≤ pointers s) : (d.written (d.inode i) s).Trim := by
  have hs := hok.sizeOk.le
  have hsize : (d.written (d.inode i) s).size.toNat = s :=
    UInt32.toNat_ofNat_of_lt' (by simp only [UInt32.size]; omega)
  intro k hk hpk
  rw [hsize] at hpk
  rw [hok.block_written hk, if_neg (by omega)]
  exact htrim k hk (by change pointers (d.size i) ≤ k; omega)

/-- The step lemma. -/
theorem Disk.Clean.served (hd : d.Clean) {q : Request} {r : Reply} (hq : d.files.Admits q)
    (hserved : Served d q r e) : e.Clean where
  sound := hserved.sound hd.sound (hd.tidyStep hq).safe
  noLeak := hd.noLeak.served hd.sound (hd.tidyStep hq) hserved
  trim := by
    cases hserved with
    | created hi _ _ =>
      exact records_setInode hd.trim hi (fun _ _ _ => rfl) fun _ => trim_newInode _ _
    | createdFull _ =>
      exact records_setInode hd.trim (by omega) (fun _ _ _ => rfl) fun _ => trim_newInode _ _
    | @put id buf f hacc hin he =>
      have h := hq hacc _ (files_of_inUse hin)
      rw [Disk.file, length_contents] at h
      have hok := (hd.putSafe hin h.1 h.2).writeOk hd.sound hin
      exact records_setInode hd.trim hin.1 he.table fun _ =>
        hok.trim_written (hd.trim _ hin) h.1.slots
    | putRefused _ => exact hd.trim
    | get hin => exact records_setInode hd.trim hin.1 (fun _ _ _ => rfl) fun _ => hd.trim _ hin
    | getAbsent _ => exact hd.trim
    | getattr _ => exact hd.trim
    | getattrAbsent _ => exact hd.trim
    | removed hin he =>
      exact records_setInode hd.trim hin.1 (fun r hr _ => he.rows r hr) fun h => absurd rfl h
    | removeAbsent _ => exact hd.trim

end Admitted

/-! ## Runs -/

theorem Fresh.clean {d : Disk} (h : Fresh d) : d.Clean where
  sound := h.sound
  noLeak := h.noLeak
  trim := fun i hi => by
    obtain rfl := h.inUse_iff.mp hi
    obtain ⟨time, rfl⟩ := h.eq
    rw [inode_setInode_self _ _ (by omega)]
    exact trim_newInode _ _

/-- In every tidy run the free data blocks are those that the files do not hold: none is lost, and none
is counted twice. -/
theorem card_free_of_tidy {d : Disk} (h : ReachableBy TidyStep d) :
    (freeIn d.used).card + d.files.blocks = dataBlocks := by
  obtain ⟨hd, hleak⟩ := ReachableBy.invariant (I := NoLeak) (fun _ _ hq => hq.safe)
    (fun _ hd => hd.noLeak) (fun _ _ _ _ hd hq hserved hI => hI.served hd hq hserved) h
  exact hleak.card_free_add_blocks hd

theorem card_free_of_tidy_put : ∃ d : Disk, d.size 0 = 5000 ∧
    (freeIn d.used).card + d.files.blocks = dataBlocks := by
  have hfresh := fresh_madeAt 0
  have hlen : (List.replicate 5000 (1 : UInt8)).length = 5000 := List.length_replicate
  have hs : SizeOk (List.replicate 5000 (1 : UInt8)).length := by
    rw [hlen]
    decide
  have hput : TidyStep (madeAt 0) (.put 0 (List.replicate 5000 1)) := by
    refine hfresh.clean.tidyStep ?_
    rw [madeAt, files_setInode_init]
    decide +kernel
  obtain ⟨e, he, -, hsize⟩ := hfresh.put_root (fun _ _ hq => hq.safe) hs hput
  exact ⟨e, hsize.trans hlen, card_free_of_tidy he⟩

-- A run that the files allow is safe.
theorem Disk.Clean.safeRun {d : Disk} (hd : d.Clean) {qs : List (Request × Junk)}
    (hqs : FileStore.machine.Along FileStore.Admits (qs.map Prod.fst) d.files) : SafeRun qs d := by
  induction qs generalizing d with
  | nil => trivial
  | cons qj qs ih =>
    obtain ⟨q, j⟩ := qj
    have hsafe := (hd.tidyStep hqs.1).safe
    refine ⟨hsafe, fun r j' e hrun => ?_⟩
    have hserved := wp_of_run (wp_serve hd.sound q hsafe) hrun
    have hstep : FileStore.machine.step d.files q = (r, e.files) := hserved.files hd.sound hsafe
    refine ih (hd.served hqs.1 hserved) ?_
    have htail := hqs.2
    rwa [hstep] at htail

theorem files_of_init {time : Nat → UInt32} {j j' : Junk} {d : Disk}
    (hmade : (InodeLayer.init time).run j Disk.init = some ((), j', d)) :
    d.files = FileStore.root time := by
  have hinit := (wp_init time fun _ e => e = Disk.init.setInode 0 (newInode tDir time)).mpr rfl
  have heq := wp_of_run hinit hmade
  rw [heq, files_setInode_init]

/-- A run from the making of the file system on stays inside the arrays and is answered as the store
answers it, when the store admits every request and the puts and gets find their locks: the disk plays
no part. -/
theorem answersAsStore_of_admits {time : Nat → UInt32} {j j' : Junk} {d : Disk}
    (hmade : (InodeLayer.init time).run j Disk.init = some ((), j', d))
    {qs : List (Request × Junk)}
    (hqs : FileStore.machine.Along FileStore.Admits (qs.map Prod.fst) (FileStore.root time))
    (hlocks : LocksExist qs) :
    RunOf InArrays qs d ∧
      ∃ e, serveAll qs d =
          some ((FileStore.machine.run (qs.map Prod.fst) (FileStore.root time)).1, e) ∧
        e.files = (FileStore.machine.run (qs.map Prod.fst) (FileStore.root time)).2 := by
  have hfresh : Fresh d := ⟨time, j, j', hmade⟩
  have hfiles := files_of_init hmade
  rw [← hfiles] at hqs ⊢
  have hsafe := hfresh.clean.safeRun hqs
  exact ⟨hsafe.inArrays hfresh.sound hlocks, hfresh.sound.serveAll_eq hsafe⟩

theorem answersAsStore_of_admits_root : ∃ e,
    serveAll [(.create 2 fun k => UInt32.ofNat k, zeros), (.put 1 [65, 66], zeros),
        (.get 1 7, zeros), (.getattr 1, zeros), (.remove 1, zeros), (.get 1 8, zeros)] (madeAt 0) =
      some ([.created .ok 1, .status .ok, .bytes .ok [65, 66], .attr .ok ⟨2, 7, 2, 1, 2⟩,
        .status .ok, .bytes .ok []], e) := by
  obtain ⟨j', hmade⟩ := init_run 0
  obtain ⟨-, e, hrun, -⟩ := @answersAsStore_of_admits _ _ _ _ hmade
    [(.create 2 fun k => UInt32.ofNat k, zeros), (.put 1 [65, 66], zeros), (.get 1 7, zeros),
      (.getattr 1, zeros), (.remove 1, zeros), (.get 1 8, zeros)] (by decide +kernel) (by decide)
  refine ⟨e, hrun.trans (congrArg (fun rs => some (rs, e)) ?_)⟩
  decide +kernel

end InodeFs
