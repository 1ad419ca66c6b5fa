import InodeFs.FileThreads
import InodeFs.Prog.Custody
import InodeFs.Space
import Mathlib.Algebra.Order.BigOperators.Group.Finset

/-!
# The shares of the disk

Threads that read and write several files share the bitmap.  The rows of the disk are divided: a
file has its block of the inode table and the blocks it holds, the bitmap has blocks 1 to 8 and the
data blocks that it marks free, and nobody touches the rest.  `alloc_block` takes a block from the
bitmap's share into the caller's, and `free_block` gives it back.
-/

namespace InodeFs

open BlockLayer InodeLayer Prog Disk

/-! ## What the calls do to a file -/

/-- What the caller of a file call gets to see: for a read, the size and the bytes up to it. -/
inductive FileReply where
  | read (r : Option (Int × List UInt8))
  | written
  deriving DecidableEq

def FileResult.view : FileResult → FileReply
  | .read r => .read (r.map fun r => (r.size, (List.range r.size.toNat).map r.buf))
  | .written => .written

/-- The sizes that `write_file` does not refuse. -/
abbrev Accepts (size : Int) : Prop := 0 ≤ size ∧ size ≤ blockSize * maxFile

/-- The reply for a file, or for none, and what is there afterwards. -/
def FileCall.step : Option File → FileCall → FileReply × Option File
  | f, .read _ bufOut size now _ =>
      if bufOut && size then
        (.read (f.map fun f => ((f.bytes.length : Int), f.bytes)), f.map fun f => f.get now)
      else (.read none, f)
  | f, .write _ buf size _ =>
      (.written, if Accepts size then
        f.map fun f => { f with bytes := (List.range size.toNat).map buf } else f)

/-- The files, each under its inode number. -/
def FileCall.objects : Objects UInt32 FileCall FileReply (Option File) where
  key := FileCall.inum
  step := FileCall.step

/-- A write sets every slot of the record that was set before, and counts its blocks right. -/
def FileCall.Fitting : Option File → FileCall → Prop
  | _, .read _ _ _ _ _ => True
  | f, .write _ _ size _ => Accepts size → ∀ g ∈ f, Overwrites g.bytes.length size.toNat

instance : (f : Option File) → (call : FileCall) → Decidable (call.Fitting f)
  | _, .read _ _ _ _ _ => inferInstanceAs (Decidable True)
  | f, .write _ _ size _ => inferInstanceAs (Decidable (Accepts size → ∀ g ∈ f,
      Overwrites g.bytes.length size.toNat))

/-! ## Shares -/

/-- Rows `U` of the disk. -/
def Disk.share (d : Disk) (U : Finset Nat) : Heap Nat Block := Heap.restrict d.row (· ∈ U)

section Share
variable {d e : Disk} {U V : Finset Nat}

theorem share_congr (h : ∀ r ∈ U, d.row r = e.row r) : d.share U = e.share U :=
  Heap.restrict_congr (fun _ => Iff.rfl) h

theorem dom_share : (d.share U).dom = {r | r ∈ U} := Heap.dom_restrict

theorem row_of_agrees (h : (d.share U).Agrees e.row) {r : Nat} (hr : r ∈ U) :
    e.row r = d.row r := h r (d.row r) (Heap.restrict_pos hr)

/-- Rows `U` of `d`, the others of `e`. -/
def Disk.overlay (d : Disk) (U : Finset Nat) (e : Disk) : Disk :=
  ⟨fun r => if r.val ∈ U then d.blocks r else e.blocks r⟩

theorem row_overlay {r : Nat} : (d.overlay U e).row r = if r ∈ U then d.row r else e.row r := by
  unfold overlay row
  by_cases hr : r < 32768
  · simp only [hr, dif_pos]
  · simp only [hr, dif_neg, not_false_iff, ite_self]

theorem union_share : (d.share U).union (e.share V) = (d.overlay U e).share (U ∪ V) := by
  funext r
  rw [Heap.union, share, share, share]
  by_cases hU : r ∈ U
  · rw [Heap.restrict_pos hU, Option.some_or, Heap.restrict_pos (Finset.mem_union_left V hU),
      row_overlay, if_pos hU]
  · rw [Heap.restrict_neg hU, Option.none_or]
    by_cases hV : r ∈ V
    · rw [Heap.restrict_pos hV, Heap.restrict_pos (Finset.mem_union_right U hV), row_overlay,
        if_neg hU]
    · rw [Heap.restrict_neg hV, Heap.restrict_neg]
      rw [Finset.mem_union]
      exact not_or.mpr ⟨hU, hV⟩

theorem disjoint_share : (d.share U).Disjoint (e.share V) ↔ Disjoint U V := by
  rw [Finset.disjoint_left]
  refine forall_congr' fun r => ?_
  rw [share, share, Heap.restrict_eq_none, Heap.restrict_eq_none, imp_iff_not_or]

end Share

/-- The rows of a file `f` under number `i`, when the table had the other records from `d₀`. -/
structure Stores (d₀ : Disk) (i : Nat) (f : Option File) (d : Disk) (U : Finset Nat) : Prop where
  files : d.files i = f
  others : ∀ j ≠ i, tableBlock j = tableBlock i → d.inode j = d₀.inode j
  mem : ∀ r, r ∈ U ↔ r = tableBlock i ∨ d.Holds i r
  region : d.InUse i → ∀ p < pointers (d.size i), 123 ≤ d.ptr i p ∧ d.ptr i p < 32768
  distinct : d.InUse i → ∀ p < pointers (d.size i), ∀ q < pointers (d.size i),
    d.ptr i p = d.ptr i q → p = q
  sizeOk : d.InUse i → SizeOk (d.size i)
  trim : d.InUse i → (d.inode i).Trim

/-- The rows of the bitmap: its own, and the data blocks that it marks free. -/
def Disk.pool (d : Disk) : Finset Nat := Finset.Icc 1 8 ∪ freeIn d.used

/-- The data blocks among some rows. -/
def dataRows (U : Finset Nat) : Finset Nat := U.filter (123 ≤ ·)

/-- Files on which threads work at the same time: no two have their records in the same block of the
table, and there is space for each to grow to its greatest size. -/
structure Shared (d : Disk) (I : Finset Nat) : Prop where
  clean : d.Clean
  lt : ∀ i ∈ I, i < inodeNum
  tables : ∀ i ∈ I, ∀ j ∈ I, tableBlock i = tableBlock j → i = j
  space : 137 * I.card + d.files.blocks < dataBlocks

open Classical in
/-- How the rows are divided when no call is under way: the rows of the files `I`, those of the
bitmap (`none`), and the rest, under a number that no inode has. -/
noncomputable def Disk.division (d : Disk) (I : Finset Nat) : Nat → Option UInt32 := fun r =>
  if r ∈ d.pool then none
  else if h : ∃ i ∈ I, r = tableBlock i ∨ d.Holds i r then some (UInt32.ofNat h.choose)
  else some 0xffffffff

/-- The share is that of file `k` with the value `f`; a file not in `I` has what it had. -/
def HoldsFile (d : Disk) (I : Finset Nat) (k : UInt32) (f : Option File) (g : Heap Nat Block) :
    Prop :=
  if k.toNat ∈ I then ∃ e U, g = e.share U ∧ Stores d k.toNat f e U
  else f = d.files k.toNat ∧ g = Heap.restrict d.row fun r => d.division I r = some k

/-- File `k` has at most the blocks of a file of the greatest size. -/
def FitsFile (d : Disk) (I : Finset Nat) (k : UInt32) (S : Set Nat) : Prop :=
  if k.toNat ∈ I then ∃ U, S = {r | r ∈ U} ∧ (dataRows U).card ≤ 137
  else S ⊆ {r | d.division I r = some k}

section Division
variable {d : Disk} {I : Finset Nat}

theorem mem_pool {r : Nat} :
    r ∈ d.pool ↔ (1 ≤ r ∧ r ≤ 8) ∨ ((123 ≤ r ∧ r < 32768) ∧ r ∉ d.used) := by
  rw [pool, Finset.mem_union, Finset.mem_Icc, mem_freeIn]

theorem division_eq_none {r : Nat} : d.division I r = none ↔ r ∈ d.pool := by
  unfold division
  split
  · rename_i h
    exact iff_of_true rfl h
  · rename_i h
    split <;> exact iff_of_false nofun h

-- What is marked free, and is in no file's share, is the bitmap's.
theorem Shared.ample (h : Shared d I) {A : Nat → Option UInt32}
    (hfits : ∀ k, FitsFile d I k {r | A r = some k}) : ∃ r, A r = none ∧ 123 ≤ r ∧ r < 32768 := by
  by_contra hno
  have hsome : ∀ r ∈ Finset.Ico 123 32768, A r ≠ none := by
    intro r hr hA
    rw [Finset.mem_Ico] at hr
    exact hno ⟨r, hA, hr⟩
  -- the data blocks in the share of file `i`
  set T : Nat → Finset Nat := fun i =>
    (Finset.Ico 123 32768).filter fun r => A r = some (UInt32.ofNat i) with hT
  have hcover : Finset.Ico 123 32768 ⊆ I.biUnion T ∪ (Finset.range inodeNum).biUnion d.heldSet := by
    intro r hr
    obtain ⟨k, hk⟩ := Option.ne_none_iff_exists'.mp (hsome r hr)
    have hfit := hfits k
    rw [FitsFile] at hfit
    rw [Finset.mem_union]
    split at hfit
    · rename_i hin
      refine .inl (Finset.mem_biUnion.mpr ⟨_, hin, Finset.mem_filter.mpr ⟨hr, ?_⟩⟩)
      rw [hk, UInt32.ofNat_toNat]
    · have hdiv : d.division I r = some k := hfit hk
      refine .inr ?_
      rw [← h.clean.noLeak.marked_eq h.clean.sound, Finset.mem_inter]
      refine ⟨hr, ?_⟩
      by_contra hfree
      have hpool := mem_pool.mpr (.inr ⟨Finset.mem_Ico.mp hr, hfree⟩)
      cases hdiv.symm.trans (division_eq_none.mpr hpool)
  have hcard : ∀ i ∈ I, (T i).card ≤ 137 := by
    intro i hi
    have hlt := h.lt i hi
    have hi' : (UInt32.ofNat i).toNat = i := toNat_ofNat (by simp only [inodeNum] at hlt; omega)
    have hfit := hfits (UInt32.ofNat i)
    rw [FitsFile, hi', if_pos hi] at hfit
    obtain ⟨U, hU, hle⟩ := hfit
    refine le_trans (Finset.card_le_card fun r hr => ?_) hle
    obtain ⟨hr, hA⟩ := Finset.mem_filter.mp hr
    refine Finset.mem_filter.mpr ⟨?_, (Finset.mem_Ico.mp hr).1⟩
    have hmem : r ∈ {r | A r = some (UInt32.ofNat i)} := hA
    rw [hU] at hmem
    exact hmem
  have hblocks : ((Finset.range inodeNum).biUnion d.heldSet).card ≤ d.files.blocks := by
    refine le_trans Finset.card_biUnion_le (le_of_eq ?_)
    exact Finset.sum_congr rfl fun i _ => card_heldSet h.clean.sound i
  have hle := le_trans (Finset.card_le_card hcover) (Finset.card_union_le _ _)
  have hsum := Finset.card_biUnion_le_card_mul I T 137 hcard
  have hspace := h.space
  rw [Nat.card_Ico] at hle
  simp only [dataBlocks, blockNum] at hspace
  omega

end Division

theorem rwlock_ne_bitmap (k : UInt32) : Mutex.rwlock k ≠ .bitmap := fun h => by cases h

/-- The files `I` of the disk, each with its share, and the bitmap with its own. -/
def custody {d : Disk} {I : Finset Nat} (h : Shared d I) :
    Custody Disk Nat Block UInt32 Mutex FileCall FileReply (Option File) where
  get := Disk.row
  objects := FileCall.objects
  lockOf := .rwlock
  pool := .bitmap
  lockOf_inj := Mutex.rwlock.inj
  lockOf_ne := rwlock_ne_bitmap
  holds := HoldsFile d I
  stock g := ∃ e : Disk, g = e.share e.pool
  fits := FitsFile d I
  ample S := ∃ r ∈ S, 123 ≤ r ∧ r < 32768
  ample_of_fits := fun _ hfits => h.ample hfits

/-! ## What a call may do with its share -/

section Rules
variable {α : Type} {d : Disk} {I : Finset Nat} {h : Shared d I} {k : UInt32} {w : Option File}
variable {e : Disk} {U : Finset Nat} {pooled : Bool}

/-- The rules for a call on file `k` that brings it to `w`. -/
abbrev sharing (h : Shared d I) (k : UInt32) (w : Option File) :
    Ghost FsSig (Heap Nat Block × Bool) := owning (custody h) k w

theorem sharing_act {a : Action} {P : a.Res → Heap Nat Block × Bool → Prop}
    (hP : ∀ (j : Junk) (s : Disk), (∀ r ∈ U, s.row r = e.row r) →
      (∀ r ∉ U, (Action.exec a j s).2.2.row r = s.row r) ∧
      P (Action.exec a j s).1 ((Action.exec a j s).2.2.share U, pooled)) :
    (sharing h k w).act a P (e.share U, pooled) := by
  intro j s hs
  obtain ⟨hrest, hnext⟩ := hP j s fun r hr => row_of_agrees hs hr
  refine ⟨fun r hr => hrest r (Heap.restrict_eq_none.mp hr), ?_⟩
  change P _ ((e.share U).refresh (Action.exec a j s).2.2.row, pooled)
  rw [share, Heap.refresh_restrict]
  exact hnext

-- An action that leaves the disk alone.
theorem sharing_idle {a : Action} {P : a.Res → Heap Nat Block × Bool → Prop}
    (hP : ∀ (j : Junk) (s : Disk), (∀ r ∈ U, s.row r = e.row r) →
      (Action.exec a j s).2.2 = s ∧ P (Action.exec a j s).1 (e.share U, pooled)) :
    (sharing h k w).act a P (e.share U, pooled) := by
  apply sharing_act
  intro j s hs
  obtain ⟨hsame, hnext⟩ := hP j s hs
  rw [hsame, share_congr hs]
  exact ⟨fun _ _ => rfl, hnext⟩

theorem sharing_freshMem {Q : Mem → Heap Nat Block × Bool → Prop}
    (hQ : ∀ m, Q m (e.share U, pooled)) :
    Follows (sharing h k w) freshMem Q (e.share U, pooled) :=
  sharing_idle fun _ _ _ => ⟨rfl, hQ _⟩

theorem sharing_freshBlock {Q : Block → Heap Nat Block × Bool → Prop}
    (hQ : ∀ b, Q b (e.share U, pooled)) :
    Follows (sharing h k w) freshBlock Q (e.share U, pooled) :=
  Follows.bind (sharing_freshMem fun _ => hQ _)

theorem sharing_readDisk {id : UInt32} {buf : Block} {Q : Block → Heap Nat Block × Bool → Prop}
    (hid : id.toNat < 32768) (hmem : id.toNat ∈ U)
    (hQ : Q (e.row id.toNat) (e.share U, pooled)) :
    Follows (sharing h k w) (readDisk id buf) Q (e.share U, pooled) := by
  apply sharing_idle
  intro j s hs
  rw [exec_read hid, hs _ hmem]
  exact ⟨rfl, hQ⟩

-- The buffer may hold anything after a read of a row that the call does not own.
theorem sharing_readDisk_any {id : UInt32} {buf : Block} {Q : Block → Heap Nat Block × Bool → Prop}
    (hQ : ∀ b, Q b (e.share U, pooled)) :
    Follows (sharing h k w) (readDisk id buf) Q (e.share U, pooled) := by
  apply sharing_idle
  intro j s _
  simp only [Action.exec]
  split
  · exact ⟨rfl, hQ _⟩
  · split <;> exact ⟨rfl, hQ _⟩

theorem sharing_writeDisk {who : Caller} {id : UInt32} {buf : Block}
    {Q : Unit → Heap Nat Block × Bool → Prop} (hid : id.toNat < 32768) (hmem : id.toNat ∈ U)
    (hQ : Q () ((e.setRow id.toNat buf).share U, pooled)) :
    Follows (sharing h k w) (writeDisk who id buf) Q (e.share U, pooled) := by
  apply sharing_act
  intro j s hs
  rw [exec_write hid]
  refine ⟨fun r hr => row_setRow_ne s buf fun hc => hr (hc ▸ hmem), ?_⟩
  have hrows : (s.setRow id.toNat buf).share U = (e.setRow id.toNat buf).share U := by
    apply share_congr
    intro r hr
    rw [row_setRow, row_setRow, hs r hr]
  exact hrows ▸ hQ

theorem sharing_entry {b : Block} {i : Nat} {Q : UInt32 → Heap Nat Block × Bool → Prop}
    (hi : i < 128) (hQ : Q (b.word i) (e.share U, pooled)) :
    Follows (sharing h k w) (entry b i) Q (e.share U, pooled) := by
  rw [entry, if_pos hi]
  exact hQ

/-! ### The record -/

variable {inum : UInt32}

theorem sharing_getInode {Q : Option Inode → Heap Nat Block × Bool → Prop} (hi : inum.toNat < 1024)
    (hmem : tableBlock inum.toNat ∈ U) (hQ : Q (e.lookup inum.toNat) (e.share U, pooled)) :
    Follows (sharing h k w) (getInode inum) Q (e.share U, pooled) := by
  have hb := toNat_iblock hi
  have hlt := tableBlock_bounds hi
  rw [getInode, if_neg (Nat.not_le.mpr hi)]
  refine Follows.bind (sharing_freshBlock fun _ => Follows.bind (sharing_readDisk ?_ ?_ ?_))
  · rw [hb]
    omega
  · rwa [hb]
  · rw [hb]
    change Follows _ (if (e.inode inum.toNat).type = 0 then _ else _) _ _
    split
    · rename_i ht
      rw [lookup_eq_none fun hin => hin.2 ht] at hQ
      exact hQ
    · rename_i ht
      rw [lookup_eq_some ⟨hi, ht⟩] at hQ
      exact hQ

theorem sharing_putInode {ino : Inode} {Q : Unit → Heap Nat Block × Bool → Prop}
    (hi : inum.toNat < 1024) (hmem : tableBlock inum.toNat ∈ U)
    (hQ : Q () ((e.setInode inum.toNat ino).share U, pooled)) :
    Follows (sharing h k w) (putInode inum ino) Q (e.share U, pooled) := by
  have hb := toNat_iblock hi
  have hlt := tableBlock_bounds hi
  have hrow : (UInt32.ofNat (iblock inum.toNat sb.nblocks)).toNat < 32768 := by omega
  rw [putInode, if_neg (Nat.not_le.mpr hi)]
  refine Follows.bind (sharing_freshBlock fun _ => Follows.bind (sharing_readDisk hrow ?_ ?_))
  · rwa [hb]
  · refine sharing_writeDisk hrow (by rwa [hb]) ?_
    rw [hb]
    exact hQ

/-! ### The bitmap -/

theorem fits_insert (hk : k.toNat ∈ I) (hroom : (dataRows U).card < 137) (id : Nat) :
    FitsFile d I k {r | r ∈ insert id U} := by
  rw [FitsFile, if_pos hk]
  refine ⟨insert id U, rfl, ?_⟩
  have hsub : dataRows (insert id U) ⊆ insert id (dataRows U) := by
    intro r hr
    obtain ⟨hr, hlow⟩ := Finset.mem_filter.mp hr
    rcases Finset.mem_insert.mp hr with rfl | hr
    · exact Finset.mem_insert_self ..
    · exact Finset.mem_insert_of_mem (Finset.mem_filter.mpr ⟨hr, hlow⟩)
  have hcard := (Finset.card_le_card hsub).trans (Finset.card_insert_le ..)
  omega

theorem fits_erase (hfits : FitsFile d I k {r | r ∈ U}) (id : Nat) :
    FitsFile d I k {r | r ∈ U.erase id} := by
  have herase : ∀ r, r ∈ U.erase id → r ∈ U := fun r => Finset.mem_of_mem_erase
  unfold FitsFile at hfits ⊢
  split at hfits
  · rename_i hk
    obtain ⟨V, hV, hcard⟩ := hfits
    have hUV : ∀ r, r ∈ U ↔ r ∈ V := fun r => Set.ext_iff.mp hV r
    rw [if_pos hk]
    refine ⟨U.erase id, rfl, le_trans (Finset.card_le_card fun r hr => ?_) hcard⟩
    obtain ⟨hr, hlow⟩ := Finset.mem_filter.mp hr
    exact Finset.mem_filter.mpr ⟨(hUV r).mp (herase r hr), hlow⟩
  · rename_i hk
    rw [if_neg hk]
    exact fun r hr => hfits (herase r hr)

-- The call that locks the bitmap has its rows as well.
theorem sharing_lock {Q : Unit → Heap Nat Block × Bool → Prop}
    (hQ : ∀ s : Disk, (∀ r ∈ U, s.row r = e.row r) → Disjoint U s.pool → (freeIn s.used).Nonempty →
      FitsFile d I k {r | r ∈ U} → Q () (s.share (U ∪ s.pool), true)) :
    Follows (sharing h k w) (lock .bitmap) Q (e.share U, false) := by
  refine ⟨rfl, rfl, ?_⟩
  rintro hfits g ⟨s, rfl⟩ ⟨r, hr, hlow, hlt⟩ hdisj
  have hapart := disjoint_share.mp hdisj
  have hrows : ∀ r ∉ U, (e.overlay U s).row r = s.row r := fun r hr => by rw [row_overlay, if_neg hr]
  have hused : (e.overlay U s).used = s.used := by
    apply used_congr
    intro r hr hr'
    have hmem : r ∈ s.pool := mem_pool.mpr (.inl ⟨hr, hr'⟩)
    exact hrows r (Finset.disjoint_right.mp hapart hmem)
  have hpool : (e.overlay U s).pool = s.pool := by rw [pool, hused, ← pool]
  have hfree : r ∈ freeIn (e.overlay U s).used := by
    have hdom : r ∈ (s.share s.pool).dom := hr
    rw [dom_share] at hdom
    have hmem : r ∈ s.pool := hdom
    rw [hused, mem_freeIn]
    rcases mem_pool.mp hmem with hbad | hfree
    · omega
    · exact hfree
  change Q () ((e.share U).union (s.share s.pool), true)
  rw [union_share, ← hpool]
  refine hQ _ (fun r hr => ?_) (hpool.symm ▸ hapart) ⟨r, hfree⟩ ?_
  · rw [row_overlay, if_pos hr]
  · rw [← dom_share (d := e)]
    exact hfits

-- What is left for the bitmap are its rows, as they are now.
theorem sharing_unlock {V : Finset Nat} {Q : Unit → Heap Nat Block × Bool → Prop}
    (hfits : FitsFile d I k {r | r ∈ V}) (hdisj : Disjoint V e.pool) (hU : U = V ∪ e.pool)
    (hQ : Q () (e.share V, false)) :
    Follows (sharing h k w) (unlock .bitmap) Q (e.share U, true) := by
  refine .inl ⟨rfl, rfl, e.share V, e.share e.pool, ?_, disjoint_share.mpr hdisj, ?_, ⟨e, rfl⟩, hQ⟩
  · rw [union_share, hU]
    apply share_congr
    intro r _
    rw [row_overlay, ite_self]
  · rw [dom_share]
    exact hfits

theorem pool_markUsed {id : Nat} (hid : id ∈ freeIn e.used) :
    (e.markUsed id).pool = e.pool.erase id := by
  obtain ⟨⟨hlow, hlt⟩, hfree⟩ := mem_freeIn.mp hid
  ext r
  rw [Finset.mem_erase, mem_pool, mem_pool, used_markUsed e id hlt hfree, Finset.mem_insert, not_or]
  by_cases hr : r = id
  · subst hr
    refine iff_of_false ?_ fun hc => hc.1 rfl
    rintro (hc | hc)
    · omega
    · exact hc.2.1 rfl
  · simp only [hr, ne_eq, not_false_iff, true_and]

theorem pool_markFree {id : Nat} (hlow : 123 ≤ id) (hlt : id < 32768) :
    (e.markFree id).pool = insert id e.pool := by
  ext r
  rw [Finset.mem_insert, mem_pool, mem_pool, used_markFree, Finset.mem_erase]
  by_cases hr : r = id
  · subst hr
    simp only [hlow, hlt, ne_eq, not_true, false_and, not_false_iff, and_true, or_true, true_or]
  · simp only [hr, ne_eq, not_false_iff, true_and, false_or]

theorem pool_markFree_zero : (e.markFree 0).pool = e.pool := by
  ext r
  rw [mem_pool, mem_pool, used_markFree, Finset.mem_erase]
  by_cases hr : r = 0
  · refine iff_of_false ?_ ?_ <;> rintro (hc | ⟨hc, -⟩) <;> omega
  · simp only [hr, ne_eq, not_false_iff, true_and]

-- The loop of `alloc_block` finds a free block before it comes to its end.
theorem sharing_allocScan {n id : Nat} {Q : UInt32 → Heap Nat Block × Bool → Prop}
    (hk : k.toNat ∈ I) (hroom : (dataRows U).card < 137) (hdisj : Disjoint U e.pool)
    (hne : (freeIn e.used).Nonempty) (hlow : 123 ≤ id) (hn : id + n = 32768)
    (hset : ∀ x ∈ freeIn e.used, id ≤ x)
    (hQ : ∀ id b, 123 ≤ id → id < 32768 → id ∉ U →
      Q (UInt32.ofNat id) ((e.setRow id b).share (insert id U), false)) :
    Follows (sharing h k w) (allocScan n id) Q (e.share (U ∪ e.pool), true) := by
  induction n generalizing id with
  | zero =>
    obtain ⟨x, hx⟩ := hne
    have h1 := hset x hx
    have h2 := (mem_freeIn.mp hx).1
    omega
  | succ n ih =>
    have hlt : id < 32768 := by omega
    have hb := toNat_bblock hlt
    have hbound := bblock_lt hlt
    have hrow : (UInt32.ofNat (bblock id)).toNat < 32768 := by omega
    have hmem : bblock id ∈ U ∪ e.pool :=
      Finset.mem_union_right _ (mem_pool.mpr (.inl hbound))
    have htest : (e.row (bblock id)).byte (id % bpb / 8) &&& charBit (id % bpb % 8) ≠ 0 ↔
        e.bit id = true := and_charBit_ne_zero _ _ (by omega)
    rw [allocScan]
    refine Follows.bind (sharing_freshBlock fun _ =>
      Follows.bind (sharing_readDisk hrow (by rwa [hb]) ?_))
    simp only [hb, htest]
    by_cases hbit : e.bit id = true
    · rw [if_pos hbit]
      apply ih (by omega) (by omega)
      intro x hx
      rcases Nat.eq_or_lt_of_le (hset x hx) with rfl | hgt
      · exact absurd (mem_used.mpr ⟨hlt, hbit⟩) (mem_freeIn.mp hx).2
      · exact hgt
    · have hfree : id ∈ freeIn e.used :=
        mem_freeIn.mpr ⟨⟨hlow, hlt⟩, fun hc => hbit (mem_used.mp hc).2⟩
      have hnew : id ∉ U := Finset.disjoint_right.mp hdisj (Finset.mem_union_right _ hfree)
      have hpool := pool_markUsed hfree
      rw [if_neg hbit]
      refine Follows.bind (sharing_writeDisk hrow (by rwa [hb]) ?_)
      rw [hb]
      refine Follows.bind (sharing_unlock (V := insert id U) (fits_insert hk hroom id) ?_ ?_ ?_)
      · change Disjoint _ (e.markUsed id).pool
        rw [hpool, Finset.disjoint_insert_left]
        exact ⟨Finset.notMem_erase _ _, hdisj.mono_right (Finset.erase_subset ..)⟩
      · change _ = _ ∪ (e.markUsed id).pool
        have hin : id ∈ e.pool := Finset.mem_union_right _ hfree
        rw [hpool, Finset.insert_union, ← Finset.union_insert, Finset.insert_erase hin]
      · change Q (UInt32.ofNat id) ((e.markUsed id).share (insert id U), false)
        have hrows : (e.markUsed id).share (insert id U) =
            (e.setRow id ((e.markUsed id).row id)).share (insert id U) := by
          apply share_congr
          intro r hr
          rw [row_setRow]
          split
          · rename_i heq
            rw [heq.1]
          · rename_i hne'
            refine row_setBitmapByte_ne e id _ fun hc => ?_
            rcases Finset.mem_insert.mp hr with rfl | hr
            · exact hne' ⟨rfl, hlt⟩
            · exact Finset.disjoint_left.mp hdisj hr (hc ▸ mem_pool.mpr (.inl hbound))
        rw [hrows]
        exact hQ id _ hlow hlt hnew

/-- `alloc_block` answers some block that the caller does not own, which it then owns. -/
theorem sharing_allocBlock {Q : UInt32 → Heap Nat Block × Bool → Prop} (hk : k.toNat ∈ I)
    (hroom : (dataRows U).card < 137)
    (hQ : ∀ id b, 123 ≤ id → id < 32768 → id ∉ U →
      Q (UInt32.ofNat id) ((e.setRow id b).share (insert id U), false)) :
    Follows (sharing h k w) allocBlock Q (e.share U, false) := by
  refine Follows.bind (sharing_lock fun s hs hdisj hne _ => ?_)
  refine sharing_allocScan hk hroom hdisj hne le_rfl rfl (fun x hx => (mem_freeIn.mp hx).1.1) ?_
  intro id b hlow hlt hnew
  have hrows : (s.setRow id b).share (insert id U) = (e.setRow id b).share (insert id U) := by
    apply share_congr
    intro r hr
    rw [row_setRow, row_setRow]
    split
    · rfl
    · rename_i hne'
      rcases Finset.mem_insert.mp hr with rfl | hr
      · exact absurd ⟨rfl, hlt⟩ hne'
      · exact hs r hr
  rw [hrows]
  exact hQ id b hlow hlt hnew

-- `free_block`, when the caller gives up what it frees.
theorem sharing_freeBlock_of {id : UInt32} {V : Finset Nat}
    {Q : Unit → Heap Nat Block × Bool → Prop} (hid : id.toNat < 32768) (hV : V ⊆ U)
    (hfits : FitsFile d I k {r | r ∈ U} → FitsFile d I k {r | r ∈ V})
    (hpool : ∀ s : Disk, Disjoint U s.pool →
      Disjoint V (s.markFree id.toNat).pool ∧ U ∪ s.pool = V ∪ (s.markFree id.toNat).pool)
    (hQ : Q () (e.share V, false)) :
    Follows (sharing h k w) (freeBlock id) Q (e.share U, false) := by
  have hb := toNat_bblock hid
  have hbound := bblock_lt hid
  have hrow : (UInt32.ofNat (bblock id.toNat)).toNat < 32768 := by omega
  refine Follows.bind (sharing_lock fun s hs hdisj _ hfit => ?_)
  have hmem : bblock id.toNat ∈ U ∪ s.pool :=
    Finset.mem_union_right _ (mem_pool.mpr (.inl hbound))
  refine Follows.bind (sharing_freshBlock fun _ =>
    Follows.bind (sharing_readDisk hrow (by rwa [hb]) ?_))
  rw [hb]
  refine Follows.bind (sharing_writeDisk hrow (by rwa [hb]) ?_)
  rw [hb]
  obtain ⟨hdisj', heq⟩ := hpool s hdisj
  refine sharing_unlock (hfits hfit) hdisj' heq ?_
  have hrows : (s.markFree id.toNat).share V = e.share V := by
    apply share_congr
    intro r hr
    rw [← hs r (hV hr)]
    refine row_setBitmapByte_ne s id.toNat _ fun hc => ?_
    exact Finset.disjoint_left.mp hdisj (hV hr) (hc ▸ mem_pool.mpr (.inl hbound))
  change Q () ((s.markFree id.toNat).share V, false)
  rw [hrows]
  exact hQ

/-- A call gives a block of its own back to the bitmap. -/
theorem sharing_freeBlock {id : UInt32} {Q : Unit → Heap Nat Block × Bool → Prop}
    (hlow : 123 ≤ id.toNat) (hlt : id.toNat < 32768) (hmem : id.toNat ∈ U)
    (hQ : Q () (e.share (U.erase id.toNat), false)) :
    Follows (sharing h k w) (freeBlock id) Q (e.share U, false) := by
  refine sharing_freeBlock_of hlt (Finset.erase_subset ..) (fun hfit => fits_erase hfit _)
    (fun s hdisj => ?_) hQ
  rw [pool_markFree hlow hlt]
  constructor
  · rw [Finset.disjoint_insert_right]
    exact ⟨Finset.notMem_erase _ _, hdisj.mono_left (Finset.erase_subset ..)⟩
  · rw [Finset.union_insert, ← Finset.insert_union, Finset.insert_erase hmem]

-- The bit of block 0 means nothing.
theorem sharing_freeBlock_zero {id : UInt32} {Q : Unit → Heap Nat Block × Bool → Prop}
    (hid : id.toNat = 0) (hQ : Q () (e.share U, false)) :
    Follows (sharing h k w) (freeBlock id) Q (e.share U, false) := by
  refine sharing_freeBlock_of (by omega) Finset.Subset.rfl (fun hfit => hfit) (fun s hdisj => ?_) hQ
  rw [hid, pool_markFree_zero]
  exact ⟨hdisj, rfl⟩

end Rules

end InodeFs
