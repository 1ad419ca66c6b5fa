import InodeFs.ReadFile
import InodeFs.Runs
import InodeFs.Slots

/-!
# Which blocks `read_file` loads

`read_file` returns the file and changes its access time only.  It loads the block that `blocks[8]`
names before it knows whether the file has an indirect block, so a file of up to eight chunks has it
follow an id that is not the file's.
-/

namespace InodeFs

open BlockLayer InodeLayer FsServer Prog Disk

/-! ## Reading a file and nothing else -/

/-- `e` is `d` but for the access time of inode `i`, which is `now`. -/
structure Disk.Accessed (d : Disk) (i : Nat) (now : UInt32) (e : Disk) : Prop where
  inode : e.inode i = (d.inode i).setAtime now
  /-- The field is at bytes 8 to 11 of the record. -/
  bytes : ∀ r < 32768, ∀ x < 512, ¬ (r = tableBlock i ∧ sizeofInode * (i % ipb) + 8 ≤ x ∧
    x < sizeofInode * (i % ipb) + 12) → (e.row r).byte x = (d.row r).byte x

/-- The id of the block of chunk `k` of inode `i`. -/
def Disk.chunkId (d : Disk) (i k : Nat) : UInt32 :=
  (slotOf k).named (d.inode i) (d.row ((d.inode i).block 8).toNat)

/-- `read_file` returns the bytes of the file, as many as its size says, and changes the access
time. -/
def ReadsFile (d : Disk) (inum now : UInt32) : Prop :=
  wp (readFile inum true true now) (fun r e => (∃ q, r = some q ∧ q.size = d.size inum.toNat ∧
    ∀ j < d.size inum.toNat,
      q.buf j = (d.row (d.chunkId inum.toNat (j / 512)).toNat).byte (j % 512)) ∧
    d.Accessed inum.toNat now e) d

/-- The pointers of the file of inode `i`: `blocks[8]` if it has an indirect block, and those of its
chunks. -/
def Disk.filePointers (d : Disk) (i : Nat) : List UInt32 :=
  (if 8 < chunks (d.size i) then [(d.inode i).block 8] else []) ++
    (List.range (chunks (d.size i))).map (d.chunkId i)

/-- After the two loads of the inode's block, by `get_inode` and by `put_inode`, `read_file` loads the
blocks that the pointers of the file name, and no other. -/
def FollowsOwn (d : Disk) (inum now : UInt32) : Prop :=
  Lists blockLoad (readFile inum true true now) d fun _ _ l =>
    l = List.replicate 2 (UInt32.ofNat (tableBlock inum.toNat)) ++ d.filePointers inum.toNat

/-! ## The bytes -/

section Bytes
variable {d : Disk} {i : Nat}

theorem ptr_chunkPtr (k : Nat) : d.ptr i (chunkPtr k) = (d.chunkId i k).toNat := by
  by_cases h8 : k < 8
  · rw [chunkPtr, if_pos h8, chunkId, slotOf, if_pos h8]
    exact ptr_direct (by omega)
  · rw [chunkPtr, if_neg h8, chunkId, slotOf, if_neg h8, ptr_entry (by omega)]
    rfl

theorem accessed_setAtime (hi : i < 1024) (now : UInt32) :
    d.Accessed i now (d.setInode i ((d.inode i).setAtime now)) := by
  refine ⟨inode_setInode_self _ _ hi, fun r hr x hx hno => ?_⟩
  by_cases hrow : r = tableBlock i
  · subst hrow
    rw [setInode, row_setRow_self _ _ _ hr]
    refine Inode.byte_intoBlock_of_eq _ _ _ _ hx fun hlo hhi => ?_
    have hword : (x - sizeofInode * (i % ipb)) / 4 ≠ 2 := by omega
    have hrec : Inode.ofBlock (d.row (tableBlock i)) (i % ipb) = d.inode i := rfl
    rw [hrec]
    simp only [Inode.byte?, Inode.setAtime, Inode.word, if_neg hword]
  · rw [row_setInode _ _ hrow]

theorem readsFile {inum : UInt32} (hin : d.InUse inum.toNat) (hs : d.size inum.toNat ≤ 69632)
    (hregion : ∀ p < pointers (d.size inum.toNat),
      123 ≤ d.ptr inum.toNat p ∧ d.ptr inum.toNat p < 32768) (now : UInt32) :
    ReadsFile d inum now := by
  refine wp_readFile hin hs hregion fun r hsize hbytes => ?_
  refine ⟨⟨r, rfl, hsize, fun j hj => ?_⟩, accessed_setAtime hin.1 now⟩
  rw [hbytes j hj, fileByte, ptr_chunkPtr]

end Bytes

/-! ## The loads -/

section Loads
variable {α : Type}

/-- `p` loads no block. -/
abbrev Loadless (p : FsM α) : Prop := Yields (S := FsSig) blockLoad p []

theorem loadless_freshBlock : Loadless freshBlock := fun _ _ => rfl

theorem yields_readBlock (id : UInt32) (b : Block) :
    Yields (S := FsSig) blockLoad (readBlock id b) [id] := fun _ _ => rfl

theorem yields_getInode {inum : UInt32} (hi : inum.toNat < 1024) :
    Yields (S := FsSig) blockLoad (getInode inum) [UInt32.ofNat (tableBlock inum.toNat)] := by
  rw [getInode, if_neg (Nat.not_le.mpr hi)]
  refine loadless_freshBlock.seq fun _ => (yields_readBlock _ _).andThen fun b => ?_
  simp only
  split <;> exact .ret _

theorem yields_putInode {inum : UInt32} (hi : inum.toNat < 1024) (ino : Inode) :
    Yields (S := FsSig) blockLoad (putInode inum ino) [UInt32.ofNat (tableBlock inum.toNat)] := by
  rw [putInode, if_neg (Nat.not_le.mpr hi)]
  exact loadless_freshBlock.seq fun _ => (yields_readBlock _ _).andThen fun b => .perform _

-- The loop takes the actions of its loads, whatever is selected of them.
theorem yields_readLoop {γ : Type} {f : Action → Option γ} (ys : Nat → List γ) (ino : Inode)
    (b : Block) (m : Mem) {s : Nat} (hs : s ≤ 69632)
    (hload : ∀ k, Yields (S := FsSig) f (freshBlock >>= readBlock ((slotOf k).named ino b)) (ys k)) :
    Yields (S := FsSig) f (whileLoop (fun r => decide (r.remainingBytesToBeRead > 0)) (readStep ino b) s
      ⟨m, s, 0, 0, 0⟩) ((List.range (chunks s)).flatMap ys) := by
  intro l
  refine Follows.whileLoop_done (I := fun r l' => ∃ k ≤ chunks s, AtRead s k r ∧
    l' = l ++ (List.range k).flatMap ys)
    (fun r => r.remainingBytesToBeRead.toNat) ?_ le_rfl ?_ ?_ ?_
  · refine ⟨0, Nat.zero_le _, ⟨rfl, rfl, ?_, rfl⟩, (List.append_nil l).symm⟩
    simp only [Nat.mul_zero, Nat.zero_min, Nat.cast_zero]
  · intro r hpos
    rw [decide_eq_true_eq] at hpos
    omega
  · rintro r l' ⟨k, hk, hat, rfl⟩ hpos
    have hrem := hat.remaining
    rw [decide_eq_true_eq] at hpos
    have hlt : k < chunks s := lt_chunks_iff.mpr (by omega)
    rw [readStep_eq ino b hat (lt_chunks_iff.mp hlt) hs, ← Prog.bind_assoc]
    refine Follows.bind ((hload k _).mono fun c l' hl' => ⟨⟨k + 1, hlt, AtRead.next r c, ?_⟩, ?_⟩)
    · rw [hl', List.append_assoc, List.range_succ, List.flatMap_append, List.flatMap_singleton]
    · change ((s - 512 * (k + 1) : Nat) : Int).toNat < r.remainingBytesToBeRead.toNat
      omega
  · rintro r l' ⟨k, hk, hat, rfl⟩ hdone
    have hrem := hat.remaining
    rw [decide_eq_false_iff_not] at hdone
    have heq : k = chunks s := by
      have := chunks_le_iff (s := s) (n := k)
      omega
    rw [heq]

variable {d : Disk} {inum : UInt32}

-- The slot of a chunk names its block, in the record that is stored first.
theorem named_slotOf {i k : Nat} {b : Block} (now : UInt32) (hk : k < chunks (d.size i))
    (hb : 8 < chunks (d.size i) → b = d.row ((d.inode i).block 8).toNat) :
    (slotOf k).named ((d.inode i).setAtime now) b = d.chunkId i k := by
  by_cases h8 : k < 8
  · simp only [chunkId, slotOf, if_pos h8]
    rfl
  · rw [hb (by omega), chunkId, slotOf, if_neg h8]
    rfl

-- The loop and what comes after it, when `b` is what the load of `blocks[8]` has brought.
theorem yields_readRest {i : Nat} (hs : d.size i ≤ 69632) (now : UInt32) (m : Mem) {b : Block}
    (hb : 8 < chunks (d.size i) → b = d.row ((d.inode i).block 8).toNat) :
    Yields (S := FsSig) blockLoad (do
      let r ← whileLoop (fun r => decide (r.remainingBytesToBeRead > 0))
        (readStep ((d.inode i).setAtime now) b) (d.size i) ⟨m, d.size i, 0, 0, 0⟩
      Rwlock.readerExit inum
      pure (some ⟨r.buf, d.size i⟩) : FsM (Option ReadResult))
      ((List.range (chunks (d.size i))).map (d.chunkId i)) := by
  have hsame : (List.range (chunks (d.size i))).map (d.chunkId i) =
      (List.range (chunks (d.size i))).map
        fun k => (slotOf k).named ((d.inode i).setAtime now) b :=
    List.map_congr_left fun k hk => (named_slotOf now (List.mem_range.mp hk) hb).symm
  rw [hsame, List.map_eq_flatMap]
  exact (yields_readLoop _ _ b m hs fun k => loadless_freshBlock.seq (yields_readBlock _)).andThen
    fun r l => (List.append_nil l).symm

/-- Whatever the size, `blocks[8]` is followed. -/
theorem lists_readFile (hin : d.InUse inum.toNat) (hs : d.size inum.toNat ≤ 69632)
    (hregion : ∀ p < pointers (d.size inum.toNat),
      123 ≤ d.ptr inum.toNat p ∧ d.ptr inum.toNat p < 32768) (now : UInt32) :
    Lists blockLoad (readFile inum true true now) d fun _ _ l =>
      l = List.replicate 2 (UInt32.ofNat (tableBlock inum.toNat)) ++
        ((d.inode inum.toNat).block 8 ::
          (List.range (chunks (d.size inum.toNat))).map (d.chunkId inum.toNat)) := by
  set i := inum.toNat with hi
  set e := d.setInode i ((d.inode i).setAtime now) with he
  have hint : asInt ((d.inode i).setAtime now).size = (d.size i : Int) := by
    change asInt (d.inode i).size = _
    exact asInt_of_lt (by change d.size i < _; omega)
  have hcode : Lists blockLoad (readFile inum true true now) d fun _ _ l =>
      l = [UInt32.ofNat (tableBlock i)] ++ ([UInt32.ofNat (tableBlock i)] ++
        ([(d.inode i).block 8] ++ (List.range (chunks (d.size i))).map (d.chunkId i))) := by
    simp only [readFile, Bool.not_true, Bool.or_self, Bool.false_eq_true, if_false]
    refine .seq (fun l => (List.append_nil l).symm) ?_
    rw [wp_readerEnter]
    refine .bind (.of_yields (yields_getInode hin.1) ?_)
    rw [wp_getInode, lookup_eq_some hin]
    refine .bind (.of_yields (yields_putInode hin.1 _) ?_)
    rw [wp_putInode _ _ _ _ hin.1, ← hi, ← he, hint, Int.toNat_natCast]
    refine .seq (fun _ _ => rfl) ((wp_freshMem _ _).mpr fun m => ?_)
    refine .seq loadless_freshBlock ((wp_freshBlock _ _).mpr fun buffer => ?_)
    refine .bind (.of_yields (yields_readBlock _ _) ?_)
    by_cases h8 : 8 < chunks (d.size i)
    · have hrow := hregion 8 (by rw [pointers_eq_of_lt h8]; omega)
      rw [ptr_direct le_rfl] at hrow
      refine (wp_readDisk _ _ _ _ hrow.2).mpr ?_
      exact Lists.last (yields_readRest hs now m fun _ => row_setInode_data d _ hin.1 hrow.1)
        fun _ _ => rfl
    · exact wp_readDisk_of_forall _ _ fun b =>
        Lists.last (yields_readRest hs now m fun h => absurd h h8) fun _ _ => rfl
  exact hcode

theorem followsOwn_of_lt (hin : d.InUse inum.toNat) (hs : d.size inum.toNat ≤ 69632)
    (hregion : ∀ p < pointers (d.size inum.toNat),
      123 ≤ d.ptr inum.toNat p ∧ d.ptr inum.toNat p < 32768) (now : UInt32)
    (h8 : 8 < chunks (d.size inum.toNat)) : FollowsOwn d inum now := by
  intro j r j' e hrun
  rw [lists_readFile hin hs hregion now j r j' e hrun, filePointers, if_pos h8]
  rfl

-- One load too many.
theorem not_followsOwn_of_le (hin : d.InUse inum.toNat) (hs : d.size inum.toNat ≤ 69632)
    (hregion : ∀ p < pointers (d.size inum.toNat),
      123 ≤ d.ptr inum.toNat p ∧ d.ptr inum.toNat p < 32768) (now : UInt32)
    (h8 : chunks (d.size inum.toNat) ≤ 8) : ¬ FollowsOwn d inum now := by
  intro hfollows
  obtain ⟨r, j, e, hrun, -⟩ := wp_run (readsFile hin hs hregion now) fun _ _ => 0
  have hloads := lists_readFile hin hs hregion now _ r j e hrun
  rw [hfollows _ r j e hrun, filePointers, if_neg (Nat.not_lt.mpr h8)] at hloads
  have hlen := congrArg List.length hloads
  simp only [List.length_append, List.length_cons, List.length_nil, List.length_map] at hlen
  omega

end Loads

section Exact
variable {d : Disk} {inum : UInt32}

/-- `read_file` returns the file whatever its size; it follows the pointers of the file and no others
just when the file has an indirect block. -/
theorem followsOwn_iff (hin : d.InUse inum.toNat) (hs : d.size inum.toNat ≤ blockSize * maxFile)
    (hregion : ∀ p < pointers (d.size inum.toNat),
      123 ≤ d.ptr inum.toNat p ∧ d.ptr inum.toNat p < blockNum) (now : UInt32) :
    ReadsFile d inum now ∧
      (ReadsFile d inum now ∧ FollowsOwn d inum now ↔ 4096 < d.size inum.toNat) := by
  have hle : d.size inum.toNat ≤ 69632 := by
    simpa only [blockSize, maxFile, nDirect, nIndirect] using hs
  have hback := readsFile hin hle hregion now
  refine ⟨hback, fun h => ?_, fun hlt => ⟨hback, ?_⟩⟩
  · by_contra hsmall
    exact not_followsOwn_of_le hin hle hregion now (chunks_le_iff.mpr (by omega)) h.2
  · exact followsOwn_of_lt hin hle hregion now (lt_chunks_iff.mpr (by omega))

end Exact

/-- A file of ten chunks. -/
theorem followsOwn_iff_put : ∃ d, d.size 0 = 5000 ∧ ReadsFile d 0 7 ∧ FollowsOwn d 0 7 := by
  obtain ⟨d, hd, hin, hsize⟩ := exists_root_of_size (n := 5000) ⟨by decide, by omega⟩
  have hroot : d.InUse (0 : UInt32).toNat := hin
  refine ⟨d, hsize, (followsOwn_iff hroot ?_ (hd.sound.region 0 hin) 7).2.mpr ?_⟩
  · rw [UInt32.toNat_zero, hsize]
    decide
  · rw [UInt32.toNat_zero, hsize]
    omega

/-- The root is empty, and block 0 is loaded for it. -/
theorem not_followsOwn_root : ¬ ∀ d, Reachable d → ∀ inum : UInt32, d.InUse inum.toNat →
    d.size inum.toNat ≤ blockSize * maxFile →
    (∀ p < pointers (d.size inum.toNat),
      123 ≤ d.ptr inum.toNat p ∧ d.ptr inum.toNat p < blockNum) →
    ∀ now, ReadsFile d inum now ∧ FollowsOwn d inum now := by
  intro h
  have hfresh := fresh_madeAt 0
  have hin : (madeAt 0).InUse (0 : UInt32).toNat := hfresh.inUse_iff.mpr rfl
  have hsize : (madeAt 0).size (0 : UInt32).toNat = 0 := hfresh.size_zero
  have hregion : ∀ p < pointers ((madeAt 0).size (0 : UInt32).toNat),
      123 ≤ (madeAt 0).ptr (0 : UInt32).toNat p ∧ (madeAt 0).ptr (0 : UInt32).toNat p < 32768 := by
    intro p hp
    rw [hsize] at hp
    exact absurd hp (Nat.not_lt_zero p)
  have hle : (madeAt 0).size (0 : UInt32).toNat ≤ 69632 := by omega
  refine not_followsOwn_of_le hin hle hregion 0 (chunks_le_iff.mpr (by omega)) ?_
  refine (h _ hfresh.reachable 0 hin ?_ hregion 0).2
  rw [hsize]
  exact Nat.zero_le _

end InodeFs
