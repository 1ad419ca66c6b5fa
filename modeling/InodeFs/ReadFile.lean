import InodeFs.Layout
import InodeFs.Prog.Answers

/-!
# What `read_file` returns

The loop of `read_file` takes chunk `c` from the block that `chunkPtr c` points to.
-/

namespace InodeFs

open BlockLayer InodeLayer Prog

theorem answers_readStep (ino : Inode) (b : Block) (r : ReadState)
    (hpos : r.remainingBytesToBeRead > 0) :
    Answers (fun r' => r'.remainingBytesToBeRead.toNat < r.remainingBytesToBeRead.toNat)
      (readStep ino b r) := by
  have hless : (r.remainingBytesToBeRead - min (blockSize : Int) r.remainingBytesToBeRead).toNat <
      r.remainingBytesToBeRead.toNat := by
    simp only [blockSize]
    omega
  simp only [readStep]
  split
  · exact Answers.bind fun _ => Answers.bind fun _ => Answers.bind fun _ => hless
  · exact Answers.bind fun _ => Answers.bind fun _ => Answers.bind fun _ => hless

/-- The loop of `read_file` is not cut off. -/
theorem readLoop_unfold (ino : Inode) (b : Block) {r : ReadState} {n : Nat}
    (h : r.remainingBytesToBeRead.toNat ≤ n) :
    whileLoop (fun r => r.remainingBytesToBeRead > 0) (readStep ino b) n r =
      if r.remainingBytesToBeRead > 0 then
        readStep ino b r >>= whileLoop (fun r => r.remainingBytesToBeRead > 0) (readStep ino b) n
      else pure r := by
  rw [whileLoop_eq (fun r => r.remainingBytesToBeRead.toNat) (fun r hr => ?_) (fun r hr => ?_) h]
  · simp only [decide_eq_true_eq, pure_eq]
  · rw [decide_eq_true_eq] at hr
    omega
  · exact answers_readStep ino b r (of_decide_eq_true hr)

/-- The invariant of the loop of `read_file` on a file of size `s`: the first `r.index` chunks are
in the buffer. -/
structure ReadInv (d : Disk) (ino : Inode) (s : Nat) (r : ReadState) (e : Disk) : Prop where
  disk : e = d
  index_le : r.index ≤ chunks s
  remaining : r.remainingBytesToBeRead = (s - 512 * r.index : Nat)
  num : r.numBytesAlreadyRead = (min s (512 * r.index) : Nat)
  indirectIndex : r.indirectIndex = r.index - 8
  bytes : ∀ k < s, k < 512 * r.index →
    r.buf k = (d.row (d.ptrOf ino (chunkPtr (k / 512)))).byte (k % 512)

section
variable {d : Disk} {ino : Inode} {s : Nat}

theorem copyInto_chunk {buf : Mem} {c k : Nat} {n : Nat} {b : Block} (hn : n = min 512 (s - 512 * c))
    (hbuf : ∀ k < s, k < 512 * c → buf k = (d.row (d.ptrOf ino (chunkPtr (k / 512)))).byte (k % 512))
    (hb : b = d.row (d.ptrOf ino (chunkPtr c))) (hk : k < s) (hkc : k < 512 * (c + 1)) :
    copyInto buf (c * blockSize) b n k =
      (d.row (d.ptrOf ino (chunkPtr (k / 512)))).byte (k % 512) := by
  simp only [copyInto, blockSize]
  by_cases hlt : k < 512 * c
  · rw [if_neg (by omega)]
    exact hbuf k hk hlt
  · rw [if_pos (by omega), hb, show k / 512 = c by omega, show k - c * 512 = k % 512 by omega]

theorem wp_readStep {r : ReadState} (hr : ReadInv d ino s r d) (hs : s ≤ 69632)
    (hregion : ∀ p < pointers s, d.ptrOf ino p < 32768)
    (hpos : r.remainingBytesToBeRead > 0) :
    wp (readStep ino (d.row (ino.block 8).toNat) r)
      (fun r' e => ReadInv d ino s r' e ∧ s - 512 * r'.index < s - 512 * r.index) d := by
  have hrem := hr.remaining
  have hnum := hr.num
  have hind := hr.indirectIndex
  have hlt : 512 * r.index < s := by omega
  have hc : r.index < chunks s := lt_chunks_iff.mpr hlt
  have hreg := hregion _ (chunkPtr_lt hc)
  have hmin : min (blockSize : Int) r.remainingBytesToBeRead = (min 512 (s - 512 * r.index) : Nat) := by
    rw [hrem]; simp only [blockSize]; omega
  simp only [readStep, hmin]
  by_cases hdir : r.numBytesAlreadyRead < 8 * blockSize
  · have h8 : r.index < 8 := by simp only [blockSize] at hdir; omega
    have hptr : d.ptrOf ino (chunkPtr r.index) = (ino.block r.index).toNat := by
      rw [chunkPtr, if_pos h8, Disk.ptrOf, if_pos (by omega)]
    rw [if_pos hdir]
    simp only [wp_bind, wp_freshBlock, loadSlot, if_pos (show r.index < 9 by omega), pure_eq, wp_ret,
      readBlock, wp_readDisk _ _ _ _ (hptr ▸ hreg), forall_const]
    refine ⟨⟨rfl, hc, ?_, ?_, ?_, ?_⟩, by omega⟩
    · simp only; omega
    · simp only; omega
    · simp only; omega
    · intro k hk hkc
      exact copyInto_chunk (by omega) hr.bytes (by rw [hptr]) hk hkc
  · have h8 : 8 ≤ r.index := by simp only [blockSize] at hdir; omega
    have hc136 : r.index - 8 < 128 := by omega
    have hptr : d.ptrOf ino (chunkPtr r.index) =
        ((d.row (ino.block 8).toNat).word (r.index - 8)).toNat := by
      rw [chunkPtr, if_neg (by omega), Disk.ptrOf, if_neg (by omega)]
      rfl
    rw [if_neg hdir]
    rw [hptr] at hreg
    simp only [wp_bind, wp_freshBlock, hind, wp_entry _ _ _ _ hc136, pure_eq, wp_ret,
      readBlock, wp_readDisk _ _ _ _ hreg, forall_const]
    refine ⟨⟨rfl, hc, ?_, ?_, ?_, ?_⟩, by omega⟩
    · simp only; omega
    · simp only; omega
    · simp only; omega
    · intro k hk hkc
      exact copyInto_chunk (by omega) hr.bytes (by rw [hptr]) hk hkc

-- A file without an indirect block never looks at the buffer `b` of the indirect block.
theorem ReadInv.step {r : ReadState} {e : Disk} {b : Block} (hs : s ≤ 69632)
    (hregion : ∀ p < pointers s, d.ptrOf ino p < 32768)
    (hb : 8 < chunks s → b = d.row (ino.block 8).toNat) (hr : ReadInv d ino s r e)
    (hpos : r.remainingBytesToBeRead > 0) :
    wp (readStep ino b r)
      (fun r' e => ReadInv d ino s r' e ∧ s - 512 * r'.index < s - 512 * r.index) e := by
  obtain rfl := hr.disk
  by_cases h8 : 8 < chunks s
  · rw [hb h8]
    exact wp_readStep hr hs hregion hpos
  · have hnum := hr.num
    have hrem := hr.remaining
    have hlt : 512 * r.index < s := by omega
    have hdir : r.numBytesAlreadyRead < 8 * blockSize := by
      have := lt_chunks_iff.mpr hlt
      simp only [blockSize]
      omega
    have := wp_readStep hr hs hregion hpos
    simp only [readStep, if_pos hdir] at this ⊢
    exact this

/-- The loop returns the bytes of the blocks that the pointers name. -/
theorem wp_readLoop {Q : ReadState → Disk → Prop} (b : Block) (m : Mem) (hs : s ≤ 69632)
    (hregion : ∀ p < pointers s, d.ptrOf ino p < 32768)
    (hb : 8 < chunks s → b = d.row (ino.block 8).toNat)
    (hQ : ∀ r : ReadState,
      (∀ k < s, r.buf k = (d.row (d.ptrOf ino (chunkPtr (k / 512)))).byte (k % 512)) → Q r d) :
    wp (whileLoop (fun r => decide (r.remainingBytesToBeRead > 0)) (readStep ino b) s
      ⟨m, s, 0, 0, 0⟩) Q d := by
  refine wp_whileLoop (ReadInv d ino s) (fun r => r.remainingBytesToBeRead.toNat) ?_ ?_ ?_ ?_ ?_
  · refine ⟨rfl, Nat.zero_le _, ?_, ?_, rfl, fun k _ hk => absurd hk (Nat.not_lt_zero k)⟩
    · rfl
    · simp only; omega
  · simp only [Int.toNat_natCast, le_refl]
  · intro r hpos
    rw [decide_eq_true_eq] at hpos
    omega
  · intro r e hr hpos
    refine wp_mono (hr.step hs hregion hb (of_decide_eq_true hpos)) fun r' e' h => ⟨h.1, ?_⟩
    rw [h.1.remaining, hr.remaining]
    omega
  · intro r e hr hdone
    obtain rfl := hr.disk
    rw [decide_eq_false_iff_not] at hdone
    have hrem := hr.remaining
    exact hQ r fun k hk => hr.bytes k hk (by omega)

end

theorem ptrOf_setAtime {d : Disk} {i : Nat} (hi : i < 1024) (now : UInt32)
    (hregion : ∀ p < pointers (d.size i), 123 ≤ d.ptr i p) {p : Nat}
    (hp : p < pointers (d.size i)) :
    (d.setInode i ((d.inode i).setAtime now)).ptrOf ((d.inode i).setAtime now) p = d.ptr i p := by
  by_cases h8 : p ≤ 8
  · simp only [Disk.ptr, Disk.ptrOf, if_pos h8]
    rfl
  · have hind := hregion 8 (by omega)
    simp only [Disk.ptr, Disk.ptrOf, if_pos (le_refl 8)] at hind
    simp only [Disk.ptr, Disk.ptrOf, if_neg h8, Inode.block_setAtime,
      Disk.row_setInode_data d _ hi hind]

theorem wp_readFile {d : Disk} {inum now : UInt32} {Q : Option ReadResult → Disk → Prop}
    (hin : d.InUse inum.toNat) (hs : d.size inum.toNat ≤ 69632)
    (hregion : ∀ p < pointers (d.size inum.toNat),
      123 ≤ d.ptr inum.toNat p ∧ d.ptr inum.toNat p < 32768)
    (hQ : ∀ r : ReadResult, r.size = d.size inum.toNat →
      (∀ k < d.size inum.toNat, r.buf k = d.fileByte inum.toNat k) →
      Q (some r) (d.setInode inum.toNat ((d.inode inum.toNat).setAtime now))) :
    wp (readFile inum true true now) Q d := by
  set i := inum.toNat with hi
  set e := d.setInode i ((d.inode i).setAtime now) with he
  have hrow : ∀ r, 123 ≤ r → e.row r = d.row r := fun r hr =>
    Disk.row_setInode_data d _ hin.1 hr
  have hptr : ∀ p < pointers (d.size i), e.ptrOf ((d.inode i).setAtime now) p = d.ptr i p :=
    fun p hp => ptrOf_setAtime hin.1 now (fun q hq => (hregion q hq).1) hp
  have hint : asInt ((d.inode i).setAtime now).size = (d.size i : Int) := by
    change asInt (d.inode i).size = _
    exact asInt_of_lt (by change d.size i < _; omega)
  have hall : ∀ p < pointers (d.size i),
      e.ptrOf ((d.inode i).setAtime now) p < 32768 := fun p hp => by
    rw [hptr p hp]; exact (hregion p hp).2
  have hfinish : ∀ r : ReadState, (∀ k < d.size i, r.buf k =
      (e.row (e.ptrOf ((d.inode i).setAtime now) (chunkPtr (k / 512)))).byte (k % 512)) →
      Q (some ⟨r.buf, d.size i⟩) e := by
    intro r hr
    refine hQ ⟨r.buf, d.size i⟩ rfl fun k hk => ?_
    have hp := chunkPtr_lt (lt_chunks_iff.mpr (show 512 * (k / 512) < d.size i by omega))
    change r.buf k = _
    rw [hr k hk, hptr _ hp, hrow _ (hregion _ hp).1]
    rfl
  simp only [readFile, wp_bind, wp_readerEnter, wp_readerExit, wp_getInode,
    Disk.lookup_eq_some hin, Bool.not_true, Bool.or_self, Bool.false_eq_true, if_false,
    wp_putInode _ _ _ _ hin.1, wp_freshMem, wp_freshBlock, readBlock, pure_eq, wp_ret, ← hi, ← he,
    hint]
  intro m b
  by_cases h8 : 8 < chunks (d.size i)
  · have hp8 : 8 < pointers (d.size i) := by unfold pointers ptrCount; split <;> omega
    have hid := hall 8 hp8
    simp only [Disk.ptrOf, if_pos (le_refl 8)] at hid
    rw [wp_readDisk _ _ _ _ hid]
    exact wp_readLoop _ m hs hall (fun _ => rfl) hfinish
  · exact wp_readDisk_of_forall _ _ fun b =>
      wp_readLoop _ m hs hall (fun h => absurd h h8) hfinish

end InodeFs
