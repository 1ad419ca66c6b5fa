import InodeFs.Prog.Answers
import InodeFs.WritePlan

/-!
# What `write_file` does to the disk

The freeing of the direct blocks, the write loop, the shrink loop and the last stores, each with
what it leaves on the disk in the terms of `InodeFs.WritePlan`.
-/

namespace InodeFs

open BlockLayer InodeLayer Prog Lowest

/-! ## The parts of `write_file` -/

/-- The variables with which `write_file` enters its loop. -/
def writeStart (ino : Inode) (s : Nat) (final : Block) : WriteState :=
  ⟨ino, s, 0, false, final, false, 0, 0⟩

/-- `write_file` up to the end of its loop. -/
def writeLoop (ino : Inode) (buf : Mem) (s : Nat) : FsM WriteState := do
  forLoop (fun x => freeBlock (ino.block x)) 0 8
  let final ← freshBlock
  whileLoop (fun w => decide (w.remainingBytesToWrite > 0)) (writeStep buf s (asInt ino.size)) s
    (writeStart ino s final)

/-- Whether `write_file` enters the loop that frees old indirect blocks. -/
def Shrinks (ino : Inode) (s : Nat) (w : WriteState) : Prop :=
  (w.needToOverwriteIndirect && decide ((s : Int) < asInt ino.size)) = true

instance (ino : Inode) (s : Nat) (w : WriteState) : Decidable (Shrinks ino s w) :=
  inferInstanceAs (Decidable (_ = true))

/-- The block that this loop takes the ids from. -/
def loadIndirect (w : WriteState) : FsM Block := do
  let indirectBlock ← freshBlock
  readBlock (w.ino.block 8) indirectBlock

/-- The loop, from entry `i` on and with `n` bytes to free. -/
def shrinkLoop (indirectBlock : Block) (i : Nat) (n : Int) : FsM (Nat × Int) :=
  whileLoop (fun v => decide (v.2 > 0)) (shrinkStep indirectBlock) n.toNat (i, n)

/-- What comes after it. -/
def writeEnd (ino : Inode) (s : Nat) (w : WriteState) : FsM Inode := do
  if Shrinks ino s w then do
    let indirectBlock ← loadIndirect w
    let _ ← shrinkLoop indirectBlock w.indirectIndex (asInt ino.size - s)
  if w.needToOverwriteIndirect then
    writeBlock .writeFile (w.ino.block 8) w.finalIndirectBlock
  if (s : Int) ≤ 8 * blockSize then
    freeBlock (w.ino.block 8)
  pure (w.ino.setSize (UInt32.ofNat s))

theorem writeBlocks_eq (ino : Inode) (buf : Mem) (s : Nat) :
    writeBlocks ino buf s = writeLoop ino buf s >>= writeEnd ino s := by
  simp only [writeBlocks, writeLoop, writeStart, bind_assoc, Int.toNat_natCast]
  refine bind_congr fun _ => bind_congr fun _ => bind_congr fun w => ?_
  simp only [writeEnd, Shrinks, loadIndirect, shrinkLoop, bind_assoc]

/-! ## The loops end -/

/-- The sections of the loop of `write_file` leave the number of bytes to it. -/
abbrev KeepsRemaining (w : WriteState) (p : FsM WriteState) : Prop :=
  Answers (fun w' => w'.remainingBytesToWrite = w.remainingBytesToWrite) p

theorem keeps_writeDirect (buf : Mem) (w : WriteState) : KeepsRemaining w (writeDirect buf w) :=
  Answers.bind fun _ => Answers.bind fun _ => Answers.bind fun _ => Answers.bind fun _ => rfl

theorem keeps_writeAllocated (buf : Mem) (w : WriteState) :
    KeepsRemaining w (writeAllocated buf w) :=
  Answers.bind fun _ => Answers.bind fun _ => Answers.bind fun _ => Answers.bind fun _ => rfl

theorem keeps_writeReused (buf : Mem) (w : WriteState) : KeepsRemaining w (writeReused buf w) :=
  Answers.bind fun _ => Answers.bind fun _ => Answers.bind fun _ => Answers.bind fun _ =>
    Answers.bind fun _ => Answers.bind fun _ => rfl

theorem keeps_allocIndirect (w : WriteState) : KeepsRemaining w (allocIndirect w) := by
  unfold allocIndirect
  split
  · exact Answers.bind fun _ => rfl
  · rfl

theorem keeps_writeIndirect (buf : Mem) (size old : Int) (w : WriteState) :
    KeepsRemaining w (writeIndirect buf size old w) := by
  simp only [writeIndirect]
  split
  · split
    · refine Follows.bind ((keeps_allocIndirect _).mono fun w₁ _ h₁ => ?_)
      exact Follows.bind ((keeps_writeAllocated buf w₁).mono fun w₂ _ h₂ => h₂.trans h₁)
    · split
      · exact Follows.bind (keeps_writeAllocated buf _)
      · exact Follows.bind (keeps_writeReused buf _)
  · exact Follows.bind (keeps_writeReused buf _)

theorem answers_writeStep (buf : Mem) (size old : Int) (w : WriteState)
    (hpos : w.remainingBytesToWrite > 0) :
    Answers (fun w' => w'.remainingBytesToWrite.toNat < w.remainingBytesToWrite.toNat)
      (writeStep buf size old w) := by
  have hless : ∀ w' : WriteState, w'.remainingBytesToWrite = w.remainingBytesToWrite →
      (w'.remainingBytesToWrite - min (blockSize : Int) w'.remainingBytesToWrite).toNat <
        w.remainingBytesToWrite.toNat := by
    intro w' hw'
    simp only [hw', blockSize]
    omega
  simp only [writeStep]
  split
  · exact Follows.bind ((keeps_writeDirect buf w).mono fun w' _ hw' => hless w' hw')
  · exact Follows.bind ((keeps_writeIndirect buf size old w).mono fun w' _ hw' => hless w' hw')

/-- The loop of `write_file` is not cut off. -/
theorem writeLoop_unfold (buf : Mem) (size old : Int) {w : WriteState} {n : Nat}
    (h : w.remainingBytesToWrite.toNat ≤ n) :
    whileLoop (fun w => w.remainingBytesToWrite > 0) (writeStep buf size old) n w =
      if w.remainingBytesToWrite > 0 then
        writeStep buf size old w >>=
          whileLoop (fun w => w.remainingBytesToWrite > 0) (writeStep buf size old) n
      else pure w := by
  rw [whileLoop_eq (fun w => w.remainingBytesToWrite.toNat) (fun w hw => ?_) (fun w hw => ?_) h]
  · simp only [decide_eq_true_eq, pure_eq]
  · rw [decide_eq_true_eq] at hw
    omega
  · exact answers_writeStep buf size old w (of_decide_eq_true hw)

/-- The loop that frees old indirect blocks is not cut off. -/
theorem shrinkLoop_unfold (b : Block) {v : Nat × Int} {n : Nat} (h : v.2.toNat ≤ n) :
    whileLoop (fun v => v.2 > 0) (shrinkStep b) n v =
      if v.2 > 0 then shrinkStep b v >>= whileLoop (fun v => v.2 > 0) (shrinkStep b) n
      else pure v := by
  rw [whileLoop_eq (fun v => v.2.toNat) (fun v hv => ?_) (fun v hv => ?_) h]
  · simp only [decide_eq_true_eq, pure_eq]
  · rw [decide_eq_true_eq] at hv
    omega
  · have hpos : v.2 > 0 := of_decide_eq_true hv
    have hless : (v.2 - (blockSize : Int)).toNat < v.2.toNat := by
      simp only [blockSize]
      omega
    exact Answers.bind fun _ => Answers.bind fun _ => hless

namespace Disk

variable {d : Disk} {ino : Inode}

-- The next call of `alloc_block` in the plan.
theorem wp_allocNext {e : Disk} {a : Nat} {Q : UInt32 → Disk → Prop} (hu : e.used = d.taken ino a)
    (ha : a < (d.available ino).card)
    (hQ : ∀ f : Disk, f.used = d.taken ino (a + 1) → (∀ r, 9 ≤ r → f.row r = e.row r) →
      Q (UInt32.ofNat (d.fresh ino a)) f) : wp allocBlock Q e := by
  have hleast : ∀ x ∈ freeIn e.used, (∀ y ∈ freeIn e.used, x ≤ y) → x = d.fresh ino a := by
    rw [hu, freeIn_taken]
    intro x hx hle
    exact (eq_nthFree_of_least hx hle).2
  rw [wp_allocBlock]
  constructor
  · intro x hx hle
    obtain ⟨⟨-, hlt⟩, hno⟩ := mem_freeIn.mp hx
    have hxe := hleast x hx hle
    subst hxe
    refine hQ _ ?_ fun r hr => row_markUsed e hlt hr
    rw [used_markUsed e _ hlt hno, hu, taken_succ]
  · intro he
    rw [hu, freeIn_taken, remaining_eq_empty_iff] at he
    omega

theorem wp_freeDirect {Q : Unit → Disk → Prop} (hlt : ∀ k < 8, (ino.block k).toNat < 32768)
    (hQ : ∀ f : Disk, f.used = d.released ino → (∀ r, 9 ≤ r → f.row r = d.row r) → Q () f) :
    wp (forLoop (fun x => freeBlock (ino.block x)) 0 8) Q d := by
  refine wp_freeLoop ino.block (fun x _ hx => hlt x (by omega)) (fun x _ _ R e h => h)
    fun f hf => ?_
  refine hQ f (Finset.ext fun id => ?_) hf.rows
  rw [hf.used, mem_released]
  refine and_congr_right fun _ => ⟨fun h k hk he => h ⟨k, Nat.zero_le k, by omega, he⟩, ?_⟩
  rintro h ⟨k, -, hk, he⟩
  exact h k (by omega) he

end Disk

/-! ## The write loop -/

/-- The disk when the first `k` chunks of the new file are in their blocks. -/
structure Placed (d : Disk) (ino : Inode) (buf : Mem) (s k : Nat) (e : Disk) : Prop where
  used : e.used = d.taken ino (Disk.allocsBefore ino (ptrCount k))
  table : ∀ r, 9 ≤ r → r ≤ 122 → e.row r = d.row r
  data : ∀ c < k, ∀ j < 512, 512 * c + j < s →
    (e.row (d.newPtr ino (chunkPtr c))).byte j = buf (512 * c + j)
  other : ∀ r, 123 ≤ r → (∀ c < k, r ≠ d.newPtr ino (chunkPtr c)) → e.row r = d.row r

/-- What the variables of the loop say when the first `k` chunks are written. -/
structure Laid (d : Disk) (ino : Inode) (buf : Mem) (s k : Nat) (w : WriteState) (e : Disk) :
    Prop where
  need : w.needToOverwriteIndirect = decide (8 < k)
  already : w.alreadyAllocatedIndirect = decide (chunks ino.size.toNat ≤ 8 ∧ 8 < k)
  indirectIndex : w.indirectIndex = k - 8
  record : w.ino = d.inoAt ino k
  entries : ∀ j < k - 8, w.finalIndirectBlock.word j = UInt32.ofNat (d.newPtr ino (9 + j))
  placed : Placed d ino buf s k e

namespace Laid

variable {d e : Disk} {ino : Inode} {buf : Mem} {s k : Nat} {w : WriteState}

theorem block_eight_of_le (hl : Laid d ino buf s k w e) (hk : k ≤ 8) :
    w.ino.block 8 = ino.block 8 := by
  rw [hl.record, Disk.block_inoAt _ (by omega), ptrCount_of_le hk, if_neg (by omega)]

theorem block_eight (hl : Laid d ino buf s k w e) (hk : 8 < k) :
    w.ino.block 8 = UInt32.ofNat (d.newPtr ino 8) := by
  rw [hl.record, Disk.block_inoAt _ (by omega), ptrCount_of_lt hk, if_pos (by omega)]

theorem written (hl : Laid d ino buf s (chunks s) w e) :
    w.ino.setSize (UInt32.ofNat s) = d.written ino s := by
  rw [Disk.written, hl.record]

end Laid

/-- The sections of the loop leave its counters alone. -/
structure SameCounters (w w' : WriteState) : Prop where
  index : w'.index = w.index
  remaining : w'.remainingBytesToWrite = w.remainingBytesToWrite
  num : w'.numBytesAlreadyWritten = w.numBytesAlreadyWritten

/-- The state at the end of a round, when `w` is that after the section of the chunk. -/
def endRound (w : WriteState) : WriteState :=
  let remaining := w.remainingBytesToWrite - min (blockSize : Int) w.remainingBytesToWrite
  { w with
    remainingBytesToWrite := remaining
    numBytesAlreadyWritten := w.numBytesAlreadyWritten + min (blockSize : Int) remaining
    index := w.index + 1 }

/-- The counters of the loop. -/
structure Counted (s : Nat) (w : WriteState) : Prop where
  index_le : w.index ≤ chunks s
  remaining : w.remainingBytesToWrite = (s - 512 * w.index : Nat)
  num : w.index < chunks s → w.numBytesAlreadyWritten =
    (if w.index = 0 then 0 else 512 * (w.index - 1) + min 512 (s - 512 * w.index) : Nat)

namespace Counted

open Disk

variable {ino : Inode} {s : Nat} {w w' : WriteState}

theorem start (final : Block) : Counted s (writeStart ino s final) :=
  ⟨Nat.zero_le _, rfl, fun _ => rfl⟩

theorem next (hc : Counted s w) (hsame : SameCounters w w') (hk : w.index < chunks s) :
    Counted s (endRound w') := by
  have hlt := lt_chunks_iff.mp hk
  have hrem := hc.remaining
  have hnum := hc.num hk
  simp only [endRound, blockSize]
  refine ⟨?_, ?_, ?_⟩
  · simp only [hsame.index]
    omega
  · simp only [hsame.remaining, hsame.index, hrem]
    omega
  · simp only [hsame.remaining, hsame.index, hsame.num, hrem, hnum, Nat.succ_ne_zero, if_false,
      Nat.add_sub_cancel]
    intro hk'
    have := lt_chunks_iff.mp hk'
    split <;> omega

-- While the counter is below the direct part, so is the index.
theorem direct_iff (hc : Counted s w) (hs : SizeOk s) (hk : w.index < chunks s) :
    w.numBytesAlreadyWritten < 8 * blockSize ↔ w.index < 8 := by
  have hlt := lt_chunks_iff.mp hk
  have hsize := hs.2
  rw [hc.num hk]
  simp only [blockSize]
  split <;> omega

-- The byte counter tells the entries that the old indirect block has from the others.
theorem num_lt_iff (hc : Counted s w) (hk : w.index < chunks s) (h8 : 8 ≤ w.index)
    (hgrow : 4096 < ino.size.toNat → chunks ino.size.toNat < chunks s → s % 512 ≠ 0 →
      ino.size.toNat + 512 ≤ s) (hn : 8 < chunks ino.size.toNat) :
    w.numBytesAlreadyWritten < (ino.size.toNat : Int) ↔ Kept ino (w.index + 1) := by
  have hnum := hc.num hk
  rw [if_neg (by omega)] at hnum
  unfold Kept chunks at *
  omega

theorem index_eq (hc : Counted s w) (hdone : ¬ w.remainingBytesToWrite > 0) :
    w.index = chunks s := by
  have hrem := hc.remaining
  have hle := hc.index_le
  have := (chunks_le_iff (s := s) (n := w.index)).mpr (by omega)
  omega

end Counted

/-- The invariant of the loop of `write_file`. -/
structure WriteInv (d : Disk) (ino : Inode) (buf : Mem) (s : Nat) (w : WriteState) (e : Disk) :
    Prop where
  index_le : w.index ≤ chunks s
  remaining : w.remainingBytesToWrite = (s - 512 * w.index : Nat)
  num : w.index < chunks s → w.numBytesAlreadyWritten =
    (if w.index = 0 then 0 else 512 * (w.index - 1) + min 512 (s - 512 * w.index) : Nat)
  laid : Laid d ino buf s w.index w e

theorem WriteInv.counted {d e : Disk} {ino : Inode} {buf : Mem} {s : Nat} {w : WriteState}
    (hw : WriteInv d ino buf s w e) : Counted s w := ⟨hw.index_le, hw.remaining, hw.num⟩

namespace Writable

open Disk

variable {d : Disk} {ino : Inode} {s : Nat} {buf : Mem}

theorem placed_succ {k : Nat} {e f : Disk} {b : Block} (h : Writable d ino s)
    (hk : k < chunks s) (hp : Placed d ino buf s k e)
    (hu : f.used = d.taken ino (allocsBefore ino (ptrCount (k + 1))))
    (hf : ∀ r, 9 ≤ r → f.row r = e.row r)
    (hb : ∀ j < 512, 512 * k + j < s → b.byte j = buf (512 * k + j)) :
    Placed d ino buf s (k + 1) (f.setRow (d.newPtr ino (chunkPtr k)) b) := by
  have hreg := h.newPtr_region (chunkPtr_lt hk)
  constructor
  · rw [used_setRow _ _ _ (by omega), hu]
  · intro r hr hr'
    rw [row_setRow_ne _ _ (by omega), hf r hr, hp.table r hr hr']
  · intro c hc j hj hjs
    rcases Nat.lt_succ_iff_lt_or_eq.mp hc with hlt | rfl
    · have hne : d.newPtr ino (chunkPtr c) ≠ d.newPtr ino (chunkPtr k) := fun he => by
        have := chunkPtr_inj (h.newPtr_inj (chunkPtr_lt (hlt.trans hk)) (chunkPtr_lt hk) he)
        omega
      have := h.newPtr_region (chunkPtr_lt (hlt.trans hk))
      rw [row_setRow_ne _ _ hne, hf _ (by omega), hp.data c hlt j hj hjs]
    · rw [row_setRow_self _ _ _ hreg.2, hb j hj hjs]
  · intro r hr hne
    rw [row_setRow_ne _ _ (hne k (Nat.lt_succ_self k)), hf r (by omega),
      hp.other r hr fun c hc => hne c (by omega)]

theorem wp_chunkBuffer {w : WriteState} {Q : Block → Disk → Prop} {e : Disk}
    (hrem : w.remainingBytesToWrite = (s - 512 * w.index : Nat))
    (hQ : ∀ b : Block, (∀ j < 512, 512 * w.index + j < s → b.byte j = buf (512 * w.index + j)) →
      Q b e) : wp (chunkBuffer buf w) Q e := by
  simp only [chunkBuffer, wp_bind, wp_freshBlock, pure_eq, wp_ret]
  intro b
  apply hQ
  intro j hj hjs
  rw [Block.byte_copyFrom _ _ _ _ hj, if_pos (by rw [hrem]; simp only [blockSize]; omega)]
  simp only [blockSize, Nat.mul_comm]

theorem wp_writeDirect {w : WriteState} {e : Disk} (h : Writable d ino s)
    (hw : WriteInv d ino buf s w e) (hk : w.index < chunks s) (h8 : w.index < 8) :
    wp (writeDirect buf w)
      (fun w' e' => Laid d ino buf s (w.index + 1) w' e' ∧ SameCounters w w') e := by
  have hl := hw.laid
  have hptr : chunkPtr w.index = w.index := if_pos h8
  have hlt := chunkPtr_lt hk
  rw [hptr] at hlt
  have hkept : ¬ Kept ino w.index := fun hc => absurd hc.1 (by omega)
  have halloc : allocsBefore ino w.index = w.index := if_pos (.inl (by omega))
  have hnew : d.newPtr ino w.index = d.fresh ino w.index := by
    rw [newPtr_of_not_kept hkept, halloc]
  have hcard := h.allocsBefore_lt hlt hkept
  have hreg := h.newPtr_region hlt
  have hu := hl.placed.used
  rw [ptrCount_of_le h8.le, halloc] at hu
  rw [halloc] at hcard
  rw [writeDirect, wp_bind]
  refine wp_chunkBuffer hw.remaining fun b hb => ?_
  rw [wp_bind]
  refine wp_allocNext hu hcard fun f hfu hf => ?_
  rw [← hnew]
  have hid := toNat_ofNat (show d.newPtr ino w.index < 32769 by omega)
  simp only [storeSlot, if_pos (show w.index < 9 by omega), writeBlock, wp_bind, pure_eq, wp_ret,
    wp_writeDisk _ _ _ _ _ (hid.trans_lt hreg.2), hid]
  refine ⟨⟨?_, ?_, ?_, ?_, ?_, ?_⟩, rfl, rfl, rfl⟩
  · rw [hl.need, decide_eq_decide]
    omega
  · rw [hl.already, decide_eq_decide]
    omega
  · rw [hl.indirectIndex]
    omega
  · rw [hl.record]
    exact inoAt_setBlock h8
  · intro j hj
    omega
  · have hu' : f.used = d.taken ino (allocsBefore ino (ptrCount (w.index + 1))) := by
      rw [hfu, ptrCount_of_le h8, allocsBefore, if_pos (.inl (by omega))]
    have hp := h.placed_succ hk hl.placed hu' hf hb
    rwa [hptr] at hp

theorem chunkPtr_of_le {k : Nat} (h8 : 8 ≤ k) : chunkPtr k = k + 1 := if_neg (by omega)

theorem entries_succ {k : Nat} {final : Block} (h8 : 8 ≤ k) (hk : k < 136)
    (hfinal : ∀ j < k - 8, final.word j = UInt32.ofNat (d.newPtr ino (9 + j))) :
    ∀ j < k + 1 - 8, (final.setWord (k - 8) (UInt32.ofNat (d.newPtr ino (k + 1)))).word j =
      UInt32.ofNat (d.newPtr ino (9 + j)) := by
  intro j hj
  by_cases hjk : j = k - 8
  · rw [hjk, Block.word_setWord_self _ _ _ (by omega), show 9 + (k - 8) = k + 1 by omega]
  · rw [Block.word_setWord_ne _ _ _ _ (by omega) hjk, hfinal j (by omega)]

-- The chunk behind a new entry. Between `e₀` and `e`, `blocks[8]` may have been allocated.
theorem wp_writeAllocated {w : WriteState} {e₀ e : Disk} {Q : WriteState → Disk → Prop}
    (h : Writable d ino s) (hk : w.index < chunks s) (h8 : 8 ≤ w.index)
    (hkept : ¬ Kept ino (w.index + 1)) (hrem : w.remainingBytesToWrite = (s - 512 * w.index : Nat))
    (hind : w.indirectIndex = w.index - 8)
    (hfinal : ∀ j < w.index - 8, w.finalIndirectBlock.word j = UInt32.ofNat (d.newPtr ino (9 + j)))
    (hp : Placed d ino buf s w.index e₀) (he : ∀ r, 9 ≤ r → e.row r = e₀.row r)
    (hu : e.used = d.taken ino (allocsBefore ino (w.index + 1)))
    (hQ : ∀ final f, (∀ j < w.index + 1 - 8,
      final.word j = UInt32.ofNat (d.newPtr ino (9 + j))) →
      Placed d ino buf s (w.index + 1) f → Q { w with finalIndirectBlock := final } f) :
    wp (writeAllocated buf w) Q e := by
  have hk136 := h.sizeOk.chunks_le
  have hptr := chunkPtr_of_le h8
  have hlt := chunkPtr_lt hk
  rw [hptr] at hlt
  have hreg := h.newPtr_region hlt
  have hnew := newPtr_of_not_kept (d := d) hkept
  have hid := toNat_ofNat (show d.newPtr ino (w.index + 1) < 32769 by omega)
  rw [writeAllocated, wp_bind]
  refine wp_chunkBuffer hrem fun b hb => ?_
  rw [wp_bind]
  refine wp_allocNext hu (h.allocsBefore_lt hlt hkept) fun f hfu hf => ?_
  rw [← hnew]
  simp only [writeBlock, wp_bind, pure_eq, wp_ret, wp_writeDisk _ _ _ _ _ (hid.trans_lt hreg.2), hid,
    wp_storeEntry _ _ _ _ _ (show w.indirectIndex < 128 by omega)]
  refine hQ _ _ (hind ▸ entries_succ h8 (by omega) hfinal) ?_
  have hu' : f.used = d.taken ino (allocsBefore ino (ptrCount (w.index + 1))) := by
    rw [hfu, ptrCount_of_lt (by omega)]
    congr 1
    unfold allocsBefore Kept at *
    split <;> split <;> omega
  have hp' := h.placed_succ hk hp hu' (fun r hr => (hf r hr).trans (he r hr)) hb
  rwa [hptr] at hp'

-- The old indirect block is intact until it is rewritten.
theorem row_indirect {k : Nat} {e : Disk} (h : Writable d ino s) (hkept : Kept ino 8)
    (h8 : 8 < chunks s) (hk : k ≤ chunks s) (hp : Placed d ino buf s k e) :
    e.row (ino.block 8).toNat = d.row (ino.block 8).toNat := by
  have h8reg := h.region 8 hkept.lt
  rw [ptrOf_direct le_rfl] at h8reg
  refine hp.other _ h8reg.1 fun c hc he => chunkPtr_ne_eight c ?_
  rw [← @ptrOf_direct d ino 8 le_rfl, ← newPtr_of_kept hkept] at he
  exact (h.newPtr_inj (by rw [pointers_eq_of_lt h8]; omega) (chunkPtr_lt (by omega)) he).symm

-- The entry of the old indirect block that the next chunk goes to.
theorem reused_entry {w : WriteState} {e : Disk} (h : Writable d ino s) (hk : w.index < chunks s)
    (h8 : 8 ≤ w.index) (hkept : Kept ino (w.index + 1))
    (hl : Laid d ino buf s w.index { w with needToOverwriteIndirect := decide (8 < w.index) } e) :
    w.indirectIndex < 128 ∧ w.ino.block 8 = ino.block 8 ∧ (ino.block 8).toNat < 32768 ∧
      e.row (ino.block 8).toNat = d.row (ino.block 8).toNat ∧
      (d.row (ino.block 8).toNat).word w.indirectIndex =
        UInt32.ofNat (d.newPtr ino (w.index + 1)) := by
  have hk136 := h.sizeOk.chunks_le
  have hkept8 : Kept ino 8 := ⟨le_rfl, hkept.2.1, by have := hkept.2.2; omega⟩
  have hind : w.indirectIndex = w.index - 8 := hl.indirectIndex
  have h8reg := h.region 8 hkept8.lt
  rw [ptrOf_direct le_rfl] at h8reg
  refine ⟨by omega, ?_, h8reg.2, h.row_indirect hkept8 (by omega) hk.le hl.placed, ?_⟩
  · rw [show w.ino = d.inoAt ino w.index from hl.record, block_inoAt_kept hkept8]
  · rw [newPtr_of_kept hkept, ptrOf_entry (by omega), UInt32.ofNat_toNat, hind]
    rfl

-- The chunk behind an entry of the old indirect block.
theorem wp_writeReused {w : WriteState} {e : Disk} {Q : WriteState → Disk → Prop}
    (h : Writable d ino s) (hk : w.index < chunks s) (h8 : 8 ≤ w.index)
    (hkept : Kept ino (w.index + 1)) (hrem : w.remainingBytesToWrite = (s - 512 * w.index : Nat))
    (hl : Laid d ino buf s w.index { w with needToOverwriteIndirect := decide (8 < w.index) } e)
    (hQ : ∀ final f, (∀ j < w.index + 1 - 8,
      final.word j = UInt32.ofNat (d.newPtr ino (9 + j))) →
      Placed d ino buf s (w.index + 1) f → Q { w with finalIndirectBlock := final } f) :
    wp (writeReused buf w) Q e := by
  have hk136 := h.sizeOk.chunks_le
  have hptr := chunkPtr_of_le h8
  have hlt := chunkPtr_lt hk
  rw [hptr] at hlt
  have hreg := h.newPtr_region hlt
  have hind : w.indirectIndex = w.index - 8 := hl.indirectIndex
  obtain ⟨-, hblock, h8lt, hrow, hentry⟩ := h.reused_entry hk h8 hkept hl
  have hid := toNat_ofNat (show d.newPtr ino (w.index + 1) < 32769 by omega)
  simp only [writeReused, readBlock, writeBlock, wp_bind, wp_freshBlock, hblock,
    wp_readDisk _ _ _ _ h8lt, hrow, forall_const]
  refine wp_chunkBuffer hrem fun b hb => ?_
  simp only [wp_entry _ _ _ _ (show w.indirectIndex < 128 by omega), hentry, pure_eq, wp_ret,
    wp_writeDisk _ _ _ _ _ (hid.trans_lt hreg.2), hid,
    wp_storeEntry _ _ _ _ _ (show w.indirectIndex < 128 by omega)]
  refine hQ _ _ (hind ▸ entries_succ h8 (by omega) hl.entries) ?_
  have hu : e.used = d.taken ino (allocsBefore ino (ptrCount (w.index + 1))) := by
    have h8p : 8 ≤ ptrCount w.index := by unfold ptrCount; split <;> omega
    have hpn : ptrCount w.index ≤ chunks ino.size.toNat := by
      have := hkept.2.2
      unfold ptrCount
      split <;> omega
    have := hkept.2.2
    rw [hl.placed.used, ptrCount_of_lt (show 8 < w.index + 1 by omega),
      allocsBefore_of_lt h8p hkept.2.1, allocsBefore_of_lt (by omega) hkept.2.1]
    congr 1
    omega
  have hp := h.placed_succ hk hl.placed hu (fun _ _ => rfl) hb
  rwa [hptr] at hp

-- A chunk of the indirect part, where the file had no indirect block.
theorem wp_writeIndirect_new {w : WriteState} {e : Disk} (h : Writable d ino s)
    (hw : WriteInv d ino buf s w e) (hk : w.index < chunks s) (h8 : 8 ≤ w.index)
    (hold : chunks ino.size.toNat ≤ 8) :
    wp (writeIndirect buf s ino.size.toNat w)
      (fun w' e' => Laid d ino buf s (w.index + 1) w' e' ∧ SameCounters w w') e := by
  have hl := hw.laid
  have hind := hl.indirectIndex
  have hp := hl.placed
  have hs8 : 4096 < s := by
    have := lt_chunks_iff.mp hk
    omega
  have hsize : ino.size.toNat ≤ 4096 := by simpa only using chunks_le_iff.mp hold
  have hneed : true = decide (8 < w.index + 1) := by rw [eq_comm, decide_eq_true_eq]; omega
  have hnext : w.indirectIndex + 1 = w.index + 1 - 8 := by omega
  have hkept : ∀ p, ¬ Kept ino p := fun p hc => absurd hc.2.1 (by omega)
  have halloc : ∀ p, allocsBefore ino p = p := fun p => allocsBefore_of_le (.inr hold)
  have halready : true = decide (chunks ino.size.toNat ≤ 8 ∧ 8 < w.index + 1) := by
    rw [eq_comm, decide_eq_true_eq]; omega
  simp only [writeIndirect, pure_eq]
  rw [if_pos (by omega), if_pos (by simp only [blockSize]; omega), wp_bind]
  have hu := hp.used
  rw [halloc] at hu
  rcases Nat.eq_or_lt_of_le h8 with heq | hgt
  · -- the first entry: the indirect block is allocated before the chunk's
    have hpc : pointers s = chunks s + 1 := pointers_eq_of_lt (by omega)
    have hfit := h.fits
    rw [halloc, hpc] at hfit
    have hnew : d.newPtr ino 8 = d.fresh ino 8 := by rw [newPtr_of_not_kept (hkept 8), halloc]
    have hfalse : w.alreadyAllocatedIndirect = false := by
      rw [hl.already, decide_eq_false_iff_not]; omega
    rw [← heq, ptrCount_of_le le_rfl] at hu
    rw [allocIndirect, if_pos hfalse, wp_bind]
    refine wp_allocNext hu (by omega) fun f hfu hf => ?_
    rw [pure_eq, wp_ret, wp_bind]
    refine h.wp_writeAllocated (w := { w with
      needToOverwriteIndirect := true
      ino := w.ino.setBlock 8 (UInt32.ofNat (d.fresh ino 8))
      alreadyAllocatedIndirect := true }) hk h8 (hkept _) hw.remaining hind hl.entries hp hf ?_ ?_
    · rw [hfu, halloc, ← heq]
    · intro final g hfinal hg
      refine ⟨⟨hneed, halready, hnext, ?_, hfinal, hg⟩, rfl, rfl, rfl⟩
      change w.ino.setBlock 8 _ = _
      rw [hl.record, ← heq, ← hnew]
      exact inoAt_setBlock_eight
  · have htrue : ¬ w.alreadyAllocatedIndirect = false := by
      rw [hl.already, Bool.not_eq_false, decide_eq_true_eq]; omega
    rw [allocIndirect, if_neg htrue, pure_eq, wp_ret, wp_bind]
    refine h.wp_writeAllocated (w := { w with needToOverwriteIndirect := true }) hk h8 (hkept _)
      hw.remaining hind hl.entries hp (fun _ _ => rfl) ?_ ?_
    · rw [hu, ptrCount_of_lt hgt, halloc]
    · intro final g hfinal hg
      refine ⟨⟨hneed, ?_, hnext, ?_, hfinal, hg⟩, rfl, rfl, rfl⟩
      · change w.alreadyAllocatedIndirect = _
        rw [← halready, hl.already, decide_eq_true_eq]; omega
      · rw [inoAt_succ hgt]
        exact hl.record

-- A chunk of the indirect part, where the file had an indirect block, which stays.
theorem wp_writeIndirect_kept {w : WriteState} {e : Disk} (h : Writable d ino s)
    (hw : WriteInv d ino buf s w e) (hk : w.index < chunks s) (h8 : 8 ≤ w.index)
    (hn : 8 < chunks ino.size.toNat)
    (hnum : w.numBytesAlreadyWritten < (ino.size.toNat : Int) ↔ Kept ino (w.index + 1)) :
    wp (writeIndirect buf s ino.size.toNat w)
      (fun w' e' => Laid d ino buf s (w.index + 1) w' e' ∧ SameCounters w w') e := by
  have hl := hw.laid
  have hind := hl.indirectIndex
  have hp := hl.placed
  have hsize : 4096 < ino.size.toNat := by
    have := lt_chunks_iff.mp hn
    omega
  have hneed : true = decide (8 < w.index + 1) := by rw [eq_comm, decide_eq_true_eq]; omega
  have hnext : w.indirectIndex + 1 = w.index + 1 - 8 := by omega
  have halready : w.alreadyAllocatedIndirect =
      decide (chunks ino.size.toNat ≤ 8 ∧ 8 < w.index + 1) := by
    rw [hl.already, decide_eq_decide]; omega
  have hrecord : d.inoAt ino (w.index + 1) = d.inoAt ino w.index := by
    rcases Nat.eq_or_lt_of_le h8 with heq | hgt
    · rw [← heq]; exact inoAt_nine_of_kept ⟨le_rfl, hn, hn.le⟩
    · exact inoAt_succ hgt
  have hQ : ∀ final f, (∀ j < w.index + 1 - 8,
      final.word j = UInt32.ofNat (d.newPtr ino (9 + j))) →
      Placed d ino buf s (w.index + 1) f →
      Laid d ino buf s (w.index + 1)
        { w with
          needToOverwriteIndirect := true
          finalIndirectBlock := final
          indirectIndex := w.indirectIndex + 1 } f := by
    intro final f hfinal hf
    exact ⟨hneed, halready, hnext, hrecord ▸ hl.record, hfinal, hf⟩
  have hreuse : Kept ino (w.index + 1) → wp (writeReused buf
      { w with needToOverwriteIndirect := true }) (fun w' e' =>
        Laid d ino buf s (w.index + 1) { w' with indirectIndex := w'.indirectIndex + 1 } e' ∧
        SameCounters w { w' with indirectIndex := w'.indirectIndex + 1 }) e := by
    intro hkept
    refine h.wp_writeReused (w := { w with needToOverwriteIndirect := true }) hk h8 hkept
      hw.remaining ⟨rfl, hl.already, hind, hl.record, hl.entries, hp⟩ fun final f hfinal hf => ?_
    exact ⟨hQ final f hfinal hf, rfl, rfl, rfl⟩
  simp only [writeIndirect, pure_eq]
  by_cases hle : ino.size.toNat ≤ s
  · rw [if_pos (by omega), if_neg (by simp only [blockSize]; omega)]
    by_cases hkept : Kept ino (w.index + 1)
    · rw [if_neg (by have := hnum.mpr hkept; omega), wp_bind]
      exact hreuse hkept
    · rw [if_pos (by have := mt hnum.mp hkept; omega), wp_bind]
      refine h.wp_writeAllocated (w := { w with needToOverwriteIndirect := true }) hk h8 hkept
        hw.remaining hind hl.entries hp (fun _ _ => rfl) ?_ ?_
      · have hge : chunks ino.size.toNat ≤ w.index := by unfold Kept at hkept; omega
        rw [hp.used, ptrCount_of_lt (by omega)]
      · intro final f hfinal hf
        exact ⟨hQ final f hfinal hf, rfl, rfl, rfl⟩
  · have hcs : chunks s ≤ chunks ino.size.toNat := by unfold chunks; omega
    rw [if_neg (by omega), wp_bind]
    exact hreuse ⟨by omega, hn, by omega⟩

theorem wp_writeIndirect {w : WriteState} {e : Disk} (h : Writable d ino s)
    (hw : WriteInv d ino buf s w e) (hk : w.index < chunks s) (h8 : 8 ≤ w.index)
    (hnum : 8 < chunks ino.size.toNat →
      (w.numBytesAlreadyWritten < (ino.size.toNat : Int) ↔ Kept ino (w.index + 1))) :
    wp (writeIndirect buf s ino.size.toNat w)
      (fun w' e' => Laid d ino buf s (w.index + 1) w' e' ∧ SameCounters w w') e := by
  rcases Nat.lt_or_ge 8 (chunks ino.size.toNat) with hn | hold
  · exact h.wp_writeIndirect_kept hw hk h8 hn (hnum hn)
  · exact h.wp_writeIndirect_new hw hk h8 hold

theorem writeInv_zero {f : Disk} (hu : f.used = d.released ino)
    (hf : ∀ r, 9 ≤ r → f.row r = d.row r) (b : Block) :
    WriteInv d ino buf s ⟨ino, s, 0, false, b, false, 0, 0⟩ f := by
  have hnone : (false : Bool) = decide (chunks ino.size.toNat ≤ 8 ∧ 8 < 0) := by
    rw [eq_comm, decide_eq_false_iff_not]; omega
  have hp : Placed d ino buf s 0 f := by
    refine ⟨?_, fun r hr _ => hf r hr, fun c hc => absurd hc (Nat.not_lt_zero c),
      fun r hr _ => hf r (by omega)⟩
    rw [hu, ptrCount_of_le (by omega), allocsBefore_of_le (.inl (by omega)), taken_zero]
  exact ⟨Nat.zero_le _, rfl, fun _ => rfl, rfl, hnone, rfl, inoAt_zero.symm,
    fun j hj => absurd hj (Nat.not_lt_zero j), hp⟩

theorem wp_writeStep {w : WriteState} {e : Disk} (h : Writable d ino s)
    (hw : WriteInv d ino buf s w e) (hpos : w.remainingBytesToWrite > 0)
    (hkept : 8 ≤ w.index → 8 < chunks ino.size.toNat →
      (w.numBytesAlreadyWritten < (ino.size.toNat : Int) ↔ Kept ino (w.index + 1))) :
    wp (writeStep buf s ino.size.toNat w)
      (fun w' e' => WriteInv d ino buf s w' e' ∧ w'.index = w.index + 1) e := by
  have hrem := hw.remaining
  have hlt : 512 * w.index < s := by omega
  have hk : w.index < chunks s := lt_chunks_iff.mpr hlt
  have hdirect := hw.counted.direct_iff h.sizeOk hk
  have hnext : ∀ w' e', Laid d ino buf s (w.index + 1) w' e' ∧ SameCounters w w' →
      WriteInv d ino buf s (endRound w') e' ∧ (endRound w').index = w.index + 1 := by
    rintro w' e' ⟨hl, hsame⟩
    have hindex : (endRound w').index = w.index + 1 := congrArg (· + 1) hsame.index
    have hc := hw.counted.next hsame hk
    refine ⟨⟨hc.index_le, hc.remaining, hc.num, ?_⟩, hindex⟩
    rw [hindex]
    exact ⟨hl.need, hl.already, hl.indirectIndex, hl.record, hl.entries, hl.placed⟩
  simp only [writeStep, pure_eq]
  by_cases h8 : w.index < 8
  · rw [if_pos (hdirect.mpr h8), wp_bind]
    exact wp_mono (h.wp_writeDirect hw hk h8) hnext
  · rw [if_neg (mt hdirect.mp h8), wp_bind]
    exact wp_mono (h.wp_writeIndirect hw hk (by omega) (hkept (by omega))) hnext

-- The loop writes every chunk, when the counter tells the entries that are there from the others.
theorem wp_writeWhile {w₀ : WriteState} {e : Disk} {Q : WriteState → Disk → Prop}
    (h : Writable d ino s)
    (hkept : ∀ w e, WriteInv d ino buf s w e → w.index < chunks s → 8 ≤ w.index →
      8 < chunks ino.size.toNat →
      (w.numBytesAlreadyWritten < (ino.size.toNat : Int) ↔ Kept ino (w.index + 1)))
    (h₀ : w₀.index = 0) (hw₀ : WriteInv d ino buf s w₀ e)
    (hQ : ∀ w e, Laid d ino buf s (chunks s) w e → Q w e) :
    wp (whileLoop (fun w => decide (w.remainingBytesToWrite > 0))
      (writeStep buf s ino.size.toNat) s w₀) Q e := by
  refine wp_whileLoop (WriteInv d ino buf s) (fun w => w.remainingBytesToWrite.toNat) hw₀ ?_ ?_ ?_ ?_
  · rw [hw₀.remaining, h₀]
    simp only [Int.toNat_natCast, Nat.mul_zero, Nat.sub_zero, le_refl]
  · intro w hpos
    rw [decide_eq_true_eq] at hpos
    omega
  · intro w e hw hpos
    rw [decide_eq_true_eq] at hpos
    have hk : w.index < chunks s := lt_chunks_iff.mpr (by have := hw.remaining; omega)
    refine wp_mono (h.wp_writeStep hw hpos fun h8 => hkept w e hw hk h8)
      fun w' e' hw' => ⟨hw'.1, ?_⟩
    rw [hw'.1.remaining, hw.remaining, hw'.2]
    have := lt_chunks_iff.mp hk
    omega
  · intro w e hw hdone
    rw [decide_eq_false_iff_not] at hdone
    exact hQ w e (hw.counted.index_eq hdone ▸ hw.laid)

theorem wp_writeLoop {Q : WriteState → Disk → Prop} (h : Writable d ino s)
    (hold : asInt ino.size = ino.size.toNat) (hlt : ∀ k < 8, (ino.block k).toNat < 32768)
    (hkept : ∀ w e, WriteInv d ino buf s w e → w.index < chunks s → 8 ≤ w.index →
      8 < chunks ino.size.toNat →
      (w.numBytesAlreadyWritten < (ino.size.toNat : Int) ↔ Kept ino (w.index + 1)))
    (hQ : ∀ w e, Laid d ino buf s (chunks s) w e → Q w e) : wp (writeLoop ino buf s) Q d := by
  rw [writeLoop, wp_bind]
  refine wp_freeDirect hlt fun f hu hf => ?_
  simp only [wp_bind, wp_freshBlock, hold]
  exact fun final => h.wp_writeWhile hkept rfl (writeInv_zero hu hf final) hQ

end Writable

namespace WriteOk

open Disk

variable {d : Disk} {ino : Inode} {s : Nat} {buf : Mem}

theorem asInt_size (h : WriteOk d ino s) : asInt ino.size = ino.size.toNat :=
  asInt_of_lt (by have := h.oldSizeOk.le; omega)

/-- The loop writes every chunk. -/
theorem wp_writeLoop {Q : WriteState → Disk → Prop} (h : WriteOk d ino s)
    (hQ : ∀ w e, Laid d ino buf s (chunks s) w e → Q w e) : wp (writeLoop ino buf s) Q d :=
  h.writable.wp_writeLoop h.asInt_size (fun _ hk => h.ascending.lt (by omega))
    (fun _ _ hw hk h8 => hw.counted.num_lt_iff hk h8 h.grow) hQ

end WriteOk

/-! ## The rest of `write_file` -/

-- The loop that frees old indirect blocks, on `n` bytes to free from entry `i` on.
theorem wp_shrinkLoop {b : Block} {i n : Nat} {e : Disk} {Q : Nat × Int → Disk → Prop}
    (hi : i + chunks n ≤ 128) (hlt : ∀ j < chunks n, (b.word (i + j)).toNat < 32768)
    (hQ : ∀ v f, Disk.Freed e (fun id => ∃ j < chunks n, id = (b.word (i + j)).toNat) f →
      Q v f) :
    wp (whileLoop (fun v => decide (v.2 > 0)) (shrinkStep b) n (i, (n : Int))) Q e := by
  refine wp_whileLoop (fun v f => ∃ t ≤ chunks n, v = (i + t, (n : Int) - 512 * t) ∧
    Disk.Freed e (fun id => ∃ j < t, id = (b.word (i + j)).toNat) f)
    (fun v => v.2.toNat) ?_ ?_ ?_ ?_ ?_
  · refine ⟨0, Nat.zero_le _, ?_, Disk.Freed.refl fun id ⟨j, hj, _⟩ => absurd hj (Nat.not_lt_zero j)⟩
    simp only [Nat.add_zero, Nat.cast_zero, mul_zero, sub_zero]
  · exact le_rfl
  · intro v hpos
    rw [decide_eq_true_eq] at hpos
    omega
  · rintro v f ⟨t, ht, rfl, hf⟩ hpos
    rw [decide_eq_true_eq] at hpos
    have htn : t < chunks n := lt_chunks_iff.mpr (by omega)
    simp only [shrinkStep, wp_bind, wp_entry _ _ _ _ (show i + t < 128 by omega), pure_eq, wp_ret,
      wp_freeBlock]
    refine ⟨⟨t + 1, htn, ?_, hf.markFree (hlt t htn) fun b => ⟨?_, ?_⟩⟩, ?_⟩
    · simp only [Prod.mk.injEq, blockSize]
      omega
    · rintro ⟨j, hj, rfl⟩
      rcases Nat.lt_succ_iff_lt_or_eq.mp hj with h | rfl
      · exact .inl ⟨j, h, rfl⟩
      · exact .inr rfl
    · rintro (⟨j, hj, rfl⟩ | rfl)
      · exact ⟨j, by omega, rfl⟩
      · exact ⟨t, Nat.lt_succ_self t, rfl⟩
    · simp only [blockSize]
      omega
  · rintro v f ⟨t, ht, rfl, hf⟩ hdone
    rw [decide_eq_false_iff_not] at hdone
    have htn : t = chunks n := le_antisymm ht (chunks_le_iff.mpr (by omega))
    exact hQ _ f (htn ▸ hf)

/-- The blocks that a write of `s` bytes frees last: those of the entries past the end of the new
file, or, when the new file has no indirect block, the block that `blocks[8]` names. -/
def Disk.Dropped (d : Disk) (ino : Inode) (s id : Nat) : Prop :=
  (chunks s ≤ 8 ∧ id = (ino.block 8).toNat) ∨
  (8 < chunks s ∧ ∃ p, chunks s < p ∧ p ≤ chunks ino.size.toNat ∧ id = d.ptrOf ino p)

/-- The disk when `write_file` is about to store the inode. -/
structure Stored (d : Disk) (ino : Inode) (buf : Mem) (s : Nat) (e : Disk) : Prop where
  used : ∀ id, id ∈ e.used ↔
    id ∈ d.taken ino (Disk.allocsBefore ino (pointers s)) ∧ ¬ d.Dropped ino s id
  table : ∀ r, 9 ≤ r → r ≤ 122 → e.row r = d.row r
  data : ∀ c < chunks s, ∀ j < 512, 512 * c + j < s →
    (e.row (d.newPtr ino (chunkPtr c))).byte j = buf (512 * c + j)
  entries : ∀ p, 8 < p → p < pointers s →
    (e.row (d.newPtr ino 8)).word (p - 9) = UInt32.ofNat (d.newPtr ino p)
  other : ∀ r, 123 ≤ r → (∀ p < pointers s, r ≠ d.newPtr ino p) → e.row r = d.row r

namespace WriteOk

open Disk

variable {d : Disk} {ino : Inode} {s : Nat} {buf : Mem}

-- A file that ends in the direct blocks.
theorem stored_direct {e f : Disk} (h : WriteOk d ino s) (hn : chunks s ≤ 8)
    (hp : Placed d ino buf s (chunks s) e)
    (hf : Freed e (fun id => id = (ino.block 8).toNat) f) : Stored d ino buf s f := by
  have hpc : pointers s = chunks s := pointers_eq_of_le hn
  constructor
  · intro id
    rw [hf.used, hp.used]
    refine and_congr_right fun _ => not_congr ⟨fun h => .inl ⟨hn, h⟩, ?_⟩
    rintro (h | h)
    · exact h.2
    · omega
  · intro r hr hr'
    rw [hf.rows r hr, hp.table r hr hr']
  · intro c hc j hj hjs
    have hreg := h.newPtr_region (chunkPtr_lt hc)
    rw [hf.rows _ (by omega), hp.data c hc j hj hjs]
  · intro p hp8 hp
    omega
  · intro r hr hne
    rw [hf.rows r (by omega), hp.other r hr fun c hc => ?_]
    exact hne _ (chunkPtr_lt hc)

-- A file with an indirect block.
theorem stored_indirect {e f : Disk} {final : Block} (h : WriteOk d ino s) (hn : 8 < chunks s)
    (hp : Placed d ino buf s (chunks s) e)
    (hf : Freed e (fun id => ∃ p, chunks s < p ∧ p ≤ chunks ino.size.toNat ∧ id = d.ptrOf ino p) f)
    (hfinal : ∀ j < chunks s - 8, final.word j = UInt32.ofNat (d.newPtr ino (9 + j))) :
    Stored d ino buf s (f.setRow (d.newPtr ino 8) final) := by
  have hpc : pointers s = chunks s + 1 := pointers_eq_of_lt hn
  have h8 := h.newPtr_region (show 8 < pointers s by omega)
  constructor
  · intro id
    rw [used_setRow _ _ _ (by omega), hf.used, hp.used]
    refine and_congr_right fun _ => not_congr ⟨fun hd => .inr ⟨hn, hd⟩, ?_⟩
    rintro (hd | hd)
    · omega
    · exact hd.2
  · intro r hr hr'
    rw [row_setRow_ne _ _ (by omega), hf.rows r hr, hp.table r hr hr']
  · intro c hc j hj hjs
    have hreg := h.newPtr_region (chunkPtr_lt hc)
    have hne : d.newPtr ino (chunkPtr c) ≠ d.newPtr ino 8 := fun he =>
      chunkPtr_ne_eight c (h.newPtr_inj (chunkPtr_lt hc) (by omega) he)
    rw [row_setRow_ne _ _ hne, hf.rows _ (by omega), hp.data c hc j hj hjs]
  · intro p hp8 hp
    rw [row_setRow_self _ _ _ h8.2, hfinal _ (by omega), show 9 + (p - 9) = p by omega]
  · intro r hr hne
    rw [row_setRow_ne _ _ (hne 8 (by omega)), hf.rows r (by omega), hp.other r hr fun c hc => ?_]
    exact hne _ (chunkPtr_lt hc)

theorem newPtr_not_dropped {p : Nat} (h : WriteOk d ino s) (hp : p < pointers s) :
    ¬ d.Dropped ino s (d.newPtr ino p) := by
  have hreg := h.newPtr_region hp
  rintro (⟨hn, he⟩ | ⟨hn, q, hq, hq', he⟩)
  · rw [pointers_eq_of_le hn] at hp
    have hkp : ¬ Kept ino p := fun hk => by have := hk.1; omega
    have h0 : ino.block 8 ≠ 0 := fun h0 => by
      rw [he, h0] at hreg
      exact absurd hreg.1 (by decide)
    rw [newPtr_of_not_kept hkp, allocsBefore_of_le (.inl (by omega))] at he
    exact absurd he (h.fresh_lt_block (by omega) (by omega) h0).ne
  · have hkq : Kept ino q := ⟨by omega, by omega, hq'⟩
    rw [pointers_eq_of_lt hn] at hp
    by_cases hkp : Kept ino p
    · rw [newPtr_of_kept hkp] at he
      have := h.distinct p hkp.lt q hkq.lt he
      omega
    · rw [newPtr_of_not_kept hkp] at he
      have hfresh := (fresh_mem (h.allocsBefore_lt (by rw [pointers_eq_of_lt hn]; omega) hkp)).2
      exact hfresh (he ▸ h.writable.kept_mem_released hkq)

-- The last stores, when the new file has no indirect block.
theorem wp_writeEnd_direct {w : WriteState} {e : Disk} {Q : Inode → Disk → Prop}
    (h : WriteOk d ino s) (hl : Laid d ino buf s (chunks s) w e) (hn : chunks s ≤ 8)
    (hQ : ∀ f, Stored d ino buf s f → Q (d.written ino s) f) : wp (writeEnd ino s w) Q e := by
  have hlt : (ino.block 8).toNat < 32768 := h.ascending.lt (by omega)
  have hs8 : (s : Int) ≤ 8 * blockSize := by
    have := chunks_le_iff.mp hn
    simp only [blockSize]
    omega
  have hneed : ¬ w.needToOverwriteIndirect = true := by
    rw [hl.need, decide_eq_true_eq]
    omega
  have hshrinks : ¬ Shrinks ino s w := fun hs => hneed (Bool.and_eq_true_iff.mp hs).1
  simp only [writeEnd, if_neg hshrinks, if_neg hneed, if_pos hs8, wp_bind,
    hl.block_eight_of_le hn, wp_freeBlock, pure_eq, wp_ret, hl.written]
  refine hQ _ (h.stored_direct hn hl.placed ?_)
  exact (Freed.refl (fun _ => id)).markFree hlt fun x => (or_iff_right id).symm

-- The last stores of a file with an indirect block, when its surplus blocks have been freed.
theorem wp_storeIndirect {w : WriteState} {e f : Disk} {Q : Inode → Disk → Prop}
    (h : WriteOk d ino s) (hl : Laid d ino buf s (chunks s) w e) (hn : 8 < chunks s)
    (hf : Freed e (fun id => ∃ p, chunks s < p ∧ p ≤ chunks ino.size.toNat ∧ id = d.ptrOf ino p) f)
    (hQ : ∀ f, Stored d ino buf s f → Q (d.written ino s) f) :
    wp (writeBlock .writeFile (w.ino.block 8) w.finalIndirectBlock)
      (fun _ g => Q (w.ino.setSize (UInt32.ofNat s)) g) f := by
  have h8reg := h.newPtr_region (show 8 < pointers s by rw [pointers_eq_of_lt hn]; omega)
  have hid := toNat_ofNat (show d.newPtr ino 8 < 32769 by omega)
  rw [hl.block_eight hn, writeBlock, wp_writeDisk _ _ _ _ _ (hid.trans_lt h8reg.2), hid, hl.written]
  exact hQ _ (h.stored_indirect hn hl.placed hf hl.entries)

theorem wp_writeEnd_indirect {w : WriteState} {e : Disk} {Q : Inode → Disk → Prop}
    (h : WriteOk d ino s) (hl : Laid d ino buf s (chunks s) w e) (hn : 8 < chunks s)
    (hQ : ∀ f, Stored d ino buf s f → Q (d.written ino s) f) : wp (writeEnd ino s w) Q e := by
  have hs8 : ¬ (s : Int) ≤ 8 * blockSize := by
    have := lt_chunks_iff.mp hn
    simp only [blockSize]
    omega
  have hneed : w.needToOverwriteIndirect = true := by
    rw [hl.need, decide_eq_true_eq]
    exact hn
  have hshrinks : Shrinks ino s w ↔ s < ino.size.toNat := by
    rw [Shrinks, hneed, Bool.true_and, decide_eq_true_eq, h.asInt_size]
    omega
  by_cases hlt : s < ino.size.toNat
  · -- the shrink loop frees the entries past the end of the new file
    have h8lt : (ino.block 8).toNat < 32768 := h.ascending.lt (by omega)
    have hshrink := h.shrink (by simp only [blockSize] at hs8; omega) hlt
    have hn136 := h.oldSizeOk.chunks_le
    have hkept : Kept ino 8 := ⟨le_rfl, by omega, by omega⟩
    have hrow := h.writable.row_indirect hkept hn le_rfl hl.placed
    have h8 : w.ino.block 8 = ino.block 8 := by rw [hl.record, block_inoAt_kept hkept]
    have hsub : (ino.size.toNat : Int) - s = (ino.size.toNat - s : Nat) := by omega
    have hind : w.indirectIndex = chunks s - 8 := hl.indirectIndex
    have hentry : ∀ j, ((d.row (ino.block 8).toNat).word (w.indirectIndex + j)).toNat =
        d.ptrOf ino (chunks s + 1 + j) := by
      intro j
      rw [ptrOf_entry (by omega), hind, show chunks s + 1 + j - 9 = chunks s - 8 + j by omega]
    have hptr : ∀ j < chunks (ino.size.toNat - s),
        d.ptrOf ino (chunks s + 1 + j) < 32768 := fun j hj =>
      (h.region _ (by rw [pointers_eq_of_lt hkept.2.1]; omega)).2
    simp only [writeEnd, if_pos (hshrinks.mpr hlt), if_pos hneed, if_neg hs8, loadIndirect,
      shrinkLoop, h.asInt_size, hsub, Int.toNat_natCast, wp_bind, wp_freshBlock, readBlock, h8,
      wp_readDisk _ _ _ _ h8lt, hrow, forall_const, pure_eq, wp_ret]
    refine wp_shrinkLoop (by omega) (fun j hj => by rw [hentry]; exact hptr j hj) fun v g hg => ?_
    rw [← h8]
    refine h.wp_storeIndirect hl hn ⟨fun id => ?_, hg.rows⟩ hQ
    rw [hg.used]
    refine and_congr_right fun _ => not_congr ⟨?_, ?_⟩
    · rintro ⟨j, hj, rfl⟩
      exact ⟨chunks s + 1 + j, by omega, by omega, hentry j⟩
    · rintro ⟨p, hp, hp', rfl⟩
      refine ⟨p - (chunks s + 1), by omega, ?_⟩
      rw [hentry, show chunks s + 1 + (p - (chunks s + 1)) = p by omega]
  · have hle : chunks ino.size.toNat ≤ chunks s := by
      unfold chunks
      omega
    simp only [writeEnd, if_neg (mt hshrinks.mp hlt), if_pos hneed, if_neg hs8, wp_bind, pure_eq,
      wp_ret]
    refine h.wp_storeIndirect hl hn (Freed.refl fun id => ?_) hQ
    rintro ⟨p, hp, hp', -⟩
    omega

theorem wp_writeBlocks {Q : Inode → Disk → Prop} (h : WriteOk d ino s)
    (hQ : ∀ e, Stored d ino buf s e → Q (d.written ino s) e) :
    wp (writeBlocks ino buf s) Q d := by
  rw [writeBlocks_eq, wp_bind]
  refine h.wp_writeLoop fun w e hl => ?_
  rcases Nat.lt_or_ge 8 (chunks s) with hn | hn
  · exact h.wp_writeEnd_indirect hl hn hQ
  · exact h.wp_writeEnd_direct hl hn hQ

end WriteOk

-- The check of the size.
theorem not_refused {size : Int} (hsize : 0 ≤ size ∧ size ≤ blockSize * maxFile) :
    ¬ (decide (size < 0) || decide (size > blockSize * maxFile)) = true := by
  rw [Bool.or_eq_true, decide_eq_true_eq, decide_eq_true_eq]
  omega

-- Past its checks, `write_file` writes the blocks and stores the record last.
theorem wp_writeFile_accepted {d : Disk} {inum : UInt32} {buf : Mem} {size : Int}
    {Q : Unit → Disk → Prop} (hin : d.InUse inum.toNat)
    (hsize : 0 ≤ size ∧ size ≤ blockSize * maxFile) :
    wp (writeFile inum buf size) Q d ↔ wp (writeBlocks (d.inode inum.toNat) buf size)
      (fun ino e => Q () (e.setInode inum.toNat ino)) d := by
  simp only [writeFile, wp_bind, wp_writerEnter, wp_writerExit, if_neg (not_refused hsize),
    wp_getInode, Disk.lookup_eq_some hin, wp_putInode _ _ _ _ hin.1]

theorem wp_writeFile {d : Disk} {inum : UInt32} {buf : Mem} {s : Nat} {Q : Unit → Disk → Prop}
    (hin : d.InUse inum.toNat) (h : WriteOk d (d.inode inum.toNat) s)
    (hQ : ∀ e, Stored d (d.inode inum.toNat) buf s e →
      Q () (e.setInode inum.toNat (d.written (d.inode inum.toNat) s))) :
    wp (writeFile inum buf s) Q d := by
  have hs := h.sizeOk.1
  rw [wp_writeFile_accepted hin (by omega)]
  exact h.wp_writeBlocks hQ

/-- `write_file` refuses a size out of range and an inode that is not in use. -/
theorem wp_writeFile_refused {d : Disk} {inum : UInt32} {buf : Mem} {size : Int}
    {Q : Unit → Disk → Prop} (h : size < 0 ∨ size > blockSize * maxFile ∨ ¬ d.InUse inum.toNat) :
    wp (writeFile inum buf size) Q d ↔ Q () d := by
  simp only [writeFile, wp_bind, wp_writerEnter]
  by_cases hsize : (decide (size < 0) || decide (size > blockSize * maxFile)) = true
  · rw [if_pos hsize]
    simp only [wp_writerExit]
  · rw [if_neg hsize]
    rw [Bool.or_eq_true, decide_eq_true_eq, decide_eq_true_eq] at hsize
    have hfree : ¬ d.InUse inum.toNat := by tauto
    simp only [wp_bind, wp_getInode, Disk.lookup_eq_none hfree, wp_writerExit]

end InodeFs
