import InodeFs.Isolation
import InodeFs.Shrink

/-!
# How an indirect file grows

A write that makes an indirect file longer reuses an entry of the old indirect block while the byte
counter is below the old size.  The counter lags in the round of a partial last chunk, so that an
entry which was never set can be taken for one of the file's.
-/

namespace InodeFs

open BlockLayer InodeLayer Prog Disk

/-! ## What `alloc_block` hands out -/

/-- A store of `alloc_block` sets the bit of block `id`. -/
def Takes (d : Disk) (op : Op FsSig) (id : Nat) : Prop :=
  ∃ r b, op = .act (.write .allocBlock r b) ∧ id ∉ d.used ∧ id ∈ (d.setRow r.toNat b).used

/-- The blocks that `alloc_block` takes in a run. -/
abbrev takenIn (l : List (Disk × Op FsSig)) : Set Nat := gathered Takes l

/-- The block that an answer of `alloc_block` names; `-1` names none. -/
def handedOut (a : UInt32) : Set Nat := {x | a ≠ 0xffffffff ∧ x = a.toNat}

section Pieces
variable {α β : Type} {p : FsM α} {d : Disk}

/-- A program without stores of `alloc_block`, whatever it reads. -/
abbrev Untaking (p : FsM α) : Prop :=
  Follows (allows fun op : Op FsSig => ∀ r b, op ≠ .act (.write .allocBlock r b)) p
    (fun _ _ => True) ()

theorem Untaking.barren (h : Untaking p) (d : Disk) : Barren Takes p d := by
  intro i x hx s y hy
  obtain ⟨r, b, hop, -⟩ := hy
  exact Within.of_follows h d i x hx r b hop

theorem Untaking.bind {f : α → FsM β} (hp : Untaking p) (hf : ∀ a, Untaking (f a)) :
    Untaking (p >>= f) := Follows.bind (hp.mono fun a _ _ => hf a)

theorem Untaking.ret (a : α) : Untaking (Prog.ret a : FsM α) := trivial

theorem untaking_freshBlock : Untaking freshBlock := ⟨nofun, fun _ => trivial⟩

theorem untaking_readDisk (id : UInt32) (b : Block) : Untaking (readDisk id b) :=
  ⟨nofun, fun _ => trivial⟩

theorem untaking_writeDisk {who : Caller} (hwho : who ≠ .allocBlock) (id : UInt32) (b : Block) :
    Untaking (writeDisk who id b) := by
  refine ⟨fun r c h => ?_, fun _ => trivial⟩
  cases h
  exact hwho rfl

theorem untaking_lock (m : Mutex) : Untaking (lock m) := ⟨nofun, trivial⟩

theorem untaking_unlock (m : Mutex) : Untaking (unlock m) := ⟨nofun, trivial⟩

theorem untaking_freeBlock (id : UInt32) : Untaking (freeBlock id) :=
  ⟨nofun, nofun, fun _ => ⟨nofun, fun _ => ⟨nofun, fun _ => ⟨nofun, trivial⟩⟩⟩⟩

theorem untaking_getInode (inum : UInt32) : Untaking (getInode inum) := by
  unfold getInode
  split
  · exact .ret _
  · refine untaking_freshBlock.bind fun _ => (untaking_readDisk _ _).bind fun b => ?_
    simp only
    split <;> exact .ret _

theorem untaking_putInode (inum : UInt32) (ino : Inode) : Untaking (putInode inum ino) := by
  unfold putInode
  split
  · exact .ret _
  · exact untaking_freshBlock.bind fun _ => (untaking_readDisk _ _).bind fun _ =>
      untaking_writeDisk (by decide) _ _

theorem untaking_writerEnter (inum : UInt32) : Untaking (Rwlock.writerEnter inum : FsM Unit) :=
  ⟨nofun, nofun, nofun, nofun, trivial⟩

theorem untaking_writerExit (inum : UInt32) : Untaking (Rwlock.writerExit inum : FsM Unit) :=
  ⟨nofun, nofun, nofun, trivial⟩

theorem untaking_chunkBuffer (buf : Mem) (w : WriteState) : Untaking (chunkBuffer buf w) :=
  untaking_freshBlock.bind fun _ => .ret _

-- The store of `alloc_block` that sets the bit of block `id`.
theorem takes_markUsed {d : Disk} {id : Nat} (hid : id < 32768) (hfree : d.bit id = false)
    {b : Block} (hb : d.setRow (bblock id) b = d.markUsed id) :
    {y | Takes d (.act (.write .allocBlock (UInt32.ofNat (bblock id)) b)) y} =
      handedOut (UInt32.ofNat id) := by
  have hno : id ∉ d.used := fun h => by
    rw [(mem_used.mp h).2] at hfree
    cases hfree
  have hne : UInt32.ofNat id ≠ 0xffffffff := fun h => by
    have := congrArg UInt32.toNat h
    rw [toNat_ofNat (by omega), show (0xffffffff : UInt32).toNat = 4294967295 from rfl] at this
    omega
  ext y
  constructor
  · rintro ⟨r, c, hop, hy, hy'⟩
    cases hop
    rw [toNat_bblock hid, hb, used_markUsed d id hid hno] at hy'
    exact ⟨hne, ((Finset.mem_insert.mp hy').resolve_right hy).trans (toNat_ofNat (by omega)).symm⟩
  · rintro ⟨-, rfl⟩
    rw [toNat_ofNat (by omega)]
    refine ⟨_, b, rfl, hno, ?_⟩
    rw [toNat_bblock hid, hb, used_markUsed d id hid hno]
    exact Finset.mem_insert_self ..

-- `alloc_block` takes the block that it returns, and no other.
theorem gathers_allocBlock (d : Disk) :
    Gathers Takes allocBlock d fun a _ T => T = handedOut a := by
  have hscan : ∀ n id, id + n = 32768 →
      Gathers Takes (allocScan n id) d fun a _ T => T = handedOut a := by
    intro n
    induction n with
    -- past the last block: nothing is marked, and `-1` is returned
    | zero =>
      intro id _
      have hunlock : Untaking (allocScan 0 id) := (untaking_unlock _).bind fun _ => .ret _
      refine .of_barren (hunlock.barren d) ?_
      exact (Set.eq_empty_iff_forall_notMem.mpr fun y hy => hy.1 rfl).symm
    | succ n ih =>
      intro id hid
      have hrow := toNat_bblock (show id < 32768 by omega)
      have hlt := bblock_lt (show id < 32768 by omega)
      rw [allocScan]
      refine .seq (untaking_freshBlock.barren d) ((wp_freshBlock _ _).mpr fun buf => ?_)
      refine .seq ((untaking_readDisk _ _).barren d) ((wp_readDisk _ _ _ _ (by omega)).mpr ?_)
      simp only
      split
      · -- marked: on to the next one
        exact ih (id + 1) (by omega)
      · -- free: its bit is set, and the scan ends
        rename_i hclear
        have hbit : d.bit id = false := by
          rw [and_charBit_ne_zero _ _ (by omega), Bool.not_eq_true] at hclear
          rw [bit, bitmapByte, ← hrow]
          exact hclear
        refine .bind (.perform fun i => ?_)
        rw [takes_markUsed (by omega) hbit (by rw [hrow]; rfl)]
        have hunlock : Untaking (unlock .bitmap >>= fun _ => (pure (UInt32.ofNat id) : FsM UInt32)) :=
          (untaking_unlock _).bind fun _ => .ret _
        exact .of_barren (hunlock.barren _) (Set.union_empty _)
  exact .seq ((untaking_lock _).barren d) (hscan _ _ rfl)

end Pieces

/-! ## One round of the loop -/

section Round
variable {d : Disk} {ino : Inode} {s : Nat} {buf : Mem} {w : WriteState} {e : Disk}

theorem gathers_newBlock (buf : Mem) (w : WriteState) (e : Disk) :
    Gathers Takes (newBlock buf w) e fun x _ T => T = handedOut x.1 := by
  refine .skip ((untaking_chunkBuffer buf w).barren e) fun b e => ?_
  refine .bind ((gathers_allocBlock e).mono fun id e T hT => .ret ?_)
  rw [Set.union_empty, hT]

-- The id that the variables take is the one that has been handed out.
theorem gathers_newChunk (buf : Mem) (w : WriteState) (next : UInt32 → WriteState) (e : Disk) :
    Gathers Takes (newBlock buf w >>= storeChunk next) e fun w' _ T =>
      ∃ id, w' = next id ∧ T = handedOut id := by
  refine .bind ((gathers_newBlock buf w e).mono fun x e T hT => ?_)
  refine .skip ((untaking_writeDisk (by decide) _ _).barren e) fun _ e => .ret ?_
  exact ⟨x.1, rfl, by rw [Set.union_empty, hT]⟩

theorem untaking_oldBlock (buf : Mem) (w : WriteState) : Untaking (oldBlock buf w) :=
  untaking_freshBlock.bind fun _ => (untaking_readDisk _ _).bind fun _ =>
    (untaking_chunkBuffer buf w).bind fun _ => .ret _

/-- The blocks that are taken in the round, when an indirect file gets longer. -/
def roundTakes (old : Int) (w w' : WriteState) : Set Nat :=
  if w.numBytesAlreadyWritten < 8 * blockSize then handedOut (w'.ino.block w.index)
  else if w.numBytesAlreadyWritten ≥ old then handedOut (w'.finalIndirectBlock.word w.indirectIndex)
  else ∅

theorem gathers_writeStep (buf : Mem) {s old : Int} (hold : 8 * blockSize < old) (hs : old ≤ s)
    (h9 : w.numBytesAlreadyWritten < 8 * blockSize → w.index < 9) (h128 : w.indirectIndex < 128)
    (e : Disk) :
    Gathers Takes (writeStep buf s old w) e fun w' _ T => T = roundTakes old w w' := by
  have hlarge : ¬ (s ≥ old ∧ old ≤ 8 * blockSize) := fun h => not_le.mpr hold h.2
  unfold roundTakes
  rw [writeStep_eq buf h9 h128, if_neg hlarge]
  by_cases hdir : w.numBytesAlreadyWritten < 8 * blockSize
  · simp only [if_pos hdir]
    refine (gathers_newChunk buf w (nextDirect w) e).mono fun w' e T h => ?_
    obtain ⟨id, rfl, rfl⟩ := h
    simp only [nextDirect, endRound, Inode.block_setBlock, if_pos (And.intro trivial (h9 hdir))]
  · simp only [if_neg hdir]
    by_cases hpast : w.numBytesAlreadyWritten ≥ old
    · -- the counter says that there is no entry: `alloc_block` makes one
      simp only [if_pos hpast, if_pos (And.intro hs hpast)]
      refine (gathers_newChunk buf w (nextIndirect w) e).mono fun w' e T h => ?_
      obtain ⟨id, rfl, rfl⟩ := h
      simp only [nextIndirect, endRound, Block.word_setWord_self _ _ _ h128]
    · -- the counter says that there is one: nothing is allocated
      simp only [if_neg hpast, if_neg fun h : s ≥ old ∧ _ => hpast h.2]
      refine .skip ((untaking_oldBlock buf w).barren e) fun x e => ?_
      exact .skip ((untaking_writeDisk (by decide) _ _).barren e) fun _ e => .ret rfl

/-- The blocks that the plan has allocated for the first `k` chunks. -/
def takenFor (d : Disk) (ino : Inode) (k : Nat) : Set Nat :=
  d.fresh ino '' Set.Iio (allocsBefore ino (ptrCount k))

theorem takenFor_zero : takenFor d ino 0 = ∅ := by
  rw [takenFor, ptrCount_of_le (by omega), allocsBefore_of_le (.inl (by omega)), Set.image_eq_empty]
  exact Set.eq_empty_of_forall_notMem fun m => Nat.not_lt_zero m

theorem handedOut_ofNat {x : Nat} (hx : x < 32768) : handedOut (UInt32.ofNat x) = {x} := by
  have hne : UInt32.ofNat x ≠ 0xffffffff := fun h => by
    have := congrArg UInt32.toNat h
    rw [toNat_ofNat (by omega), show (0xffffffff : UInt32).toNat = 4294967295 from rfl] at this
    omega
  ext y
  rw [Set.mem_singleton_iff]
  exact ⟨fun h => h.2.trans (toNat_ofNat (by omega)), fun h =>
    ⟨hne, h.trans (toNat_ofNat (by omega)).symm⟩⟩

theorem takenFor_succ {k : Nat} (h : allocsBefore ino (ptrCount (k + 1)) =
      allocsBefore ino (ptrCount k) + 1) :
    takenFor d ino k ∪ {d.fresh ino (allocsBefore ino (ptrCount k))} = takenFor d ino (k + 1) := by
  rw [takenFor, takenFor, h, ← Set.image_singleton, ← Set.image_union]
  congr 1
  ext m
  simp only [Set.mem_union, Set.mem_Iio, Set.mem_singleton_iff]
  omega

-- What a round takes, in a write that extends an indirect file.
theorem gathers_round (h : Writable d ino s) (hold : 8 < chunks ino.size.toNat)
    (hgrow : ino.size.toNat ≤ s) (hw : WriteInv d ino buf s w e) (hk : w.index < chunks s) :
    Gathers Takes (writeStep buf s ino.size.toNat w) e fun w' _ T =>
      T = roundTakes ino.size.toNat w w' := by
  have hk136 := h.sizeOk.chunks_le
  have hind : w.indirectIndex = w.index - 8 := hw.laid.indirectIndex
  have hbytes := lt_chunks_iff.mp hold
  have hdir := hw.counted.direct_iff h.sizeOk hk
  refine gathers_writeStep buf ?_ ?_ ?_ ?_ e
  · simp only [blockSize]
    omega
  · exact Int.ofNat_le.mpr hgrow
  · intro hnum
    have := hdir.mp hnum
    omega
  · omega

-- A direct chunk takes the next block of the plan.
theorem takenFor_direct (h : Writable d ino s) {w' : WriteState} {e' : Disk} {k : Nat} (h8 : k < 8)
    (hk : k < chunks s) (hinv : WriteInv d ino buf s w' e') (hindex : w'.index = k + 1) :
    takenFor d ino k ∪ handedOut (w'.ino.block k) = takenFor d ino (k + 1) := by
  have hkept : ¬ Kept ino k := fun hc => by have := hc.1; omega
  have hptr : k < pointers s := by
    have := chunkPtr_lt hk
    rwa [chunkPtr, if_pos h8] at this
  have hblock : w'.ino.block k = UInt32.ofNat (d.newPtr ino k) := by
    rw [hinv.laid.record, hindex, block_inoAt _ (by omega), ptrCount_of_le (by omega),
      if_pos (by omega)]
  have hpre : ptrCount k = k := ptrCount_of_le h8.le
  have hcount : allocsBefore ino (ptrCount k) = allocsBefore ino k := by rw [hpre]
  rw [hblock, handedOut_ofNat (h.newPtr_region hptr).2, newPtr_of_not_kept hkept, ← hcount]
  refine takenFor_succ ?_
  rw [ptrCount_of_le (by omega), hpre, allocsBefore_of_le (.inl (by omega)),
    allocsBefore_of_le (.inl (by omega))]

-- How many blocks the plan has taken before an indirect chunk.
theorem allocsBefore_ptrCount {k : Nat} (h8 : 8 ≤ k) (hold : 8 < chunks ino.size.toNat) :
    allocsBefore ino (ptrCount k) = 8 + (k - chunks ino.size.toNat) := by
  unfold ptrCount
  split
  · rw [allocsBefore_of_le (.inl (by omega))]
    omega
  · rw [allocsBefore_of_lt (by omega) hold]
    omega

-- A new entry takes the next block of the plan.
theorem takenFor_entry (h : Writable d ino s) {w' : WriteState} {e' : Disk} {k : Nat} (h8 : 8 ≤ k)
    (hk : k < chunks s) (hold : 8 < chunks ino.size.toNat) (hkept : ¬ Kept ino (k + 1))
    (hinv : WriteInv d ino buf s w' e') (hindex : w'.index = k + 1) :
    takenFor d ino k ∪ handedOut (w'.finalIndirectBlock.word (k - 8)) = takenFor d ino (k + 1) := by
  have hpast : chunks ino.size.toNat ≤ k := by
    by_contra hlt
    exact hkept ⟨by omega, hold, by omega⟩
  have hptr : k + 1 < pointers s := by
    have := chunkPtr_lt hk
    rwa [Writable.chunkPtr_of_le h8] at this
  have hentry := hinv.laid.entries (k - 8) (by omega)
  rw [show 9 + (k - 8) = k + 1 by omega] at hentry
  have hbefore := allocsBefore_ptrCount h8 hold
  have hafter := allocsBefore_ptrCount (k := k + 1) (by omega) hold
  have hcount : allocsBefore ino (k + 1) = allocsBefore ino (ptrCount k) := by
    rw [hbefore, allocsBefore_of_lt (by omega) hold]
    omega
  rw [hentry, handedOut_ofNat (h.newPtr_region hptr).2, newPtr_of_not_kept hkept, hcount]
  exact takenFor_succ (by omega)

-- An entry of the old file takes none.
theorem takenFor_of_kept {k : Nat} (hkept : Kept ino (k + 1)) (h8 : 8 ≤ k) :
    takenFor d ino k = takenFor d ino (k + 1) := by
  obtain ⟨-, hold, hle⟩ := hkept
  rw [takenFor, takenFor, allocsBefore_ptrCount h8 hold, allocsBefore_ptrCount (by omega) hold]
  congr 2
  omega

-- A round keeps to the plan as long as the counter tells the entries that are there.
theorem gathers_planned (h : Writable d ino s) (hold : 8 < chunks ino.size.toNat)
    (hgrow : ino.size.toNat ≤ s) (hw : WriteInv d ino buf s w e) (hk : w.index < chunks s)
    (hkept : 8 ≤ w.index →
      (w.numBytesAlreadyWritten < (ino.size.toNat : Int) ↔ Kept ino (w.index + 1))) :
    Gathers Takes (writeStep buf s ino.size.toNat w) e fun w' e' T =>
      (WriteInv d ino buf s w' e' ∧ w'.index = w.index + 1) ∧
        takenFor d ino w.index ∪ T = takenFor d ino (w.index + 1) := by
  have hrem := hw.remaining
  have hlt := lt_chunks_iff.mp hk
  have hind : w.indirectIndex = w.index - 8 := hw.laid.indirectIndex
  have hdir := hw.counted.direct_iff h.sizeOk hk
  have hstate := h.wp_writeStep hw (by omega) fun h8 _ => hkept h8
  refine ((gathers_round h hold hgrow hw hk).and_wp hstate).mono fun w' e' T hw' => ⟨hw'.1, ?_⟩
  obtain ⟨⟨hinv, hindex⟩, rfl⟩ := hw'
  rw [roundTakes]
  by_cases h8 : w.index < 8
  · rw [if_pos (hdir.mpr h8)]
    exact takenFor_direct h h8 hk hinv hindex
  · rw [if_neg (mt hdir.mp h8)]
    have h8' : 8 ≤ w.index := not_lt.mp h8
    by_cases hnew : w.numBytesAlreadyWritten ≥ (ino.size.toNat : Int)
    · have hkept' : ¬ Kept ino (w.index + 1) := fun hc => absurd ((hkept h8').mpr hc) (not_lt.mpr hnew)
      rw [if_pos hnew, hind]
      exact takenFor_entry h h8' hk hold hkept' hinv hindex
    · rw [if_neg hnew, Set.union_empty]
      exact takenFor_of_kept ((hkept h8').mp (not_le.mp hnew)) h8'

-- The round that takes the first entry past the old file for one of the file's. It stores the chunk
-- wherever that entry points.
theorem wp_strayRound (h : Writable d ino s) (hold : 8 < chunks ino.size.toNat)
    (hs : s < ino.size.toNat + 512) (hw : WriteInv d ino buf s w e)
    (hindex : w.index = chunks ino.size.toNat) (hk : w.index < chunks s) :
    wp (writeStep buf s ino.size.toNat w) (fun w' _ => w'.ino = w.ino ∧ w'.index = w.index + 1 ∧
      w'.remainingBytesToWrite = 0 ∧ w'.needToOverwriteIndirect = true ∧
      w'.finalIndirectBlock = w.finalIndirectBlock.setWord (w.index - 8)
        ((d.row (ino.block 8).toNat).word (w.index - 8))) e := by
  have hrem := hw.remaining
  have hlt := lt_chunks_iff.mp hk
  have hle := chunks_le_iff.mp (le_of_eq hindex.symm)
  have hnum := hw.num hk
  rw [if_neg (by omega)] at hnum
  have hk136 := h.sizeOk.chunks_le
  have hind : w.indirectIndex = w.index - 8 := hw.laid.indirectIndex
  have hkept8 : Kept ino 8 := ⟨le_rfl, hold, by omega⟩
  have h8lt := (h.region 8 hkept8.lt).2
  rw [ptrOf_direct le_rfl] at h8lt
  have hblock : w.ino.block 8 = ino.block 8 := by rw [hw.laid.record, block_inoAt_kept hkept8]
  have hrow := h.row_indirect hkept8 (by omega) hk.le hw.laid.placed
  have hindirect : ¬ w.numBytesAlreadyWritten < 8 * blockSize := by
    rw [hnum]
    simp only [blockSize]
    omega
  have hgrow : (s : Int) ≥ ino.size.toNat := by omega
  have hbig : ¬ (ino.size.toNat : Int) ≤ 8 * blockSize := by
    simp only [blockSize]
    omega
  have hold' : ¬ w.numBytesAlreadyWritten ≥ (ino.size.toNat : Int) := by
    rw [hnum]
    omega
  simp only [writeStep, if_neg hindirect, writeIndirect, if_pos hgrow, if_neg hbig, if_neg hold',
    writeReused, readBlock, wp_bind, wp_freshBlock, hblock, wp_readDisk _ _ _ _ h8lt, hrow,
    forall_const, hind]
  have h128 : w.index - 8 < 128 := by omega
  refine Writable.wp_chunkBuffer hrem fun b _ => ?_
  simp only [wp_entry _ _ _ _ h128, pure_eq, wp_ret]
  -- the store, wherever it goes
  refine fun _ => ?_
  simp only [wp_storeEntry _ _ _ _ _ h128, true_and, and_true, hrem]
  refine (wp_ret _ _ _).mpr ?_
  simp only [blockSize]
  omega

end Round

/-! ## The whole call -/

/-- The variables at the end of the loop: entry `j` of the new indirect block is `E j`. -/
structure Ended (ino : Inode) (s : Nat) (E : Nat → UInt32) (w : WriteState) : Prop where
  block : w.ino.block 8 = ino.block 8
  need : w.needToOverwriteIndirect = true
  entries : ∀ j < chunks s - 8, w.finalIndirectBlock.word j = E j

section Loop
variable {d : Disk} {ino : Inode} {s : Nat} {buf : Mem}

-- The loop from its first round on.
theorem gathers_writeLoop (h : WellHeld d ino) (hold : 8 < chunks ino.size.toNat)
    {Q : WriteState → Disk → Set Nat → Prop}
    (hloop : ∀ final f, WriteInv d ino buf s (writeStart ino s final) f →
      Gathers Takes (whileLoop (fun w => decide (w.remainingBytesToWrite > 0))
        (writeStep buf s ino.size.toNat) s (writeStart ino s final)) f Q) :
    Gathers Takes (writeLoop ino buf s) d Q := by
  have hdirect : ∀ k < 8, (ino.block k).toNat < 32768 := fun k hk => by
    have hreg := h.region k (by rw [pointers_eq_of_lt hold]; omega)
    rw [ptrOf_direct (by omega)] at hreg
    exact hreg.2
  have hfree : Untaking (forLoop (fun x => freeBlock (ino.block x)) 0 8) :=
    (Follows.forLoop (I := fun _ => True) (fun x _ _ => untaking_freeBlock (ino.block x)) 0 8 trivial)
  rw [writeLoop, h.asInt_size]
  refine .seq (hfree.barren d) (wp_freeDirect hdirect fun f hu hf => ?_)
  refine .seq (untaking_freshBlock.barren f) ((wp_freshBlock _ _).mpr fun final => ?_)
  exact hloop final f (Writable.writeInv_zero hu hf final)

-- The loop when the counter is right in every round.
theorem gathers_plannedLoop (h : Writable d ino s) (hold : 8 < chunks ino.size.toNat)
    (hs : ino.size.toNat + 512 ≤ s) {final : Block} {f : Disk}
    (hw : WriteInv d ino buf s (writeStart ino s final) f) :
    Gathers Takes (whileLoop (fun w => decide (w.remainingBytesToWrite > 0))
      (writeStep buf s ino.size.toNat) s (writeStart ino s final)) f fun w _ T =>
        Ended ino s (fun j => UInt32.ofNat (d.newPtr ino (9 + j))) w ∧
          T = takenFor d ino (chunks s) := by
  have hkept8 : Kept ino 8 := ⟨le_rfl, hold, by omega⟩
  -- invariant: the plan has been kept to, and what it has allocated is what was taken
  refine .whileLoop (I := fun w e T => WriteInv d ino buf s w e ∧ T = takenFor d ino w.index)
    (fun w => w.remainingBytesToWrite.toNat) (T := ∅) ⟨hw, takenFor_zero.symm⟩ ?_ ?_ ?_ ?_
  · exact le_rfl
  · intro w hpos
    rw [decide_eq_true_eq] at hpos
    omega
  · rintro w e T ⟨hinv, rfl⟩ hpos
    rw [decide_eq_true_eq] at hpos
    have hrem := hinv.remaining
    have hk : w.index < chunks s := lt_chunks_iff.mpr (by omega)
    have hnum := hinv.num hk
    refine (gathers_planned h hold (by omega) hinv hk fun h8 => ?_).mono fun w' e' T hw' => ?_
    · -- with 512 bytes more the counter has passed the old size where the old entries end
      rw [if_neg (by omega)] at hnum
      unfold Kept chunks at *
      omega
    · obtain ⟨⟨hinv', hindex⟩, hT⟩ := hw'
      refine ⟨⟨hinv', by rw [hT, hindex]⟩, ?_⟩
      rw [hinv'.remaining, hindex, hrem]
      have := lt_chunks_iff.mp hk
      omega
  · rintro w e T ⟨hinv, hT⟩ hdone
    rw [decide_eq_false_iff_not] at hdone
    have hrem := hinv.remaining
    have hend : w.index = chunks s := by
      have := hinv.index_le
      have := (chunks_le_iff (s := s) (n := w.index)).mpr (by omega)
      omega
    rw [Set.empty_union, hend] at hT
    have hl := hinv.laid
    rw [hend] at hl
    have hlt : 8 < chunks s := by
      have := lt_chunks_iff.mp hold
      exact lt_chunks_iff.mpr (by omega)
    refine ⟨⟨?_, ?_, hl.entries⟩, hT⟩
    · rw [hl.record, block_inoAt_kept hkept8]
    · rw [hl.need, decide_eq_true_eq]
      exact hlt

-- An entry of the old indirect block that the file holds is its pointer.
theorem word_of_kept {j : Nat} (hkept : Kept ino (9 + j)) :
    UInt32.ofNat (d.newPtr ino (9 + j)) = (d.row (ino.block 8).toNat).word j := by
  rw [newPtr_of_kept hkept, ptrOf_entry (by omega), UInt32.ofNat_toNat,
    show 9 + j - 9 = j by omega]

-- The round of the stray entry ends the loop, and takes no block.
theorem gathers_strayRound (h : Writable d ino s) (hold : 8 < chunks ino.size.toNat)
    (hs : s < ino.size.toNat + 512) (hw : WriteInv d ino buf s w e)
    (hindex : w.index = chunks ino.size.toNat) (hk : w.index < chunks s) :
    Gathers Takes (writeStep buf s ino.size.toNat w) e fun w' _ T =>
      w'.remainingBytesToWrite = 0 ∧
        Ended ino s (fun j => (d.row (ino.block 8).toNat).word j) w' ∧ T = ∅ := by
  have hkept8 : Kept ino 8 := ⟨le_rfl, hold, by omega⟩
  have hbytes := lt_chunks_iff.mp hk
  have hk136 := h.sizeOk.chunks_le
  have hsmall := chunks_le_iff.mp (le_of_eq hindex.symm)
  have hlast : chunks s = w.index + 1 := by
    unfold chunks at *
    omega
  have hnum := hw.num hk
  rw [if_neg (by omega)] at hnum
  refine ((gathers_round h hold (by omega) hw hk).and_wp
    (wp_strayRound h hold hs hw hindex hk)).mono fun w' e' T hw' => ?_
  obtain ⟨⟨hino, -, hdone, hneed, hfinal⟩, rfl⟩ := hw'
  refine ⟨hdone, ⟨?_, hneed, fun j hj => ?_⟩, ?_⟩
  · -- `blocks[8]` is not touched, and the last entry is copied from the old indirect block
    rw [hino, hw.laid.record, block_inoAt_kept hkept8]
  · rw [hfinal]
    by_cases hjlast : j = w.index - 8
    · rw [hjlast, Block.word_setWord_self _ _ _ (by omega)]
    · rw [Block.word_setWord_ne _ _ _ _ (by omega) hjlast, hw.laid.entries j (by omega)]
      exact word_of_kept ⟨by omega, hold, by omega⟩
  · rw [roundTakes, if_neg (by simp only [blockSize]; omega), if_neg (by omega)]

-- The loop when its last round takes an entry that was never set.
theorem gathers_strayLoop (h : Writable d ino s) (hold : 8 < chunks ino.size.toNat)
    (hs : s < ino.size.toNat + 512) (hlt : chunks ino.size.toNat < chunks s) {final : Block}
    {f : Disk} (hw : WriteInv d ino buf s (writeStart ino s final) f) :
    Gathers Takes (whileLoop (fun w => decide (w.remainingBytesToWrite > 0))
      (writeStep buf s ino.size.toNat) s (writeStart ino s final)) f fun w _ T =>
        Ended ino s (fun j => (d.row (ino.block 8).toNat).word j) w ∧
          T = takenFor d ino (chunks ino.size.toNat) := by
  have hbytes := lt_chunks_iff.mp hlt
  have hgrow : ino.size.toNat ≤ s := by
    have := chunks_le_iff.mp (le_refl (chunks ino.size.toNat))
    omega
  -- invariant: the plan has been kept to so far, or the round of the stray entry has ended the loop
  refine .whileLoop (I := fun w e T =>
      (WriteInv d ino buf s w e ∧ w.index ≤ chunks ino.size.toNat ∧ T = takenFor d ino w.index) ∨
      (w.remainingBytesToWrite = 0 ∧ Ended ino s (fun j => (d.row (ino.block 8).toNat).word j) w ∧
        T = takenFor d ino (chunks ino.size.toNat)))
    (fun w => w.remainingBytesToWrite.toNat) (T := ∅) (.inl ⟨hw, Nat.zero_le _, takenFor_zero.symm⟩)
    ?_ ?_ ?_ ?_
  · exact le_rfl
  · intro w hpos
    rw [decide_eq_true_eq] at hpos
    omega
  · rintro w e T hI hpos
    rw [decide_eq_true_eq] at hpos
    rcases hI with ⟨hinv, hle, rfl⟩ | ⟨hzero, -⟩
    · have hrem := hinv.remaining
      have hk : w.index < chunks s := lt_chunks_iff.mpr (by omega)
      have hnum := hinv.num hk
      rcases Nat.lt_or_eq_of_le hle with hindex | hindex
      · -- a chunk that the old file has too
        refine (gathers_planned h hold hgrow hinv hk fun h8 => ?_).mono fun w' e' T hw' => ?_
        · have hkept : Kept ino (w.index + 1) := ⟨by omega, hold, by omega⟩
          have hmore := lt_chunks_iff.mp hindex
          rw [if_neg (by omega)] at hnum
          exact iff_of_true (by omega) hkept
        · obtain ⟨⟨hinv', hnext⟩, hT⟩ := hw'
          refine ⟨.inl ⟨hinv', by omega, by rw [hT, hnext]⟩, ?_⟩
          rw [hinv'.remaining, hnext, hrem]
          have := lt_chunks_iff.mp hk
          omega
      · refine (gathers_strayRound h hold hs hinv hindex hk).mono fun w' e' T hw' => ?_
        obtain ⟨hdone, hended, rfl⟩ := hw'
        exact ⟨.inr ⟨hdone, hended, by rw [Set.union_empty, hindex]⟩, by omega⟩
    · omega
  · rintro w e T (⟨hinv, hle, -⟩ | ⟨-, hended⟩) hdone
    · rw [decide_eq_false_iff_not] at hdone
      have hrem := hinv.remaining
      have hmore := lt_chunks_iff.mp (show w.index < chunks s by omega)
      omega
    · rwa [Set.empty_union] at hended

end Loop

/-- Entry `j` of the indirect block of inode `i`. -/
def Disk.indirectEntry (d : Disk) (i j : Nat) : UInt32 :=
  (d.row ((d.inode i).block 8).toNat).word j

section Call
variable {d : Disk} {inum : UInt32} {s : Nat} {buf : Mem}

-- What `write_file` does when its loop has ended.
theorem gathers_writeFile (h : WellHeld d (d.inode inum.toNat)) (hin : d.InUse inum.toNat)
    (hold : 8 < chunks (d.size inum.toNat)) (hs : s ≤ 69632) (hgrow : d.size inum.toNat ≤ s)
    {E : Nat → UInt32} {T₀ : Set Nat}
    (hloop : Gathers Takes (writeLoop (d.inode inum.toNat) buf s) d fun w _ T =>
      Ended (d.inode inum.toNat) s E w ∧ T = T₀) :
    Gathers Takes (writeFile inum buf s) d fun _ f T =>
      (∀ j < chunks s - 8, f.indirectEntry inum.toNat j = E j) ∧ T = T₀ := by
  have hptr : 8 < pointers (d.size inum.toNat) := by
    rw [pointers_eq_of_lt hold]
    omega
  have h8 := h.region 8 hptr
  rw [ptrOf_direct le_rfl] at h8
  have hsize : 4096 < s := by
    have := lt_chunks_iff.mp hold
    omega
  -- the checks pass, and the inode is there
  rw [writeFile]
  refine .seq ((untaking_writerEnter inum).barren d) ((wp_writerEnter _ _ _).mpr ?_)
  rw [if_neg (not_refused (size_bounds hs))]
  refine .seq ((untaking_getInode inum).barren d) ((wp_getInode _ _ _).mpr ?_)
  rw [lookup_eq_some hin]
  simp only [writeBlocks_eq, Prog.bind_assoc]
  refine .bind (hloop.mono fun w e T hw => ?_)
  obtain ⟨⟨hblock, hneed, hentries⟩, rfl⟩ := hw
  -- the file has not become shorter, and is still indirect: only the entries are stored
  have hshrink : ¬ Shrinks (d.inode inum.toNat) s w := by
    rw [Shrinks, Bool.and_eq_true, decide_eq_true_eq, h.asInt_size]
    unfold Disk.size at hgrow
    omega
  have hindirect : ¬ (s : Int) ≤ 8 * blockSize := by
    simp only [blockSize]
    omega
  simp only [writeEnd, if_neg hshrink, if_pos hneed, if_neg hindirect, Prog.bind_assoc, pure_eq,
    ret_bind, hblock]
  refine .seq ((untaking_writeDisk (by decide) _ _).barren e)
    ((wp_writeDisk _ _ _ _ _ h8.2).mpr ?_)
  -- nor does the store of the inode touch them
  have hend : Untaking (putInode inum (w.ino.setSize (UInt32.ofNat s)) >>= fun _ =>
      (Rwlock.writerExit inum : FsM Unit)) :=
    (untaking_putInode _ _).bind fun _ => untaking_writerExit inum
  refine .of_barren (hend.barren _) ?_
  simp only [wp_bind, wp_putInode _ _ _ _ hin.1, wp_writerExit]
  refine ⟨fun j hj => ?_, Set.union_empty _⟩
  have hblock' : (w.ino.setSize (UInt32.ofNat s)).block 8 = (d.inode inum.toNat).block 8 := hblock
  rw [indirectEntry, inode_setInode_self _ _ hin.1, hblock', row_setInode_data _ _ hin.1 h8.1,
    row_setRow_self _ _ _ h8.2]
  exact hentries j hj

/-- The file has grown as it should, where `E j` is entry `j` of the new indirect block and `T` are the
blocks that `alloc_block` has handed out: the entries of the old file are there, the others are from
`T`, and no two are the same. -/
structure Extended (d : Disk) (i s : Nat) (E : Nat → UInt32) (T : Set Nat) : Prop where
  kept : ∀ k, 8 ≤ k → k < chunks (d.size i) → E (k - 8) = d.indirectEntry i (k - 8)
  new : ∀ k, chunks (d.size i) ≤ k → k < chunks s → (E (k - 8)).toNat ∈ T
  distinct : ∀ k l, 8 ≤ k → k < chunks s → 8 ≤ l → l < chunks s → E (k - 8) = E (l - 8) → k = l

/-- Whatever uninitialised memory holds, the write returns and has extended the file. -/
def GrowsExactly (d : Disk) (inum : UInt32) (buf : Mem) (s : Nat) : Prop :=
  ∀ j, ∃ u j' e, (writeFile inum buf s).run j d = some (u, j', e) ∧
    Extended d inum.toNat s (e.indirectEntry inum.toNat) (takenIn (trace (writeFile inum buf s) j d))

theorem exists_run_writeFile (hin : d.InUse inum.toNat) (hs : s ≤ 69632) (j : Junk) :
    ∃ u j' e, (writeFile inum buf s).run j d = some (u, j', e) := by
  have hwp : wp (writeFile inum buf s) (fun _ _ => True) d :=
    (wp_writeFile_accepted hin (size_bounds hs)).mpr
      (wp_mono (wp_writeBlocks_size _ _ _ d) fun _ _ _ => trivial)
  obtain ⟨u, j', e, hrun, -⟩ := wp_run hwp j
  exact ⟨u, j', e, hrun⟩

/-- What the file system is like before the file grows. -/
structure CanGrow (d : Disk) (i s : Nat) : Prop where
  inUse : d.InUse i
  held : WellHeld d (d.inode i)
  indirect : 8 < chunks (d.size i)
  more : chunks (d.size i) < chunks s
  size_le : s ≤ blockSize * maxFile
  fits : chunks s - chunks (d.size i) ≤ (freeIn d.used).card

theorem CanGrow.writable {i : Nat} (h : CanGrow d i s) : Writable d (d.inode i) s := by
  have hs := h.size_le
  have hold : 8 < chunks (d.inode i).size.toNat := h.indirect
  have hmore : chunks (d.inode i).size.toNat < chunks s := h.more
  have hfits : chunks s - chunks (d.inode i).size.toNat ≤ (freeIn d.used).card := h.fits
  have hbytes := lt_chunks_iff.mp hmore
  refine ⟨⟨hs, by omega⟩, h.held.region, h.held.used, h.held.distinct, ?_⟩
  have hptr : 8 ≤ pointers (d.inode i).size.toNat := by
    rw [pointers_eq_of_lt hold]
    exact Nat.le_succ_of_le hold.le
  refine le_trans ?_ (h.held.card_available hptr)
  rw [pointers_eq_of_lt (by omega), allocsBefore_of_lt (by omega) hold]
  omega

-- The blocks of the direct chunks are allocated afresh.
theorem CanGrow.fresh_mem {i m : Nat} (h : CanGrow d i s) (hm : m < 8) :
    (123 ≤ d.fresh (d.inode i) m ∧ d.fresh (d.inode i) m < 32768) ∧
      d.fresh (d.inode i) m ∉ d.released (d.inode i) := by
  have hold : 8 < chunks (d.inode i).size.toNat := h.indirect
  have hcard := h.held.card_available (by rw [pointers_eq_of_lt hold]; omega)
  exact Disk.fresh_mem (by omega)

theorem Extended.congr {i : Nat} {E E' : Nat → UInt32} {T : Set Nat}
    (hmore : chunks (d.size i) < chunks s) (hE : ∀ j < chunks s - 8, E j = E' j)
    (h : Extended d i s E T) (hold : 8 < chunks (d.size i)) : Extended d i s E' T := by
  constructor
  · intro k h8 hk
    rw [← hE _ (by omega), h.kept k h8 hk]
  · intro k hle hk
    rw [← hE _ (by omega)]
    exact h.new k hle hk
  · intro k l h8 hk h8' hl he
    rw [← hE _ (by omega), ← hE _ (by omega)] at he
    exact h.distinct k l h8 hk h8' hl he

-- What the call does is what its loop does.
theorem growsExactly_iff_of_loop (h : CanGrow d inum.toNat s) {E : Nat → UInt32} {T : Set Nat}
    (hloop : ∀ final f, WriteInv d (d.inode inum.toNat) buf s
        (writeStart (d.inode inum.toNat) s final) f →
      Gathers Takes (whileLoop (fun w => decide (w.remainingBytesToWrite > 0))
        (writeStep buf s (d.size inum.toNat)) s (writeStart (d.inode inum.toNat) s final)) f
        fun w _ T' => Ended (d.inode inum.toNat) s E w ∧ T' = T) :
    GrowsExactly d inum buf s ↔ Extended d inum.toNat s E T := by
  have hs : s ≤ 69632 := by
    simpa only [blockSize, maxFile, nDirect, nIndirect] using h.size_le
  have hgrow : d.size inum.toNat ≤ s := by
    have := chunks_le_iff.mp (le_refl (chunks (d.size inum.toNat)))
    have := lt_chunks_iff.mp h.more
    omega
  have hcall := gathers_writeFile h.held h.inUse h.indirect hs hgrow
    (gathers_writeLoop h.held h.indirect hloop)
  constructor
  · intro hexact
    obtain ⟨u, j', e, hrun, hext⟩ := hexact fun _ _ => 0
    obtain ⟨hE, hT⟩ := hcall _ _ _ _ hrun
    rw [← hT]
    exact hext.congr h.more hE h.indirect
  · intro hext j
    obtain ⟨u, j', e, hrun⟩ := exists_run_writeFile h.inUse hs j
    obtain ⟨hE, hT⟩ := hcall _ _ _ _ hrun
    refine ⟨u, j', e, hrun, ?_⟩
    rw [takenIn, hT]
    exact hext.congr h.more (fun j hj => (hE j hj).symm) h.indirect

/-- The counter is right in every round when the file grows by a whole chunk. -/
theorem growsExactly_of_planned (h : CanGrow d inum.toNat s) (hbig : d.size inum.toNat + 512 ≤ s) :
    GrowsExactly d inum buf s := by
  have hw := h.writable
  have hold : 8 < chunks (d.inode inum.toNat).size.toNat := h.indirect
  have hptr : pointers s = chunks s + 1 := pointers_eq_of_lt (hold.trans h.more)
  refine (growsExactly_iff_of_loop h fun final f hinv =>
    gathers_plannedLoop hw hold hbig hinv).mpr ⟨?_, ?_, ?_⟩
  · intro k h8 hk
    exact word_of_kept ⟨by omega, hold, by change _ ≤ chunks (d.size inum.toNat); omega⟩
  · -- the chunks past the old file take the allocations after the first eight
    intro k hle hk
    have hle' : chunks (d.inode inum.toNat).size.toNat ≤ k := hle
    have hkept : ¬ Kept (d.inode inum.toNat) (9 + (k - 8)) := fun hc => by
      have := hc.2.2
      omega
    have hreg := hw.newPtr_region (p := 9 + (k - 8)) (by omega)
    rw [toNat_ofNat (by omega), newPtr_of_not_kept hkept]
    refine ⟨_, ?_, rfl⟩
    rw [Set.mem_Iio, ptrCount_of_lt (by omega), allocsBefore_of_lt (by omega) hold,
      allocsBefore_of_lt (by omega) hold]
    omega
  · -- the plan uses no block twice
    intro k l h8 hk h8' hl he
    have hreg := hw.newPtr_region (p := 9 + (k - 8)) (by omega)
    have hreg' := hw.newPtr_region (p := 9 + (l - 8)) (by omega)
    have heq := congrArg UInt32.toNat he
    rw [toNat_ofNat (by omega), toNat_ofNat (by omega)] at heq
    have := hw.newPtr_inj (by omega) (by omega) heq
    omega

/-- The stray entry is right only by chance. -/
theorem growsExactly_iff_of_stray (h : CanGrow d inum.toNat s)
    (hsmall : s < d.size inum.toNat + 512) :
    GrowsExactly d inum buf s ↔
      ∃ m < 8, (d.indirectEntry inum.toNat (chunks (d.size inum.toNat) - 8)).toNat =
        d.fresh (d.inode inum.toNat) m := by
  have hw := h.writable
  have hold : 8 < chunks (d.inode inum.toNat).size.toNat := h.indirect
  have hmore : chunks (d.inode inum.toNat).size.toNat < chunks s := h.more
  have hone : chunks s = chunks (d.size inum.toNat) + 1 := by
    have := lt_chunks_iff.mp h.more
    unfold chunks at *
    omega
  have htaken : takenFor d (d.inode inum.toNat) (chunks (d.inode inum.toNat).size.toNat) =
      d.fresh (d.inode inum.toNat) '' Set.Iio 8 := by
    rw [takenFor, ptrCount_of_lt hold, allocsBefore_of_lt (by omega) hold, Nat.sub_self]
  rw [growsExactly_iff_of_loop h fun final f hinv =>
    gathers_strayLoop hw hold hsmall hmore hinv, htaken]
  constructor
  · -- the entry must be one of the eight that the direct chunks have taken
    intro hext
    obtain ⟨m, hm, he⟩ := hext.new (chunks (d.size inum.toNat)) le_rfl (by omega)
    exact ⟨m, hm, he.symm⟩
  · rintro ⟨m, hm, he⟩
    refine ⟨fun k _ _ => rfl, fun k hle hk => ?_, ?_⟩
    · obtain rfl : k = chunks (d.size inum.toNat) := by omega
      exact ⟨m, hm, he.symm⟩
    · -- an entry of the file is its pointer, and the blocks handed out are none of its blocks
      have hentry : ∀ k, 8 ≤ k → (d.indirectEntry inum.toNat (k - 8)).toNat =
          d.ptrOf (d.inode inum.toNat) (k + 1) := fun k h8 => by
        rw [ptrOf_entry (by omega), show k + 1 - 9 = k - 8 by omega]
        rfl
      have hkept : ∀ k, 8 ≤ k → k < chunks (d.size inum.toNat) →
          Kept (d.inode inum.toNat) (k + 1) := fun k h8 hk => ⟨by omega, hold, hk⟩
      have hfresh := (h.fresh_mem hm).2
      have hne : ∀ k, 8 ≤ k → k < chunks (d.size inum.toNat) → d.indirectEntry inum.toNat (k - 8) ≠
          d.indirectEntry inum.toNat (chunks (d.size inum.toNat) - 8) := fun k h8 hk heq => by
        have hmem := hw.kept_mem_released (hkept k h8 hk)
        rw [← hentry k h8, heq, he] at hmem
        exact hfresh hmem
      intro k l h8 hk h8' hl heq
      rcases Nat.lt_or_ge k (chunks (d.size inum.toNat)) with hk' | hk' <;>
        rcases Nat.lt_or_ge l (chunks (d.size inum.toNat)) with hl' | hl'
      · have hsame : d.ptrOf (d.inode inum.toNat) (k + 1) = d.ptrOf (d.inode inum.toNat) (l + 1) := by
          rw [← hentry k h8, ← hentry l h8']
          exact congrArg UInt32.toNat heq
        have := h.held.distinct _ (hkept k h8 hk').lt _ (hkept l h8' hl').lt hsame
        omega
      · obtain rfl : l = chunks (d.size inum.toNat) := by omega
        exact absurd heq (hne k h8 hk')
      · obtain rfl : k = chunks (d.size inum.toNat) := by omega
        exact absurd heq.symm (hne l h8' hl')
      · omega

/-- A write that makes an indirect file longer extends it if and only if it adds a whole chunk of
bytes, or the entry past the last one of the file happens to name a block that the call allocates. -/
theorem growsExactly_iff (h : CanGrow d inum.toNat s) :
    GrowsExactly d inum buf s ↔ d.size inum.toNat + 512 ≤ s ∨
      ∃ m < 8, (d.indirectEntry inum.toNat (chunks (d.size inum.toNat) - 8)).toNat =
        d.fresh (d.inode inum.toNat) m := by
  rcases Nat.lt_or_ge s (d.size inum.toNat + 512) with hsmall | hbig
  · rw [growsExactly_iff_of_stray h hsmall]
    exact (or_iff_right (by omega)).symm
  · exact iff_of_true (growsExactly_of_planned h hbig) (.inl hbig)

end Call

/-! ## A file with a partial last chunk -/

/-- No other inode holds a block of inode `i`. -/
def HeldAlone (d : Disk) (i : Nat) : Prop :=
  ∀ j ≠ i, ∀ p < pointers (d.size i), ¬ d.Holds j (d.ptr i p)

-- The root of a new file system after a put of 4700 bytes: ten chunks, and no third entry.
theorem exists_tenChunks : ∃ d, Reachable d ∧ HeldAlone d 0 ∧ d.size 0 = 4700 ∧
    d.indirectEntry 0 2 = 0 ∧ ∀ s ≤ blockSize * maxFile, chunks s = 11 → CanGrow d 0 s := by
  have hfresh := fresh_madeAt 0
  have hlen : (List.replicate 4700 (1 : UInt8)).length = 4700 := List.length_replicate
  have hsafe : SafeStep (madeAt 0) (.put 0 (List.replicate 4700 1)) :=
    hfresh.safeStep_put (by rw [hlen]; exact ⟨by decide, by omega⟩)
  obtain ⟨r, j, e, hrun, hserved⟩ := serve_run hfresh.sound hsafe zeros
  -- block 200 stands for the free blocks, which need not be counted
  have heval : ((serve (.put 0 (List.replicate 4700 1))).run zeros (madeAt 0)).any (fun r =>
      decide (r.2.2.InUse 0 ∧ r.2.2.size 0 = 4700 ∧ r.2.2.indirectEntry 0 2 = 0 ∧
        r.2.2.bit 200 = false)) = true := by decide +kernel
  rw [hrun, Option.any_some, decide_eq_true_eq] at heval
  obtain ⟨hin, hsize, hentry, hbit⟩ := heval
  have hsound := hserved.sound hfresh.sound hsafe
  have hold : chunks (e.size 0) = 10 := by rw [hsize]; rfl
  have hfree : 200 ∈ freeIn e.used := mem_freeIn.mpr ⟨by omega, fun h => by
    rw [(mem_used.mp h).2] at hbit
    cases hbit⟩
  have hall : serveAll [(.put 0 (List.replicate 4700 1), zeros)] (madeAt 0) = some ([r], e) := by
    simp only [serveAll, hrun]
    rfl
  refine ⟨e, ⟨madeAt 0, _, [r], hfresh, hall⟩, ?_, hsize, hentry, fun s hs hchunks => ?_⟩
  · rintro j hj p hp ⟨hjin, q, hq, he⟩
    exact hj (hsound.owner j 0 hjin hin q hq p hp he).1
  · refine ⟨hin, hsound.wellHeld hin, by omega, by omega, hs, ?_⟩
    rw [hold, hchunks]
    exact Finset.card_pos.mpr ⟨200, hfree⟩

theorem growsExactly_iff_full : ∃ d, CanGrow d (0 : UInt32).toNat 5632 ∧ d.size 0 = 4700 ∧
    GrowsExactly d 0 (fun _ => 0) 5632 := by
  obtain ⟨d, -, -, hsize, -, hgrow⟩ := exists_tenChunks
  have hcan : CanGrow d (0 : UInt32).toNat 5632 := hgrow 5632 (by decide) rfl
  have hbig : d.size (0 : UInt32).toNat + 512 ≤ 5632 := by
    rw [show (0 : UInt32).toNat = 0 from rfl, hsize]
    omega
  exact ⟨d, hcan, hsize, (growsExactly_iff hcan).mpr (.inl hbig)⟩

/-- Growing to 5121 bytes, the write takes the third entry, which is 0, for one of the file's. -/
theorem not_growsExactly_partial : ¬ ∀ d inum buf s, Reachable d → HeldAlone d inum.toNat →
    CanGrow d inum.toNat s → GrowsExactly d inum buf s := by
  intro h
  obtain ⟨d, hd, halone, hsize, hentry, hgrow⟩ := exists_tenChunks
  have hcan : CanGrow d (0 : UInt32).toNat 5121 := hgrow 5121 (by decide) rfl
  have hsmall : 5121 < d.size (0 : UInt32).toNat + 512 := by
    rw [show (0 : UInt32).toNat = 0 from rfl, hsize]
    omega
  obtain ⟨m, hm, he⟩ := (growsExactly_iff_of_stray hcan hsmall).mp
    (h d 0 (fun _ => 0) 5121 hd halone hcan)
  have hchunks : chunks (d.size (0 : UInt32).toNat) - 8 = 2 := by
    rw [show (0 : UInt32).toNat = 0 from rfl, hsize]
    rfl
  -- entry 2 is 0, and block 0 is no data block
  have hreg := (hcan.fresh_mem hm).1.1
  rw [← he, hchunks, show (0 : UInt32).toNat = 0 from rfl, hentry] at hreg
  exact absurd hreg (by decide)

end InodeFs
