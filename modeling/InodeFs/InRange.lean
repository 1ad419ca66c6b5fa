import InodeFs.Prog.Trace
import InodeFs.Rounds
import InodeFs.Runs

/-!
# The indices into `rwlocks` and into `disk::blocks`

`read_file` and `write_file` lock `rwlocks[inum]` before anything has looked at `inum`, and
`read_block` and `write_block` let `id == BLOCK_NUM` through.  On the disks of safe runs every id that
comes from an inode or from an indirect block is the id of a data block, so only the lock is left.
-/

namespace InodeFs

open BlockLayer InodeLayer FsServer Prog Disk

/-! ## Accesses in range -/

/-- Past the guard of `read_block` and `write_block`, `blocks[id]` is a row of the array. -/
def RowInRange (id : UInt32) : Prop := ¬ id.toNat > blockNum → id.toNat < blockNum

def Mutex.InRange : Mutex → Prop
  | .rwlock inum => inum.toNat < inodeNum
  | .bitmap => True

/-- The arrays are used within their bounds. -/
def OpInRange : Op FsSig → Prop
  | .act (.read id _) => RowInRange id
  | .act (.write _ id _) => RowInRange id
  | .act .uninit => True
  | .act (.stray _ _) => True
  | .sync (.lock m) => m.InRange
  | .sync (.unlock m) => m.InRange
  -- assignments to the counters of a lock
  | .sync (.update f) => ∀ inum : UInt32, inodeNum ≤ inum.toNat → ∀ vars, f vars inum = vars inum
  | .sync (.waitWhile m _ _) => m.InRange
  | .sync (.wake _) => True

/-- Whatever uninitialised memory holds, serving the request on disk `d` stays in range. -/
def InRange (d : Disk) (q : Request) : Prop := Within OpInRange (serve q) d

/-! ## What is in range on every disk -/

/-- `p` stays in range whatever it reads, and its answer is in `Q`. -/
abbrev Ranged {α : Type} (p : FsM α) (Q : α → Prop) : Prop :=
  Follows (allows OpInRange) p (fun a _ => Q a) ()

theorem rowInRange_of_lt {id : UInt32} (h : id.toNat < 32768) : RowInRange id := fun _ => h

theorem ranged_freshBlock : Ranged freshBlock fun _ => True := ⟨trivial, fun _ => trivial⟩

theorem ranged_readDisk {id : UInt32} (h : RowInRange id) (b : Block) :
    Ranged (readDisk id b) fun _ => True := ⟨h, fun _ => trivial⟩

theorem ranged_writeDisk {id : UInt32} (h : RowInRange id) (who : Caller) (b : Block) :
    Ranged (writeDisk who id b) fun _ => True := ⟨h, fun _ => trivial⟩

theorem rowInRange_iblock {i : Nat} (hi : i < 1024) :
    RowInRange (UInt32.ofNat (iblock i sb.nblocks)) := by
  have hbounds := tableBlock_bounds hi
  exact rowInRange_of_lt (by rw [toNat_iblock hi]; omega)

theorem rowInRange_bblock {id : Nat} (hid : id < 32768) :
    RowInRange (UInt32.ofNat (bblock id)) := by
  have hbounds := bblock_lt hid
  exact rowInRange_of_lt (by rw [toNat_bblock hid]; omega)

theorem ranged_getInode (inum : UInt32) : Ranged (getInode inum) fun _ => True := by
  unfold getInode
  split
  · trivial
  · rename_i hi
    refine Follows.bind (ranged_freshBlock.mono fun _ _ _ => ?_)
    refine Follows.bind ((ranged_readDisk (rowInRange_iblock (Nat.not_le.mp hi)) _).mono
      fun b _ _ => ?_)
    simp only
    split <;> trivial

theorem ranged_putInode (inum : UInt32) (ino : Inode) : Ranged (putInode inum ino) fun _ => True := by
  unfold putInode
  split
  · trivial
  · rename_i hi
    have hrow := rowInRange_iblock (Nat.not_le.mp hi)
    refine Follows.bind (ranged_freshBlock.mono fun _ _ _ => ?_)
    exact Follows.bind ((ranged_readDisk hrow _).mono fun b _ _ => ranged_writeDisk hrow _ _)

theorem ranged_freeBlock {id : UInt32} (hid : id.toNat < 32768) :
    Ranged (freeBlock id) fun _ => True :=
  ⟨trivial, trivial, fun _ => ⟨rowInRange_bblock hid, fun _ => ⟨rowInRange_bblock hid, fun _ =>
    ⟨trivial, trivial⟩⟩⟩⟩

-- `alloc_block` returns the id of a block or `-1`, which the guards keep out.
theorem ranged_allocBlock : Ranged allocBlock RowInRange := by
  have hscan : ∀ n id, id + n = 32768 → Ranged (allocScan n id) RowInRange := by
    intro n
    induction n with
    | zero => exact fun id _ => ⟨trivial, fun h => absurd (by decide) h⟩
    | succ n ih =>
      intro id hid
      have hrow := rowInRange_bblock (show id < 32768 by omega)
      refine ⟨trivial, fun _ => ⟨hrow, fun b => ?_⟩⟩
      change Follows (allows OpInRange) (if _ then _ else _) _ ()
      split
      · exact ih (id + 1) (by omega)
      · refine ⟨hrow, fun _ => ⟨trivial, rowInRange_of_lt ?_⟩⟩
        rw [toNat_ofNat (by omega)]
        omega
  exact ⟨trivial, hscan _ _ rfl⟩

theorem ranged_chunkBuffer (buf : Mem) (w : WriteState) :
    Ranged (chunkBuffer buf w) fun _ => True := ⟨trivial, fun _ => trivial⟩

theorem ranged_newBlock (buf : Mem) (w : WriteState) :
    Ranged (newBlock buf w) fun x => RowInRange x.1 :=
  Follows.bind ((ranged_chunkBuffer buf w).mono fun _ _ _ =>
    Follows.bind (ranged_allocBlock.mono fun _ _ hid => hid))

theorem ranged_storeChunk (next : UInt32 → WriteState) {x : UInt32 × Block} (h : RowInRange x.1) :
    Ranged (storeChunk next x) fun _ => True :=
  Follows.bind ((ranged_writeDisk h _ _).mono fun _ _ _ => trivial)

theorem ranged_newChunk (buf : Mem) (w : WriteState) (next : UInt32 → WriteState) :
    Ranged (newBlock buf w >>= storeChunk next) fun _ => True :=
  Follows.bind ((ranged_newBlock buf w).mono fun _ _ hx => ranged_storeChunk next hx)

theorem ranged_allocIndirect (w : WriteState) : Ranged (allocIndirect w) fun _ => True := by
  unfold allocIndirect
  split
  · exact Follows.bind (ranged_allocBlock.mono fun _ _ _ => trivial)
  · trivial

/-! ## Reading -/

section Read
variable {d : Disk} {ino : Inode} {s : Nat}

-- The pointers of the file are what the loop of `read_file` follows.
theorem within_readStep {r : ReadState} {e : Disk} {b : Block} (hs : s ≤ 69632)
    (hregion : ∀ p < pointers s, d.ptrOf ino p < 32768)
    (hb : 8 < chunks s → b = d.row (ino.block 8).toNat) (hr : ReadInv d ino s r e)
    (hpos : r.remainingBytesToBeRead > 0) : Within OpInRange (readStep ino b r) e := by
  have hrem := hr.remaining
  have hnum := hr.num
  have hlt : 512 * r.index < s := by omega
  have hptr := hregion _ (chunkPtr_lt (lt_chunks_iff.mpr hlt))
  refine Within.of_follows (Q := fun _ _ => True) (x := ()) ?_ e
  simp only [readStep, pure_eq]
  by_cases hdir : r.numBytesAlreadyRead < 8 * blockSize
  · -- the id of a direct slot
    have h8 : r.index < 8 := by simp only [blockSize] at hdir; omega
    rw [chunkPtr, if_pos h8, ptrOf_direct (by omega)] at hptr
    rw [if_pos hdir]
    refine Follows.bind (ranged_freshBlock.mono fun _ _ _ => ?_)
    simp only [loadSlot, if_pos (show r.index < 9 by omega), pure_eq, ret_bind]
    exact Follows.bind ((ranged_readDisk (rowInRange_of_lt hptr) _).mono fun _ _ _ => trivial)
  · -- an entry of the indirect block
    have h8 : 8 ≤ r.index := by simp only [blockSize] at hdir; omega
    have hindex : r.indirectIndex = r.index - 8 := hr.indirectIndex
    rw [chunkPtr, if_neg (by omega), ptrOf_entry (by omega),
      ← hb (lt_chunks_iff.mpr (by omega)), show r.index + 1 - 9 = r.indirectIndex by omega] at hptr
    rw [if_neg hdir]
    refine Follows.bind (ranged_freshBlock.mono fun _ _ _ => ?_)
    simp only [entry, if_pos (show r.indirectIndex < 128 by omega), pure_eq, ret_bind]
    exact Follows.bind ((ranged_readDisk (rowInRange_of_lt hptr) _).mono fun _ _ _ => trivial)

theorem within_readLoop (b : Block) (m : Mem) (hs : s ≤ 69632)
    (hregion : ∀ p < pointers s, d.ptrOf ino p < 32768)
    (hb : 8 < chunks s → b = d.row (ino.block 8).toNat) :
    Within OpInRange (whileLoop (fun r => decide (r.remainingBytesToBeRead > 0)) (readStep ino b) s
      ⟨m, s, 0, 0, 0⟩) d := by
  refine Within.whileLoop (I := ReadInv d ino s) (fun r e hr hpos => ?_) s ?_
  · have hpos' := of_decide_eq_true hpos
    exact ⟨within_readStep hs hregion hb hr hpos',
      wp_mono (hr.step hs hregion hb hpos') fun _ _ h => h.1⟩
  · refine ⟨rfl, Nat.zero_le _, rfl, ?_, rfl, fun k _ hk => absurd hk (Nat.not_lt_zero k)⟩
    simp only
    omega

end Read

/-! ## Writing -/

section Write
variable {d : Disk} {ino : Inode} {s : Nat} {buf : Mem}

-- The entry of the old indirect block names a block of the plan.
theorem within_oldChunk {w : WriteState} {e : Disk} (h : Writable d ino s)
    (hw : WriteInv d ino buf s w e) (hk : w.index < chunks s) (h8 : 8 ≤ w.index)
    (hkept : Kept ino (w.index + 1)) (next : UInt32 → WriteState) :
    Within OpInRange (oldBlock buf w >>= storeChunk next) e := by
  obtain ⟨-, halready, hind, hrecord, hentries, hp⟩ := hw.laid
  obtain ⟨-, hblock, h8lt, hrow, hentry⟩ := h.reused_entry hk h8 hkept
    ⟨rfl, halready, hind, hrecord, hentries, hp⟩
  have hptr : w.index + 1 < pointers s := by
    have := chunkPtr_lt hk
    rwa [Writable.chunkPtr_of_le h8] at this
  have hrange : RowInRange (UInt32.ofNat (d.newPtr ino (w.index + 1))) := by
    have hid := (h.newPtr_region hptr).2
    exact rowInRange_of_lt (by rw [toNat_ofNat (by omega)]; exact hid)
  simp only [oldBlock, Prog.bind_assoc]
  refine (Within.of_follows ranged_freshBlock e).bind ((wp_freshBlock _ _).mpr fun b => ?_)
  rw [hblock]
  refine (Within.of_follows (ranged_readDisk (rowInRange_of_lt h8lt) _) e).bind ?_
  refine (wp_readDisk _ _ _ _ h8lt).mpr ?_
  refine (Within.of_follows (ranged_chunkBuffer buf w) e).seq fun chunk f => ?_
  rw [hrow, hentry]
  exact Within.of_follows (ranged_storeChunk next hrange) f

theorem within_writeStep {w : WriteState} {e : Disk} (h : WriteOk d ino s)
    (hw : WriteInv d ino buf s w e) (hpos : w.remainingBytesToWrite > 0) :
    Within OpInRange (writeStep buf s ino.size.toNat w) e := by
  have hrem := hw.remaining
  have hk : w.index < chunks s := lt_chunks_iff.mpr (by omega)
  have hdirect := hw.counted.direct_iff h.sizeOk hk
  have h128 : w.indirectIndex < 128 := by
    have hk136 := h.sizeOk.chunks_le
    rw [hw.laid.indirectIndex]
    omega
  rw [writeStep_eq buf (fun hdir => (hdirect.mp hdir).trans (by decide)) h128]
  split
  · exact Within.of_follows (ranged_newChunk buf w _) e
  · rename_i hdir
    have h8 : 8 ≤ w.index := Nat.not_lt.mp (mt hdirect.mpr hdir)
    split
    · exact (Within.of_follows (ranged_allocIndirect w) e).seq fun w' f =>
        Within.of_follows (ranged_newChunk buf w' _) f
    · rename_i hsmall
      split
      · exact Within.of_follows (ranged_newChunk buf w _) e
      · rename_i hnew
        -- an entry of the old file: the counter says so, or the file gets shorter
        refine within_oldChunk h.writable hw hk h8 ?_ _
        by_cases hle : ino.size.toNat ≤ s
        · have hsize : (s : Int) ≥ ino.size.toNat := Int.ofNat_le.mpr hle
          have hn : 8 < chunks ino.size.toNat := by
            have := mt (And.intro hsize) hsmall
            simp only [blockSize] at this
            exact lt_chunks_iff.mpr (by omega)
          exact (hw.counted.num_lt_iff hk h8 h.grow hn).mp (not_le.mp (mt (And.intro hsize) hnew))
        · refine ⟨by omega, ?_, ?_⟩
          · unfold chunks at *
            omega
          · unfold chunks at *
            omega

-- The shrink loop frees entries of the old file.
theorem ranged_shrinkLoop {b : Block} {i n : Nat} (hi : i + chunks n ≤ 128)
    (hlt : ∀ j < chunks n, (b.word (i + j)).toNat < 32768) (fuel : Nat) :
    Ranged (whileLoop (fun v => decide (v.2 > 0)) (shrinkStep b) fuel (i, (n : Int)))
      fun _ => True := by
  refine (Follows.whileLoop (I := fun v _ => ∃ t, v = (i + t, (n : Int) - 512 * t)) ?_ fuel
    ⟨0, ?_⟩).mono fun _ _ _ => trivial
  · rintro v _ ⟨t, rfl⟩ hpos
    have hpos' := of_decide_eq_true hpos
    have htn : t < chunks n := lt_chunks_iff.mpr (by omega)
    simp only [shrinkStep, entry, if_pos (show i + t < 128 by omega), pure_eq, ret_bind]
    refine Follows.bind ((ranged_freeBlock (hlt t htn)).mono fun _ _ _ => ⟨t + 1, ?_⟩)
    simp only [Prod.mk.injEq, blockSize]
    omega
  · simp only [Nat.add_zero, Nat.cast_zero, mul_zero, sub_zero]

theorem within_freeLoop (id : Nat → UInt32) {n : Nat} (hlt : ∀ x < n, (id x).toNat < 32768)
    (e : Disk) : Within OpInRange (forLoop (fun x => freeBlock (id x)) 0 n) e := by
  refine Within.forLoop (I := fun _ => True) (fun x f _ hx _ => ?_) trivial
  have hid := hlt x (by omega)
  exact ⟨.of_follows (ranged_freeBlock hid) f, (wp_freeBlock _ _ _).mpr trivial⟩

theorem within_writeLoop (h : WriteOk d ino s) : Within OpInRange (writeLoop ino buf s) d := by
  have hlt : ∀ p < 8, (ino.block p).toNat < 32768 := fun p hp => h.ascending.lt (by omega)
  rw [writeLoop, h.asInt_size]
  refine (within_freeLoop ino.block hlt d).bind ?_
  refine wp_freeDirect hlt fun f hu hf => ?_
  refine (Within.of_follows ranged_freshBlock f).bind ((wp_freshBlock _ _).mpr fun final => ?_)
  refine Within.whileLoop (I := WriteInv d ino buf s) (fun w e hw hpos => ?_) s
    (Writable.writeInv_zero hu hf final)
  have hpos' := of_decide_eq_true hpos
  have hk : w.index < chunks s := lt_chunks_iff.mpr (by have := hw.remaining; omega)
  exact ⟨within_writeStep h hw hpos', wp_mono (h.writable.wp_writeStep hw hpos' fun h8 =>
    hw.counted.num_lt_iff hk h8 h.grow) fun _ _ hw' => hw'.1⟩

theorem block_eight_lt {w : WriteState} {e : Disk} (h : WriteOk d ino s)
    (hl : Laid d ino buf s (chunks s) w e) : (w.ino.block 8).toNat < 32768 := by
  rcases Nat.lt_or_ge 8 (chunks s) with hn | hn
  · have h8reg := h.newPtr_region (show 8 < pointers s by rw [pointers_eq_of_lt hn]; omega)
    rw [hl.block_eight hn, toNat_ofNat (by omega)]
    exact h8reg.2
  · rw [hl.block_eight_of_le hn]
    exact h.ascending.lt (by omega)

-- What follows the shrink loop.
theorem ranged_writeTail {w : WriteState} (h8lt : (w.ino.block 8).toNat < 32768) : Ranged (do
      if w.needToOverwriteIndirect then
        writeBlock .writeFile (w.ino.block 8) w.finalIndirectBlock
      if (s : Int) ≤ 8 * blockSize then
        freeBlock (w.ino.block 8)
      pure (w.ino.setSize (UInt32.ofNat s)) : FsM Inode) fun _ => True := by
  have hfree : Ranged (do
      if (s : Int) ≤ 8 * blockSize then
        freeBlock (w.ino.block 8)
      pure (w.ino.setSize (UInt32.ofNat s)) : FsM Inode) fun _ => True := by
    split
    · exact Follows.bind ((ranged_freeBlock h8lt).mono fun _ _ _ => trivial)
    · trivial
  by_cases hneed : w.needToOverwriteIndirect = true
  · rw [if_pos hneed]
    exact Follows.bind ((ranged_writeDisk (rowInRange_of_lt h8lt) _ _).mono fun _ _ _ => hfree)
  · rw [if_neg hneed]
    exact hfree

-- The entries past the end of the new file are pointers of the old one.
theorem shrunk_entry_lt {w : WriteState} {e : Disk} (h : WriteOk d ino s)
    (hl : Laid d ino buf s (chunks s) w e) (hneed : 8 < chunks s) (hless : s < ino.size.toNat) :
    w.indirectIndex + chunks (ino.size.toNat - s) ≤ 128 ∧ ∀ j < chunks (ino.size.toNat - s),
      ((e.row (w.ino.block 8).toNat).word (w.indirectIndex + j)).toNat < 32768 := by
  have hbytes := lt_chunks_iff.mp hneed
  have hshrink := h.shrink (by omega) (by omega)
  have hn136 := h.oldSizeOk.chunks_le
  have hkept : Kept ino 8 := ⟨le_rfl, by omega, by omega⟩
  have hrow := h.writable.row_indirect hkept hneed le_rfl hl.placed
  have h8 : w.ino.block 8 = ino.block 8 := by rw [hl.record, block_inoAt_kept hkept]
  have hind : w.indirectIndex = chunks s - 8 := hl.indirectIndex
  refine ⟨by omega, fun j hj => ?_⟩
  have hlt : chunks s + 1 + j < pointers ino.size.toNat := by
    rw [pointers_eq_of_lt hkept.2.1]
    omega
  have hptr := (h.region _ hlt).2
  rwa [ptrOf_entry (by omega), ← hrow, ← h8,
    show chunks s + 1 + j - 9 = w.indirectIndex + j by omega] at hptr

theorem within_writeEnd {w : WriteState} {e : Disk} (h : WriteOk d ino s)
    (hl : Laid d ino buf s (chunks s) w e) : Within OpInRange (writeEnd ino s w) e := by
  have h8lt := block_eight_lt h hl
  have htail := ranged_writeTail (s := s) h8lt
  unfold writeEnd
  by_cases hshrinks : Shrinks ino s w
  · rw [if_pos hshrinks]
    obtain ⟨hneed, hless⟩ := Bool.and_eq_true_iff.mp hshrinks
    rw [hl.need, decide_eq_true_eq] at hneed
    rw [h.asInt_size, decide_eq_true_eq, Int.ofNat_lt] at hless
    have hentry := shrunk_entry_lt h hl hneed hless
    have hsub : (ino.size.toNat : Int) - s = (ino.size.toNat - s : Nat) := by omega
    have hload : Within OpInRange (loadIndirect w) e :=
      (Within.of_follows ranged_freshBlock e).seq fun b f =>
        Within.of_follows (ranged_readDisk (rowInRange_of_lt h8lt) b) f
    refine hload.bind ?_
    simp only [loadIndirect, wp_bind, wp_freshBlock, readBlock, wp_readDisk _ _ _ _ h8lt]
    intro _
    rw [shrinkLoop, h.asInt_size, hsub, Int.toNat_natCast]
    exact (Within.of_follows (ranged_shrinkLoop hentry.1 hentry.2 _) e).seq fun _ g =>
      Within.of_follows htail g
  · rw [if_neg hshrinks]
    exact Within.of_follows htail e

theorem within_writeBlocks (h : WriteOk d ino s) : Within OpInRange (writeBlocks ino buf s) d := by
  rw [writeBlocks_eq]
  exact (within_writeLoop h).bind (h.wp_writeLoop fun w e hl => within_writeEnd h hl)

end Write

/-! ## The locks -/

section Locks
variable {inum : UInt32} (h : inum.toNat < inodeNum)

include h

theorem ranged_update (f : RwCounters → RwCounters) :
    Ranged (Rwlock.update inum f : FsM Unit) fun _ => True := by
  refine ⟨fun i hi vars => Function.update_of_ne (fun hc => ?_) .., trivial⟩
  subst hc
  exact absurd h (Nat.not_lt.mpr hi)

theorem ranged_lock :
    Ranged (synchronise (.lock (.rwlock inum)) : FsM Unit) fun _ => True := ⟨h, trivial⟩

theorem ranged_waitWhile (cv : CondVar) (busy : RwCounters → Bool) :
    Ranged (Rwlock.waitWhile inum cv busy : FsM Unit) fun _ => True := ⟨h, trivial⟩

theorem ranged_readerEnter : Ranged (Rwlock.readerEnter inum : FsM Unit) fun _ => True :=
  Follows.bind ((ranged_lock h).mono fun _ _ _ =>
    Follows.bind ((ranged_waitWhile h _ _).mono fun _ _ _ => ranged_update h _))

theorem ranged_readerExit : Ranged (Rwlock.readerExit inum : FsM Unit) fun _ => True :=
  Follows.bind ((ranged_update h _).mono fun _ _ _ => ⟨trivial, h, trivial⟩)

theorem ranged_writerEnter : Ranged (Rwlock.writerEnter inum : FsM Unit) fun _ => True :=
  Follows.bind ((ranged_lock h).mono fun _ _ _ =>
    Follows.bind ((ranged_update h _).mono fun _ _ _ =>
      Follows.bind ((ranged_waitWhile h _ _).mono fun _ _ _ => ranged_update h _)))

theorem ranged_writerExit : Ranged (Rwlock.writerExit inum : FsM Unit) fun _ => True :=
  Follows.bind ((ranged_update h _).mono fun _ _ _ => ⟨trivial, h, trivial⟩)

end Locks

/-! ## The requests -/

/-- The ids that are followed for file `i` are rows of the array. -/
structure Disk.IdsInRange (d : Disk) (i : Nat) : Prop where
  size : d.size i ≤ 69632
  region : ∀ p < pointers (d.size i), 123 ≤ d.ptr i p ∧ d.ptr i p < 32768
  ascending : Ascending (d.inode i)

theorem Sound.idsInRange {d : Disk} (hd : Sound d) {i : Nat} (hin : d.InUse i) : d.IdsInRange i :=
  ⟨(hd.sizeOk i hin).le, hd.region i hin, hd.ascending i hin⟩

section Requests
variable {d : Disk} {inum : UInt32}

theorem within_readFile (hlock : inum.toNat < inodeNum)
    (hfile : d.InUse inum.toNat → d.IdsInRange inum.toNat) (now : UInt32) :
    Within OpInRange (readFile inum true true now) d := by
  have hexit : ∀ (r : Option ReadResult) e, Within OpInRange
      (Rwlock.readerExit inum >>= fun _ => pure r) e := fun r e =>
    (Within.of_follows (ranged_readerExit hlock) e).seq fun _ e => .ret r e
  simp only [readFile, Bool.not_true, Bool.or_self, Bool.false_eq_true, if_false]
  refine (Within.of_follows (ranged_readerEnter hlock) d).bind ?_
  rw [wp_readerEnter]
  refine (Within.of_follows (ranged_getInode inum) d).bind ?_
  rw [wp_getInode]
  by_cases hin : d.InUse inum.toNat
  · obtain ⟨hs, hregion, hascending⟩ := hfile hin
    have hint : asInt ((d.inode inum.toNat).setAtime now).size = (d.size inum.toNat : Int) :=
      asInt_of_lt (by change d.size inum.toNat < _; omega)
    have hall : ∀ p < pointers (d.size inum.toNat),
        (d.setInode inum.toNat ((d.inode inum.toNat).setAtime now)).ptrOf
          ((d.inode inum.toNat).setAtime now) p < 32768 := fun p hp => by
      rw [ptrOf_setAtime hin.1 now (fun q hq => (hregion q hq).1) hp]
      exact (hregion p hp).2
    -- read before anybody knows whether the file has an indirect block
    have h8 : (((d.inode inum.toNat).setAtime now).block 8).toNat < 32768 :=
      hascending.lt (by omega)
    rw [lookup_eq_some hin]
    simp only [hint, Int.toNat_natCast]
    refine (Within.of_follows (ranged_putInode _ _) d).bind ?_
    rw [wp_putInode _ _ _ _ hin.1]
    refine (Within.of_follows (p := freshMem) (Q := fun _ _ => True) (x := ())
      ⟨trivial, fun _ => trivial⟩ _).bind ((wp_freshMem _ _).mpr fun m => ?_)
    refine (Within.of_follows ranged_freshBlock _).bind ((wp_freshBlock _ _).mpr fun b => ?_)
    refine (Within.of_follows (ranged_readDisk (rowInRange_of_lt h8) _) _).bind ?_
    refine (wp_readDisk _ _ _ _ h8).mpr ?_
    exact (within_readLoop _ m hs hall fun _ => rfl).seq fun r e => hexit _ e
  · rw [lookup_eq_none hin]
    exact hexit none d

theorem within_writeFile (hlock : inum.toNat < inodeNum) {buf : Mem} {size : Int}
    (hblocks : 0 ≤ size → size ≤ blockSize * maxFile → d.InUse inum.toNat →
      Within OpInRange (writeBlocks (d.inode inum.toNat) buf size) d) :
    Within OpInRange (writeFile inum buf size) d := by
  have hexit : ∀ e, Within OpInRange (Rwlock.writerExit inum : FsM Unit) e :=
    Within.of_follows (ranged_writerExit hlock)
  unfold writeFile
  refine (Within.of_follows (ranged_writerEnter hlock) d).bind ?_
  rw [wp_writerEnter]
  split
  · exact hexit d
  · rename_i hsize
    rw [Bool.or_eq_true, decide_eq_true_eq, decide_eq_true_eq] at hsize
    refine (Within.of_follows (ranged_getInode inum) d).bind ((wp_getInode ..).mpr ?_)
    by_cases hin : d.InUse inum.toNat
    · rw [lookup_eq_some hin]
      refine (hblocks (by omega) (by omega) hin).seq fun ino e => ?_
      exact (Within.of_follows (ranged_putInode _ _) e).seq fun _ f => hexit f
    · rw [lookup_eq_none hin]
      exact hexit d

theorem within_removeFile (hfile : d.InUse inum.toNat → d.IdsInRange inum.toNat)
    (hodd : d.InUse inum.toNat → 4096 < d.size inum.toNat → d.size inum.toNat % 512 ≠ 0) :
    Within OpInRange (removeFile inum) d := by
  have hfree : ∀ e, Within OpInRange (freeInode inum) e := by
    intro e
    refine (Within.of_follows (ranged_getInode inum) e).seq fun ino f => ?_
    cases ino with
    | none => exact fun _ _ hx => absurd hx List.not_mem_nil
    | some ino => exact Within.of_follows (ranged_putInode _ _) f
  unfold removeFile
  refine (Within.of_follows (ranged_getInode inum) d).bind ((wp_getInode ..).mpr ?_)
  by_cases hin : d.InUse inum.toNat
  · obtain ⟨hs, hregion, hascending⟩ := hfile hin
    have hlt : ∀ k < 9, ((d.inode inum.toNat).block k).toNat < 32768 := fun k hk => hascending.lt hk
    have hold : asInt (d.inode inum.toNat).size = (d.size inum.toNat : Int) :=
      asInt_of_lt (by change d.size inum.toNat < _; omega)
    rw [lookup_eq_some hin]
    simp only [hold]
    refine (within_freeLoop (d.inode inum.toNat).block (fun x hx => hlt x (by omega)) d).bind ?_
    refine wp_freeLoop (d.inode inum.toNat).block (fun x _ hx => hlt x (by omega))
      (fun _ _ _ _ _ h => h) fun e he => ?_
    by_cases hbig : 4096 < d.size inum.toNat
    · -- the loop over the entries stops where the file ends
      have h8 : 8 < chunks (d.size inum.toNat) := lt_chunks_iff.mpr (by omega)
      have hpc : pointers (d.size inum.toNat) = chunks (d.size inum.toNat) + 1 := ptrCount_of_lt h8
      have h8reg := hregion 8 (by omega)
      rw [ptr_direct le_rfl] at h8reg
      have hentry : ∀ x < chunks (d.size inum.toNat) - 8,
          ((d.row ((d.inode inum.toNat).block 8).toNat).word x).toNat < 32768 := by
        intro x hx
        have hptr := (hregion (x + 9) (by omega)).2
        rwa [ptr_entry (by omega), Nat.add_sub_cancel] at hptr
      rw [if_pos (by simp only [blockSize]; omega)]
      refine (Within.of_follows ranged_freshBlock e).bind ((wp_freshBlock _ _).mpr fun _ => ?_)
      refine (Within.of_follows (ranged_readDisk (rowInRange_of_lt (hlt 8 (by omega))) _) e).bind ?_
      refine (wp_readDisk _ _ _ _ (hlt 8 (by omega))).mpr ?_
      rw [he.rows _ (by omega), numIndirectBlocks_eq hbig (hodd hin hbig)]
      have hn136 : chunks (d.size inum.toNat) ≤ 136 := chunks_le_iff.mpr hs
      refine Within.seq ?_ fun _ f =>
        (Within.of_follows (ranged_freeBlock (hlt 8 (by omega))) f).seq fun _ g => hfree g
      refine Within.forLoop (I := fun _ => True) (fun x f _ hx _ => ?_) trivial
      have hid := hentry x (by omega)
      simp only [entry, if_pos (show x < 128 by omega), pure_eq, ret_bind]
      exact ⟨.of_follows (ranged_freeBlock hid) f, (wp_freeBlock _ _ _).mpr trivial⟩
    · rw [if_neg (by simp only [blockSize]; omega)]
      exact hfree e
  · rw [lookup_eq_none hin]
    exact .ret _ d

theorem within_get {id : UInt64} (hlock : inumOf id < inodeNum)
    (hfile : d.InUse (inumOf id) → d.IdsInRange (inumOf id)) (now : UInt32) :
    InRange d (.get id now) := by
  simp only [InRange, serve, FsServer.get]
  refine ((within_readFile hlock hfile now).seq fun r e => ?_).seq fun r e => .ret _ e
  cases r with
  | none => exact .ret _ e
  | some r =>
    simp only
    split
    · exact .ret _ e
    · split
      · exact fun _ _ hx => absurd hx List.not_mem_nil
      · exact .ret _ e

theorem within_put {id : UInt64} (hlock : inumOf id < inodeNum) {buf : List UInt8}
    (hblocks : Accepted buf → d.InUse (inumOf id) → Within OpInRange
      (writeBlocks (d.inode (inumOf id)) (cStr buf) (putSize buf)) d) :
    InRange d (.put id buf) := by
  simp only [InRange, serve, FsServer.put]
  refine ((within_writeFile hlock fun hnonneg hle hin => ?_).seq fun _ e => .ret _ e).seq
    fun _ e => .ret _ e
  have hacc : Accepted buf := ⟨hnonneg, hle⟩
  have hint := hacc.intSize_eq
  rw [hint]
  exact hblocks hacc hin

theorem within_remove {id : UInt64} (hfile : d.InUse (inumOf id) → d.IdsInRange (inumOf id))
    (hodd : d.InUse (inumOf id) → 4096 < d.size (inumOf id) → d.size (inumOf id) % 512 ≠ 0) :
    InRange d (.remove id) :=
  ((within_removeFile hfile hodd).seq fun _ e => .ret _ e).seq fun _ e => .ret _ e

theorem within_create (d : Disk) (type : UInt32) (time : Nat → UInt32) :
    InRange d (.create type time) := by
  have hscan : ∀ n x e, Within OpInRange (whereToAlloc n x) e := by
    intro n
    induction n with
    | zero => exact fun x e => .ret _ e
    | succ n ih =>
      intro x e
      refine (Within.of_follows (ranged_getInode _) e).seq fun ino f => ?_
      cases ino with
      | none => exact .ret _ f
      | some ino => exact ih (x + 1) f
  refine Within.seq (Within.seq (Within.seq (hscan _ _ d) fun x e => ?_) fun _ e => .ret _ e)
    fun _ e => .ret _ e
  exact (Within.of_follows (ranged_putInode _ _) e).seq fun _ f => .ret _ f

theorem within_getattr (d : Disk) (id : UInt64) : InRange d (.getattr id) := by
  refine Within.seq (Within.seq (Within.seq (Within.of_follows (ranged_getInode _) d)
    fun ino e => ?_) fun _ e => .ret _ e) fun _ e => .ret _ e
  cases ino <;> exact .ret _ e

-- A put or a get locks the mutex of the id first of all.
theorem not_within_lock {id : UInt64} (hlock : ¬ inumOf id < inodeNum) (d : Disk) {α : Type}
    (p : FsM α) :
    ¬ Within OpInRange (synchronise (.lock (.rwlock (maskId id))) >>= fun _ => p) d :=
  fun h => hlock (h (fun _ _ => 0) _ (List.mem_cons_self ..))

end Requests

theorem inRange_of_safe {d : Disk} (hd : Sound d) {q : Request} (hsafe : SafeStep d q)
    (hlock : LockExists q) : InRange d q := by
  cases q with
  | create type time => exact within_create d type time
  | put id buf =>
    exact within_put hlock fun hacc hin => within_writeBlocks ((hsafe hacc hin).writeOk hd hin)
  | get id now => exact within_get hlock (fun hin => hd.idsInRange hin) now
  | getattr id => exact within_getattr d id
  | remove id =>
    exact within_remove (fun hin => hd.idsInRange hin) fun hin => (hsafe hin).partialChunk

/-- A request of a safe run stays in range just when the lock that it takes, if any, exists. -/
theorem inRange_iff_lockExists {d : Disk} (h : SafelyReachable d) {q : Request}
    (hsafe : SafeStep d q) : InRange d q ↔ LockExists q := by
  refine ⟨fun hrange => ?_, inRange_of_safe h.sound hsafe⟩
  cases q with
  | put id buf =>
    -- the lock is taken before the id is checked
    by_contra hlock
    exact not_within_lock hlock d _ hrange
  | get id now =>
    by_contra hlock
    exact not_within_lock hlock d _ hrange
  | create type time => trivial
  | getattr id => trivial
  | remove id => trivial

/-- The root can be written, and the last lock of the table taken. -/
theorem inRange_iff_lockExists_root :
    InRange (madeAt 0) (.put 0 [1, 2, 3]) ∧ InRange (madeAt 0) (.get 1023 0) := by
  have hfresh := fresh_madeAt 0
  have hsafe : SafeStep (madeAt 0) (.put 0 [1, 2, 3]) :=
    hfresh.safeStep_put ⟨by decide, by decide⟩
  have hget : SafeStep (madeAt 0) (.get 1023 0) := trivial
  exact ⟨(inRange_iff_lockExists hfresh.safelyReachable hsafe).mpr (by decide),
    (inRange_iff_lockExists hfresh.safelyReachable hget).mpr (by decide)⟩

/-- There is no lock for inode 1024. -/
theorem not_inRange_of_reachable : ¬ ∀ d, Reachable d → ∀ q,
    (∀ type time, q ≠ .create type time) → InRange d q := by
  intro h
  have hlock : ¬ inumOf 1024 < inodeNum := by decide
  exact not_within_lock hlock _ _
    (h _ (fresh_madeAt 0).reachable (.get 1024 0) fun _ _ => Request.noConfusion)

/-! ## Bytes of a file as a block id -/

/-- The ninth chunk of a file starts with the bytes of `BLOCK_NUM`. -/
def idAsBytes : List UInt8 := List.replicate 4097 0 ++ [128, 0, 0]

/-- The operation reads row `BLOCK_NUM`. -/
def readsPastEnd : Op FsSig → Bool
  | .act (.read id _) => id.toNat == blockNum
  | _ => false

/-- A put of 4097 to 4607 bytes makes its last chunk the indirect block, and a get follows the bytes
that it finds there out of the array. -/
theorem exists_not_rowInRange : ∃ d, Reachable d ∧ ¬ InRange d (.get 0 0) := by
  -- evaluated: the get reads a row with the number of blocks as its id
  have hrun : (serveAll [(.put 0 idAsBytes, fun _ _ => 0)] (madeAt 0)).any (fun r =>
      (trace (serve (.get 0 0)) (fun _ _ => 0) r.2).any fun x => readsPastEnd x.2) = true := by
    decide +kernel
  obtain ⟨⟨rs, d⟩, hd, hbad⟩ := Option.any_eq_true .. |>.mp hrun
  obtain ⟨⟨e, op⟩, hx, hread⟩ := List.any_eq_true.mp hbad
  refine ⟨d, ⟨_, _, rs, fresh_madeAt 0, hd⟩, fun h => ?_⟩
  have hrange : OpInRange op := h _ _ hx
  rcases op with (⟨id, _⟩ | _ | _ | _) | _
  case act.read =>
    have hid : id.toNat = blockNum := beq_iff_eq.mp hread
    exact absurd (hrange (by omega)) (by omega)
  all_goals cases hread

end InodeFs
