import InodeFs.Rewrite

/-!
# Threads that read and write several files

The calls on different files run at the same time, and what `alloc_block` answers depends on all of
them.  Each file is nevertheless served as if the calls had been made one after the other: what a
call returns and leaves in its file depends only on the calls that locked `rwlocks[inum]` before it.
-/

namespace InodeFs

open BlockLayer InodeLayer Prog Disk

/-! ## `read_file` on its share -/

section Reading

variable {d₀ d : Disk} {I : Finset Nat} {h : Shared d₀ I} {k : UInt32} {f : Option File}
variable {ino : Inode} {i s : Nat} {U : Finset Nat} {b : Block} {pooled : Bool}

-- The chunk behind the next pointer, when the call owns the blocks of the file.
theorem sharing_readStep {r : ReadState} (hs : s ≤ 69632)
    (hmem : ∀ p < pointers s, d.ptrOf ino p < 32768 ∧ d.ptrOf ino p ∈ U)
    (hb : 8 < chunks s → b = d.row (ino.block 8).toNat) (hr : ReadInv d ino s r d)
    (hpos : r.remainingBytesToBeRead > 0) :
    Follows (sharing h k f) (readStep ino b r)
      (fun r' y => (ReadInv d ino s r' d ∧ s - 512 * r'.index < s - 512 * r.index) ∧
        y = (d.share U, pooled)) (d.share U, pooled) := by
  have hrem := hr.remaining
  have hnum := hr.num
  have hlt : 512 * r.index < s := by omega
  have hc : r.index < chunks s := lt_chunks_iff.mpr hlt
  have h136 : chunks s ≤ 136 := chunks_le_iff.mpr (by omega)
  obtain ⟨hptr, hown⟩ := hmem _ (chunkPtr_lt hc)
  -- what the step does alone
  have hw := hr.step hs (fun p hp => (hmem p hp).1) hb hpos
  simp only [readStep] at hw ⊢
  by_cases hdir : r.numBytesAlreadyRead < 8 * blockSize
  · -- the id of a direct slot
    have h8 : r.index < 8 := by simp only [blockSize] at hdir; omega
    rw [chunkPtr, if_pos h8, ptrOf_direct (by omega)] at hptr hown
    simp only [if_pos hdir, wp_bind, wp_freshBlock, loadSlot, if_pos (show r.index < 9 by omega),
      pure_eq, wp_ret, readBlock, wp_readDisk _ _ _ _ hptr, forall_const] at hw
    rw [if_pos hdir]
    refine Follows.bind (sharing_freshBlock fun _ => Follows.bind ?_)
    rw [loadSlot, if_pos (show r.index < 9 by omega)]
    exact Follows.bind (sharing_readDisk hptr hown ⟨hw, rfl⟩)
  · -- an entry of the indirect block
    have h8 : 8 ≤ r.index := by simp only [blockSize] at hdir; omega
    have hindex : r.indirectIndex = r.index - 8 := hr.indirectIndex
    have h128 : r.indirectIndex < 128 := by omega
    rw [chunkPtr, if_neg (by omega), ptrOf_entry (by omega), ← hb (by omega),
      show r.index + 1 - 9 = r.indirectIndex by omega] at hptr hown
    simp only [if_neg hdir, wp_bind, wp_freshBlock, wp_entry _ _ _ _ h128, pure_eq, wp_ret,
      readBlock, wp_readDisk _ _ _ _ hptr, forall_const] at hw
    rw [if_neg hdir]
    refine Follows.bind (sharing_freshBlock fun _ => Follows.bind ?_)
    refine sharing_entry h128 (Follows.bind ?_)
    exact sharing_readDisk hptr hown ⟨hw, rfl⟩

theorem sharing_readLoop {Q : ReadState → Heap Nat Block × Bool → Prop} (m : Mem) (hs : s ≤ 69632)
    (hmem : ∀ p < pointers s, d.ptrOf ino p < 32768 ∧ d.ptrOf ino p ∈ U)
    (hb : 8 < chunks s → b = d.row (ino.block 8).toNat)
    (hQ : ∀ r : ReadState,
      (∀ k < s, r.buf k = (d.row (d.ptrOf ino (chunkPtr (k / 512)))).byte (k % 512)) →
      Q r (d.share U, pooled)) :
    Follows (sharing h k f) (whileLoop (fun r => decide (r.remainingBytesToBeRead > 0))
      (readStep ino b) s ⟨m, s, 0, 0, 0⟩) Q (d.share U, pooled) := by
  refine Follows.whileLoop_done
    (I := fun r y => ReadInv d ino s r d ∧ y = (d.share U, pooled))
    (fun r => r.remainingBytesToBeRead.toNat) ⟨?_, rfl⟩ ?_ ?_ ?_ ?_
  · refine ⟨rfl, Nat.zero_le _, rfl, ?_, rfl, fun k _ hk => absurd hk (Nat.not_lt_zero k)⟩
    simp only
    omega
  · exact le_rfl
  · intro r hpos
    rw [decide_eq_true_eq] at hpos
    omega
  · rintro r y ⟨hr, rfl⟩ hpos
    refine (sharing_readStep hs hmem hb hr (of_decide_eq_true hpos)).mono fun r' z hr' => ?_
    refine ⟨⟨hr'.1.1, hr'.2⟩, ?_⟩
    rw [hr'.1.1.remaining, hr.remaining]
    exact hr'.1.2
  · rintro r y ⟨hr, rfl⟩ hdone
    rw [decide_eq_false_iff_not] at hdone
    have hrem := hr.remaining
    exact hQ r fun k hk => hr.bytes k hk (by omega)

/-- The rows of a file are those of the file with a new access time. -/
theorem Stores.get {g : File} {now : UInt32} (hst : Stores d₀ i (some g) d U) (hin : d.InUse i) :
    Stores d₀ i (some (g.get now)) (d.setInode i ((d.inode i).setAtime now)) U := by
  have hi := hin.1
  have hrec := inode_setInode_self d ((d.inode i).setAtime now) hi
  have hin' : (d.setInode i ((d.inode i).setAtime now)).InUse i := by
    refine ⟨hi, ?_⟩
    rw [hrec]
    exact hin.2
  have hsize : (d.setInode i ((d.inode i).setAtime now)).size i = d.size i := by
    rw [Disk.size, hrec]
    rfl
  have hptr : ∀ p < pointers (d.size i),
      (d.setInode i ((d.inode i).setAtime now)).ptr i p = d.ptr i p := by
    intro p hp
    rw [Disk.ptr, hrec]
    exact ptrOf_setAtime hi now (fun q hq => (hst.region hin q hq).1) hp
  have hg : g = d.file i hin := Option.some.inj (hst.files.symm.trans (files_of_inUse hin))
  have hbytes : (d.setInode i ((d.inode i).setAtime now)).contents i = d.contents i := by
    rw [contents, contents, hsize]
    apply List.map_congr_left
    intro j hj
    rw [List.mem_range] at hj
    have hp := chunkPtr_lt (lt_chunks_iff.mpr (show 512 * (j / 512) < d.size i by omega))
    rw [fileByte, fileByte, hptr _ hp, row_setInode_data _ _ hi (hst.region hin _ hp).1]
  constructor
  · rw [files_of_inUse hin', hg]
    refine congrArg some (File.ext ?_ ?_ ?_ ?_ hbytes)
    · exact (congrArg Inode.type hrec).trans rfl
    · exact congrArg Inode.atime hrec
    · exact (congrArg Inode.mtime hrec).trans rfl
    · exact (congrArg Inode.ctime hrec).trans rfl
  · intro j hj ht
    rw [inode_setInode_ne _ _ hj]
    exact hst.others j hj ht
  · intro r
    rw [hst.mem, Disk.Holds, Disk.Holds, hsize]
    simp only [hin, hin', true_and]
    refine or_congr Iff.rfl (exists_congr fun p => and_congr_right fun hp => ?_)
    rw [hptr p hp]
  · intro _ p hp
    rw [hsize] at hp
    rw [hptr p hp]
    exact hst.region hin p hp
  · intro _ p hp q hq
    rw [hsize] at hp hq
    rw [hptr p hp, hptr q hq]
    exact hst.distinct hin p hp q hq
  · intro _
    rw [hsize]
    exact hst.sizeOk hin
  · intro _
    rw [hrec]
    exact hst.trim hin

/-- `read_file` between the load of the record and the unlock, with what it puts out. -/
def readBlocks (inum now : UInt32) (ino : Inode) : FsM ReadResult := do
  let ino := ino.setAtime now
  putInode inum ino
  let size := asInt ino.size
  let buf ← freshMem
  let indirectBlock ← freshBlock
  let indirectBlock ← readBlock (ino.block 8) indirectBlock
  let r ← Prog.whileLoop (fun r => r.remainingBytesToBeRead > 0)
    (readStep ino indirectBlock) size.toNat ⟨buf, size, 0, 0, 0⟩
  pure ⟨r.buf, size⟩

theorem sharing_readBlocks {inum now : UInt32} {g : File}
    {Q : ReadResult → Heap Nat Block × Bool → Prop} (hst : Stores d₀ inum.toNat (some g) d U)
    (hin : d.InUse inum.toNat)
    (hQ : ∀ r e, r.size = (g.bytes.length : Int) → (List.range g.bytes.length).map r.buf = g.bytes →
      Stores d₀ inum.toNat (some (g.get now)) e U → Q r (e.share U, pooled)) :
    Follows (sharing h k f) (readBlocks inum now (d.inode inum.toNat)) Q (d.share U, pooled) := by
  set i := inum.toNat with hi
  set e := d.setInode i ((d.inode i).setAtime now) with he
  have hst' : Stores d₀ i (some (g.get now)) e U := hst.get hin
  have hg : g = d.file i hin := Option.some.inj (hst.files.symm.trans (files_of_inUse hin))
  have hbytes : g.bytes = d.contents i := by rw [hg]; rfl
  have hlen : g.bytes.length = d.size i := by rw [hbytes, length_contents]
  have hs : d.size i ≤ 69632 := (hst.sizeOk hin).le
  have hptr : ∀ p < pointers (d.size i), e.ptrOf ((d.inode i).setAtime now) p = d.ptr i p :=
    fun p hp => ptrOf_setAtime hin.1 now (fun q hq => (hst.region hin q hq).1) hp
  have hown : ∀ p < pointers (d.size i), e.ptrOf ((d.inode i).setAtime now) p < 32768 ∧
      e.ptrOf ((d.inode i).setAtime now) p ∈ U := by
    intro p hp
    rw [hptr p hp]
    exact ⟨(hst.region hin p hp).2, (hst.mem _).mpr (.inr ⟨hin, p, hp, rfl⟩)⟩
  have hint : asInt ((d.inode i).setAtime now).size = (d.size i : Int) := by
    change asInt (d.inode i).size = _
    exact asInt_of_lt (by change d.size i < _; omega)
  have htable : tableBlock i ∈ U := (hst.mem _).mpr (.inl rfl)
  refine Follows.bind (sharing_putInode hin.1 htable (Follows.bind ?_))
  refine sharing_freshMem fun m => Follows.bind (sharing_freshBlock fun b => Follows.bind ?_)
  rw [hint]
  -- what is left once the buffer of the indirect block is loaded
  have hloop : ∀ b, (8 < chunks (d.size i) →
      b = e.row (((d.inode i).setAtime now).block 8).toNat) → Follows (sharing h k f)
        (whileLoop (fun r => decide (r.remainingBytesToBeRead > 0))
          (readStep ((d.inode i).setAtime now) b) (d.size i : Int).toNat ⟨m, d.size i, 0, 0, 0⟩ >>=
            fun r => pure ⟨r.buf, d.size i⟩) Q (e.share U, pooled) := by
    intro b hb
    refine Follows.bind (sharing_readLoop m hs hown hb fun r hr => ?_)
    refine hQ _ e (by rw [hlen]) ?_ hst'
    rw [hlen, hbytes, contents]
    apply List.map_congr_left
    intro j hj
    rw [List.mem_range] at hj
    have hp := chunkPtr_lt (lt_chunks_iff.mpr (show 512 * (j / 512) < d.size i by omega))
    change r.buf j = _
    rw [hr j hj, hptr _ hp, row_setInode_data _ _ hin.1 (hst.region hin _ hp).1]
    rfl
  by_cases h8 : 8 < chunks (d.size i)
  · have hp8 : 8 < pointers (d.size i) := by rw [pointers_eq_of_lt h8]; omega
    obtain ⟨hlt, hmem⟩ := hown 8 hp8
    rw [ptrOf_direct le_rfl] at hlt hmem
    exact sharing_readDisk hlt hmem (hloop _ fun _ => rfl)
  · exact sharing_readDisk_any fun b => hloop b fun hc => absurd hc h8

end Reading

/-! ## The calls -/

section Calling

variable {d : Disk} {I : Finset Nat} {h : Shared d I} {k : UInt32} {f : Option File}
variable {x : Heap Nat Block × Bool} {inum : UInt32}

-- The counters say nothing about the disk.
theorem sharing_update {g : RwCounters → RwCounters} {Q : Unit → Heap Nat Block × Bool → Prop}
    (hQ : Q () x) : Follows (S := FsSig) (sharing h k f) (Rwlock.update inum g) Q x := hQ

theorem sharing_waitWhile {cv : CondVar} {busy : RwCounters → Bool}
    {Q : Unit → Heap Nat Block × Bool → Prop} (hQ : Q () x) :
    Follows (S := FsSig) (sharing h k f) (Rwlock.waitWhile inum cv busy) Q x := hQ

theorem sharing_wake {g : RwCounters → Wake (UInt32 × CondVar)}
    {Q : Unit → Heap Nat Block × Bool → Prop} (hQ : Q () x) :
    Follows (S := FsSig) (sharing h k f) (Rwlock.wake inum g) Q x := hQ

/-- The end of a call of `read_file`. -/
def leaveRead (inum : UInt32) (r : Option ReadResult) : FsM FileResult := do
  Rwlock.readerExit inum
  pure (.read r)

/-- The end of a call of `write_file`. -/
def leaveWrite (inum : UInt32) : FsM FileResult := do
  Rwlock.writerExit inum
  pure .written

-- The call gives up what it owns, which is the file with its new value.
theorem sharing_leaveRead {e : Disk} {U : Finset Nat} {r : Option ReadResult}
    {Q : FileResult → Heap Nat Block × Bool → Prop} (hin : k.toNat ∈ I)
    (hst : Stores d k.toNat f e U) (hQ : Q (.read r) (fun _ => none, false)) :
    Follows (sharing h k f) (leaveRead k r) Q (e.share U, false) := by
  have hholds : HoldsFile d I k f (e.share U) := by
    rw [HoldsFile, if_pos hin]
    exact ⟨e, U, rfl, hst⟩
  refine Follows.bind (Follows.bind (sharing_update (Follows.bind (sharing_wake ?_))))
  exact .inr ⟨rfl, rfl, hholds, hQ⟩

theorem sharing_leaveWrite {e : Disk} {U : Finset Nat}
    {Q : FileResult → Heap Nat Block × Bool → Prop} (hin : k.toNat ∈ I)
    (hst : Stores d k.toNat f e U) (hQ : Q .written (fun _ => none, false)) :
    Follows (sharing h k f) (leaveWrite k) Q (e.share U, false) := by
  have hholds : HoldsFile d I k f (e.share U) := by
    rw [HoldsFile, if_pos hin]
    exact ⟨e, U, rfl, hst⟩
  refine Follows.bind (Follows.bind (sharing_update (Follows.bind (sharing_wake ?_))))
  exact .inr ⟨rfl, rfl, hholds, hQ⟩

theorem code_read {bufOut size : Bool} {now : UInt32} {junk : Junk} :
    (Calls.code (FileCall.read inum bufOut size now junk) : FsM FileResult) =
      Rwlock.readerEnter inum >>= fun _ =>
        if !bufOut || !size then leaveRead inum none
        else getInode inum >>= fun ino => match ino with
          | none => leaveRead inum none
          | some ino => readBlocks inum now ino >>= fun r => leaveRead inum (some r) := by
  simp only [Calls.code, readFile, bind_assoc]
  refine bind_congr fun _ => ?_
  split
  · rfl
  · rw [bind_assoc]
    refine bind_congr fun ino => ?_
    cases ino with
    | none => rfl
    | some ino => simp only [readBlocks, bind_assoc, leaveRead, pure_bind]

theorem code_write {buf : Mem} {size : Int} {junk : Junk} :
    (Calls.code (FileCall.write inum buf size junk) : FsM FileResult) =
      Rwlock.writerEnter inum >>= fun _ =>
        if size < 0 || size > blockSize * maxFile then leaveWrite inum
        else getInode inum >>= fun ino => match ino with
          | none => leaveWrite inum
          | some ino =>
              (writeBlocks ino buf size >>= putInode inum) >>= fun _ => leaveWrite inum := by
  simp only [Calls.code, writeFile, bind_assoc]
  refine bind_congr fun _ => ?_
  split
  · rfl
  · rw [bind_assoc]
    refine bind_congr fun ino => ?_
    cases ino with
    | none => rfl
    | some ino => simp only [bind_assoc, leaveWrite]

-- A call that enters as a reader, with what it does from there on.
theorem performs_reader {call : FileCall} {body : FsM FileResult} (hin : call.inum.toNat ∈ I)
    (hcode : (Calls.code call : FsM FileResult) = Rwlock.readerEnter call.inum >>= fun _ => body)
    (hbody : ∀ f e U, call.Fitting f → Stores d call.inum.toNat f e U →
      Follows (sharing h call.inum (call.step f).2) body (fun a _ => a.view = (call.step f).1)
        (e.share U, false)) :
    Performs (custody h) FileResult.view FileCall.Fitting call := by
  simp only [Rwlock.readerEnter, bind_assoc] at hcode
  refine Performs.bind hcode fun f g hfit hg => ?_
  have hg' : HoldsFile d I call.inum f g := hg
  rw [HoldsFile, if_pos hin] at hg'
  obtain ⟨e, U, rfl, hst⟩ := hg'
  exact Follows.bind (sharing_waitWhile (Follows.bind (sharing_update (hbody f e U hfit hst))))

theorem performs_writer {call : FileCall} {body : FsM FileResult} (hin : call.inum.toNat ∈ I)
    (hcode : (Calls.code call : FsM FileResult) = Rwlock.writerEnter call.inum >>= fun _ => body)
    (hbody : ∀ f e U, call.Fitting f → Stores d call.inum.toNat f e U →
      Follows (sharing h call.inum (call.step f).2) body (fun a _ => a.view = (call.step f).1)
        (e.share U, false)) :
    Performs (custody h) FileResult.view FileCall.Fitting call := by
  simp only [Rwlock.writerEnter, bind_assoc] at hcode
  refine Performs.bind hcode fun f g hfit hg => ?_
  have hg' : HoldsFile d I call.inum f g := hg
  rw [HoldsFile, if_pos hin] at hg'
  obtain ⟨e, U, rfl, hst⟩ := hg'
  refine Follows.bind (sharing_update (Follows.bind (sharing_waitWhile ?_)))
  exact Follows.bind (sharing_update (hbody f e U hfit hst))

theorem performs_read {bufOut size : Bool} {now : UInt32} {junk : Junk} (hin : inum.toNat ∈ I) :
    Performs (custody h) FileResult.view FileCall.Fitting (.read inum bufOut size now junk) := by
  refine performs_reader hin code_read fun f e U _ hst => ?_
  have htable : tableBlock inum.toNat ∈ U := (hst.mem _).mpr (.inl rfl)
  have hlt : inum.toNat < 1024 := h.lt _ hin
  have hrefused : (!bufOut || !size) = true ↔ ¬ (bufOut && size) = true := by
    cases bufOut <;> cases size <;> decide
  rw [FileCall.step]
  by_cases hflags : (bufOut && size) = true
  · rw [if_neg (mt hrefused.mp (not_not.mpr hflags)), if_pos hflags]
    refine Follows.bind (sharing_getInode hlt htable ?_)
    by_cases huse : e.InUse inum.toNat
    · obtain rfl : f = some (e.file inum.toNat huse) := hst.files.symm.trans (files_of_inUse huse)
      rw [lookup_eq_some huse]
      refine Follows.bind (sharing_readBlocks hst huse fun r e' hsize hbytes hst' => ?_)
      refine sharing_leaveRead hin hst' ?_
      simp only [FileResult.view, Option.map_some, hsize, Int.toNat_natCast, hbytes]
    · obtain rfl : f = none := hst.files.symm.trans (files_eq_none huse)
      rw [lookup_eq_none huse]
      exact sharing_leaveRead hin hst rfl
  · rw [if_pos (hrefused.mpr hflags), if_neg hflags]
    exact sharing_leaveRead hin hst rfl

theorem performs_write {buf : Mem} {size : Int} {junk : Junk} (hin : inum.toNat ∈ I) :
    Performs (custody h) FileResult.view FileCall.Fitting (.write inum buf size junk) := by
  refine performs_writer hin code_write fun f e U hfit hst => ?_
  have htable : tableBlock inum.toNat ∈ U := (hst.mem _).mpr (.inl rfl)
  have hlt : inum.toNat < 1024 := h.lt _ hin
  rw [FileCall.step]
  by_cases hacc : Accepts size
  · obtain ⟨s, rfl⟩ := Int.eq_ofNat_of_zero_le hacc.1
    rw [if_neg (not_refused hacc), if_pos hacc]
    refine Follows.bind (sharing_getInode hlt htable ?_)
    by_cases huse : e.InUse inum.toNat
    · obtain rfl : f = some (e.file inum.toNat huse) := hst.files.symm.trans (files_of_inUse huse)
      have hover := hfit hacc _ rfl
      rw [lookup_eq_some huse]
      refine Follows.bind (sharing_writeBlocks hin hst huse ?_ fun e' U' hst' => ?_)
      · rwa [Disk.file, length_contents] at hover
      · exact sharing_leaveWrite hin hst' rfl
    · obtain rfl : f = none := hst.files.symm.trans (files_eq_none huse)
      rw [lookup_eq_none huse]
      exact sharing_leaveWrite hin hst rfl
  · have hrefused : (decide (size < 0) || decide (size > blockSize * maxFile)) = true := by
      rw [Bool.or_eq_true, decide_eq_true_eq, decide_eq_true_eq]
      unfold Accepts at hacc
      omega
    rw [if_pos hrefused, if_neg hacc]
    exact sharing_leaveWrite hin hst rfl

/-- Every call does to its file what `FileCall.step` says, whatever the other calls do. -/
theorem performs_call (call : FileCall) (hin : call.inum.toNat ∈ I) :
    Performs (custody h) FileResult.view FileCall.Fitting call := by
  cases call with
  | read inum bufOut size now junk => exact performs_read hin
  | write inum buf size junk => exact performs_write hin

end Calling

/-! ## Before the first call and after the last -/

/-- The rows of inode `i`: its block of the table and the blocks it holds. -/
def Disk.rowsOf (d : Disk) (i : Nat) : Finset Nat := insert (tableBlock i) (d.heldSet i)

section Division

variable {d : Disk} {I : Finset Nat} {r : Nat} {k : UInt32}

theorem mem_rowsOf {i : Nat} : r ∈ d.rowsOf i ↔ r = tableBlock i ∨ d.Holds i r := by
  rw [rowsOf, Finset.mem_insert, mem_heldSet]

theorem division_eq_rest (hpool : r ∉ d.pool) (hrest : ∀ i ∈ I, r ∉ d.rowsOf i) :
    d.division I r = some 0xffffffff := by
  have hno : ¬ ∃ i ∈ I, r = tableBlock i ∨ d.Holds i r := by
    rintro ⟨i, hi, hr⟩
    exact hrest i hi (mem_rowsOf.mpr hr)
  rw [Disk.division, if_neg hpool, dif_neg hno]

theorem stock_division : Heap.restrict d.row (fun r => d.division I r = none) = d.share d.pool :=
  Heap.restrict_congr (fun _ => division_eq_none) fun _ _ => rfl

/-- A file is determined by its rows. -/
theorem Stores.files_eq {d₀ e : Disk} {i : Nat} {f : Option File} {U : Finset Nat}
    (hst : Stores d₀ i f d U) (hrow : ∀ r ∈ U, e.row r = d.row r) : e.files i = f := by
  have hrec : e.inode i = d.inode i := inode_congr (hrow _ ((hst.mem _).mpr (.inl rfl)))
  rw [← hst.files]
  refine files_eq_of_intact ?_ fun hin => ⟨hrec, fun p hp => ?_⟩
  · rw [Disk.InUse, hrec]
    rfl
  · exact hrow _ ((hst.mem _).mpr (.inr ⟨hin, p, hp, rfl⟩))

namespace Shared

variable (h : Shared d I)

include h

-- No inode has the number that the rest goes under.
theorem not_mem_rest : (0xffffffff : UInt32).toNat ∉ I := fun hc =>
  absurd (h.lt _ hc) (by decide)

theorem not_mem_pool {i : Nat} (hi : i ∈ I) (hr : r ∈ d.rowsOf i) : r ∉ d.pool := by
  have hb := tableBlock_bounds (h.lt i hi)
  rw [mem_pool]
  rcases mem_rowsOf.mp hr with rfl | ⟨hin, p, hp, rfl⟩
  · omega
  · have hreg := h.clean.sound.region i hin p hp
    rintro (hlow | ⟨-, hfree⟩)
    · omega
    · exact hfree (h.clean.sound.used i hin p hp)

-- No row belongs to two of the files.
theorem eq_of_mem_rowsOf {i j : Nat} (hi : i ∈ I) (hj : j ∈ I) (hri : r ∈ d.rowsOf i)
    (hrj : r ∈ d.rowsOf j) : i = j := by
  have hbi := tableBlock_bounds (h.lt i hi)
  have hbj := tableBlock_bounds (h.lt j hj)
  rcases mem_rowsOf.mp hri with hti | ⟨hini, p, hp, hpi⟩ <;>
    rcases mem_rowsOf.mp hrj with htj | ⟨hinj, q, hq, hqj⟩
  · exact h.tables i hi j hj (hti.symm.trans htj)
  · have := h.clean.sound.region j hinj q hq
    omega
  · have := h.clean.sound.region i hini p hp
    omega
  · exact (h.clean.sound.owner i j hini hinj p hp q hq (hpi.trans hqj.symm)).1

theorem division_eq_some (hk : k.toNat ∈ I) :
    d.division I r = some k ↔ r ∈ d.rowsOf k.toNat := by
  constructor
  · intro hdiv
    unfold Disk.division at hdiv
    split at hdiv
    · cases hdiv
    · split at hdiv
      · rename_i hex
        obtain ⟨hi, hr⟩ := hex.choose_spec
        have hlt : hex.choose < 1024 := h.lt _ hi
        rw [← Option.some.inj hdiv, toNat_ofNat (by omega)]
        exact mem_rowsOf.mpr hr
      · exact absurd (Option.some.inj hdiv ▸ hk) h.not_mem_rest
  · intro hr
    have hex : ∃ i ∈ I, r = tableBlock i ∨ d.Holds i r := ⟨_, hk, mem_rowsOf.mp hr⟩
    obtain ⟨hi, hr'⟩ := hex.choose_spec
    have heq := h.eq_of_mem_rowsOf hi hk (mem_rowsOf.mpr hr') hr
    rw [Disk.division, if_neg (h.not_mem_pool hk hr), dif_pos hex, heq, UInt32.ofNat_toNat]

theorem stores {i : Nat} : Stores d i (d.files i) d (d.rowsOf i) where
  files := rfl
  others := fun _ _ _ => rfl
  mem := fun _ => mem_rowsOf
  region := h.clean.sound.region i
  distinct := fun hin p hp q hq he => (h.clean.sound.owner i i hin hin p hp q hq he).2
  sizeOk := h.clean.sound.sizeOk i
  trim := h.clean.trim i

theorem fits_division (k : UInt32) : FitsFile d I k {r | d.division I r = some k} := by
  rw [FitsFile]
  split
  · rename_i hk
    refine ⟨d.rowsOf k.toNat, Set.ext fun r => h.division_eq_some hk, ?_⟩
    have hb := tableBlock_bounds (h.lt _ hk)
    have hsub : dataRows (d.rowsOf k.toNat) ⊆ d.heldSet k.toNat := by
      intro r hr
      obtain ⟨hr, hlow⟩ := Finset.mem_filter.mp hr
      rcases Finset.mem_insert.mp hr with rfl | hr
      · omega
      · exact hr
    refine (Finset.card_le_card hsub).trans ?_
    unfold Disk.heldSet
    split
    · rename_i hin
      have hlen := pointers_le (h.clean.sound.sizeOk _ hin).chunks_le
      exact (Finset.card_image_le.trans (Finset.card_range _).le).trans hlen
    · exact Nat.zero_le _
  · exact Set.Subset.rfl

theorem holds_division (k : UInt32) :
    HoldsFile d I k (d.files k.toNat) ((custody h).part (d.division I) d k false) := by
  have hpart : (custody h).part (d.division I) d k false =
      Heap.restrict d.row fun r => d.division I r = some k := by
    apply Heap.restrict_congr
    · intro r
      simp only [Bool.false_eq_true, false_and, or_false]
    · exact fun _ _ => rfl
  rw [HoldsFile, hpart]
  split
  · rename_i hk
    refine ⟨d, d.rowsOf k.toNat, ?_, h.stores⟩
    exact Heap.restrict_congr (fun _ => h.division_eq_some hk) fun _ _ => rfl
  · exact ⟨rfl, rfl⟩

section Together

variable {s : Disk} {A : Nat → Option UInt32} {F : UInt32 → Option File}
variable (hholds : ∀ k, HoldsFile d I k (F k) ((custody h).part A s k false))

include hholds

theorem exists_stores (hk : k.toNat ∈ I) :
    ∃ e U, Stores d k.toNat (F k) e U ∧ ∀ r ∈ U, s.row r = e.row r := by
  have hheld := hholds k
  rw [HoldsFile, if_pos hk] at hheld
  obtain ⟨e, U, hpart, hst⟩ := hheld
  refine ⟨e, U, hst, fun r hr => ?_⟩
  have hsome : (custody h).part A s k false r = some (e.row r) := by
    rw [hpart]
    exact Heap.restrict_pos hr
  exact Heap.agrees_restrict r _ hsome

-- Nobody has touched the rest.
theorem row_of_rest (hr : d.division I r = some 0xffffffff) : s.row r = d.row r := by
  have hheld := hholds 0xffffffff
  rw [HoldsFile, if_neg h.not_mem_rest] at hheld
  have hsome : (custody h).part A s 0xffffffff false r = some (d.row r) := by
    rw [hheld.2]
    exact Heap.restrict_pos (p := fun r => d.division I r = some 0xffffffff) hr
  exact Heap.agrees_restrict r _ hsome

-- The record of another inode is in the rest, or in the block that one of the files has.
theorem inode_of_not_mem {j : Nat} (hj : j < 1024) (hout : j ∉ I) : s.inode j = d.inode j := by
  have hb := tableBlock_bounds hj
  by_cases hex : ∃ i ∈ I, tableBlock i = tableBlock j
  · obtain ⟨i, hi, ht⟩ := hex
    have hlt : i < 1024 := h.lt i hi
    have hk : (UInt32.ofNat i).toNat = i := toNat_ofNat (by omega)
    obtain ⟨e, U, hst, hrow⟩ := h.exists_stores hholds (hk.symm ▸ hi)
    rw [hk] at hst
    have hji : j ≠ i := fun he => hout (he ▸ hi)
    rw [← hst.others j hji ht.symm]
    exact inode_congr (hrow _ ((hst.mem _).mpr (.inl ht.symm)))
  · refine inode_congr (h.row_of_rest hholds (division_eq_rest ?_ fun i hi hr => ?_))
    · rw [mem_pool]
      omega
    · rcases mem_rowsOf.mp hr with ht | ⟨hin, p, hp, hptr⟩
      · exact hex ⟨i, hi, ht.symm⟩
      · have := h.clean.sound.region i hin p hp
        omega

-- So are the blocks that it holds.
theorem row_of_not_mem {j p : Nat} (hin : d.InUse j) (hout : j ∉ I) (hp : p < pointers (d.size j)) :
    s.row (d.ptr j p) = d.row (d.ptr j p) := by
  have hreg := h.clean.sound.region j hin p hp
  refine h.row_of_rest hholds (division_eq_rest ?_ fun i hi hr => ?_)
  · rw [mem_pool]
    rintro (hlow | ⟨-, hfree⟩)
    · omega
    · exact hfree (h.clean.sound.used j hin p hp)
  · have hb := tableBlock_bounds (h.lt i hi)
    rcases mem_rowsOf.mp hr with ht | ⟨hini, q, hq, hptr⟩
    · omega
    · obtain ⟨rfl, -⟩ := h.clean.sound.owner i j hini hin q hq p hp hptr
      exact hout hi

/-- The files of the disk are those that the shares hold. -/
theorem files_eq (k : UInt32) : s.files k.toNat = F k := by
  by_cases hk : k.toNat ∈ I
  · obtain ⟨e, U, hst, hrow⟩ := h.exists_stores hholds hk
    exact hst.files_eq hrow
  · have hheld := hholds k
    rw [HoldsFile, if_neg hk] at hheld
    rw [hheld.1]
    refine files_eq_of_intact ?_ fun hin => ⟨h.inode_of_not_mem hholds hin.1 hk,
      fun p hp => h.row_of_not_mem hholds hin hk hp⟩
    unfold Disk.InUse
    refine and_congr_right fun hlt => ?_
    rw [h.inode_of_not_mem hholds hlt hk]

end Together

end Shared

end Division

/-! ## The theorem -/

section Linear

variable {τ : Type}

/-- The calls in the order in which they locked the mutexes of their files. -/
def rwlockOrder (ls : List (FileLabel τ)) : List (τ × FileCall) :=
  ls.filterMap fun l => match l.event with
    | .passed (.lock m) => if m = .rwlock l.call.inum then some (l.thread, l.call) else none
    | _ => none

theorem keyOrder_custody {d : Disk} {I : Finset Nat} (h : Shared d I) (ls : List (FileLabel τ)) :
    keyOrder (custody h) ls = rwlockOrder ls := by
  unfold keyOrder rwlockOrder
  congr 1
  funext l
  cases l.event with
  | passed op => cases op <;> rfl
  | _ => rfl

/-- The files of disk `d`, as the calls name them. -/
def Disk.named (d : Disk) : UInt32 → Option File := fun inum => d.files inum.toNat

variable [DecidableEq τ]

/-- What the threads see of the calls is what they would see if each file were served by its calls
alone, one after the other in the order of `rwlockOrder`; and so are the files, whenever no call is
in progress. -/
structure Linearised (d : Disk) (calls : τ → List FileCall) (ls : List (FileLabel τ))
    (c : FileThreads τ) : Prop where
  begun : ∀ t, entriesOf t (rwlockOrder ls) <+: calls t
  replies : ∀ t, (c.thread t).done.map FileResult.view <+:
    entriesOf t (answersOf FileCall.objects (rwlockOrder ls) d.named)
  returned : (∀ t, (c.thread t).frame = none) → ∀ t,
    entriesOf t (rwlockOrder ls) ++ (c.thread t).todo = calls t ∧
      (c.thread t).done.map FileResult.view =
        entriesOf t (answersOf FileCall.objects (rwlockOrder ls) d.named)
  files : (∀ t, (c.thread t).frame = none) →
    c.store.named = objectsAfter FileCall.objects (rwlockOrder ls) d.named

/-- Calls of `read_file` and `write_file` on files whose records are in different blocks of the table
are linearisable, whatever the interleaving, while there is space for each file to grow and no write
runs into the limits of the loops. -/
theorem linearised_files {d : Disk} {I : Finset Nat} {calls : τ → List FileCall}
    {ls : List (FileLabel τ)} {c : FileThreads τ} (h : Shared d I)
    (hcalls : ∀ t, ∀ call ∈ calls t, call.inum.toNat ∈ I)
    (hrun : Run (Config.start d (fun _ => .init) calls) ls c)
    (hfit : Allowed FileCall.objects FileCall.Fitting (rwlockOrder ls) d.named) :
    Linearised d calls ls c := by
  have horder := keyOrder_custody h ls
  rw [← horder] at hfit
  obtain ⟨horderly, A, hstep⟩ := linearised (D := custody h)
    (fun t call hcall => performs_call call (hcalls t call hcall))
    (fun t call _ => ordered_code call) (fun m => by cases m <;> exact ⟨rfl, rfl, rfl⟩)
    h.fits_division ⟨d, stock_division⟩ h.holds_division hrun hfit
  rw [horder] at hstep
  constructor
  · exact fun t => (hstep.begun t).1
  · exact fun t => (hstep.begun t).2
  · exact fun hnone => (hstep.returned horderly hnone).2
  · exact fun hnone => funext (h.files_eq (hstep.returned horderly hnone).1)

end Linear

/-- The disk with the root and `n` more files, all empty. -/
def emptyFiles : Nat → Disk
  | 0 => madeAt 0
  | n + 1 => (emptyFiles n).setInode (n + 1) (newInode 1 fun _ => 0)

theorem inUse_emptyFiles {n : Nat} (hn : n ≤ 1023) (i : Nat) : (emptyFiles n).InUse i ↔ i ≤ n := by
  induction n generalizing i with
  | zero => rw [emptyFiles, (fresh_madeAt 0).inUse_iff, Nat.le_zero]
  | succ n ih =>
    exact inUse_setInode_next (ih (by omega)) (by omega)
      (show (1 : UInt32).toUInt16.toInt16 ≠ 0 by decide) i

theorem clean_emptyFiles {n : Nat} (hn : n ≤ 1023) : (emptyFiles n).Clean := by
  induction n with
  | zero => exact (fresh_madeAt 0).clean
  | succ n ih =>
    have hin := inUse_emptyFiles (show n ≤ 1023 by omega)
    have hfree : ¬ (emptyFiles n).InUse (n + 1) := by
      rw [hin]
      omega
    have hserved : Served (emptyFiles n) (.create 1 fun _ => 0)
        (.created .ok (UInt32.ofNat (n + 1)).toUInt64) (emptyFiles (n + 1)) :=
      .created (by omega) hfree fun j hj => (hin j).mpr (by omega)
    have hlt : n + 1 < inodeNum := Nat.lt_succ_of_le hn
    have hadmits : (emptyFiles n).files.Admits (.create 1 fun _ => 0) :=
      ⟨n + 1, hlt, files_eq_none hfree⟩
    exact (ih (by omega)).served hadmits hserved

theorem size_emptyFiles {n i : Nat} (hi : i ≤ n) (hn : n ≤ 1023) : (emptyFiles n).size i = 0 := by
  induction n with
  | zero =>
    obtain rfl := Nat.le_zero.mp hi
    rw [Disk.size, emptyFiles, madeAt, inode_setInode_self _ _ (by omega)]
    rfl
  | succ n ih =>
    rw [Disk.size, emptyFiles]
    rcases Nat.eq_or_lt_of_le hi with rfl | hlt
    · rw [inode_setInode_self _ _ (by omega)]
      rfl
    · rw [inode_setInode_ne _ _ (by omega)]
      exact ih (by omega) (by omega)

theorem blocks_emptyFiles {n : Nat} (hn : n ≤ 1023) : (emptyFiles n).files.blocks = 0 := by
  refine Finset.sum_eq_zero fun i _ => ?_
  by_cases hin : (emptyFiles n).InUse i
  · rw [heldCount_files hin, size_emptyFiles ((inUse_emptyFiles hn i).mp hin) hn]
    rfl
  · rw [files_eq_none hin]
    rfl

theorem shared_emptyFiles : Shared (emptyFiles 9) {0, 9} where
  clean := clean_emptyFiles (by omega)
  lt := by decide
  tables := by decide
  space := by
    rw [blocks_emptyFiles (by omega)]
    decide

/-- One thread writes to file 9, another writes to the root and reads it. -/
def writeBoth : Bool → List FileCall
  | false => [.write 9 (fun _ => 66) 600 fun _ _ => 0]
  | true => [.write 0 (fun _ => 65) 1 fun _ _ => 0, .read 0 true true 5 fun _ _ => 0]

/-- File 9 is written while a chunk of the root is. -/
theorem linearised_files_two : ∃ ls c,
    Run (Config.start (emptyFiles 9) (fun _ => .init) writeBoth : FileThreads Bool) ls c ∧
      c.Finished ∧ Linearised (emptyFiles 9) writeBoth ls c := by
  have hfollow :
      ((Config.start (emptyFiles 9) (fun _ => .init) writeBoth : FileThreads Bool).follow
        (fun _ _ => true)
        (List.replicate 54 true ++ List.replicate 80 false ++ List.replicate 31 true)).any (fun r =>
          r.2.bothReturned && decide (Allowed FileCall.objects FileCall.Fitting (rwlockOrder r.1)
            (emptyFiles 9).named)) = true := by decide +kernel
  obtain ⟨⟨ls, c⟩, hls, hc⟩ := Option.any_eq_true .. |>.mp hfollow
  obtain ⟨hreturned, hfit⟩ := Bool.and_eq_true_iff.mp hc
  have hrun : Run _ ls c := (RunWhere.nil.follow (fun _ _ _ => trivial) hls).run
  refine ⟨ls, c, hrun, Config.finished_of_bothReturned hreturned,
    linearised_files shared_emptyFiles ?_ hrun (of_decide_eq_true hfit)⟩
  rintro (_ | _) call hcall
  · rw [List.mem_singleton.mp hcall]
    decide
  · rcases List.mem_pair.mp hcall with rfl | rfl <;> decide

end InodeFs
