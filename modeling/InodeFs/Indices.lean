import InodeFs.Loads
import InodeFs.Removal

/-!
# The indices into `blocks` and into the indirect block

`ino->blocks` has nine elements, of which the last is no direct slot, and an indirect block has 128.
The loops stay inside for most sizes: the direct section of the write loop comes to index 8 at the
sizes just above its limit, and the extra entry of the shrink loop and of the remove loop lies behind
the block when the entries before it fill the block.
-/

namespace InodeFs

open BlockLayer InodeLayer Prog Disk

/-! ## Accesses inside the arrays -/

/-- The accesses to an element that the array does not have. -/
def strayAt : Action → Option (ArrayName × Nat)
  | .stray a i => some (a, i)
  | _ => none

/-- Whatever uninitialised memory holds, no access of `p` on disk `d` is to an element that
`ino->blocks`, the entries of an indirect block or `final_indirect_block` does not have. -/
def StaysInside {α : Type} (p : FsM α) (d : Disk) : Prop := Within (S := FsSig) (Unselected strayAt) p d

/-- In the rounds of the write loop that are in the direct section, `index` is at most 7. -/
def WriteIndexDirect (ino : Inode) (buf : Mem) (s : Nat) : Prop :=
  ∀ k < chunks s, ∀ final j d w j' d',
    writeRounds buf s (asInt ino.size) k (writeStart ino s final) j d = some (w, j', d') →
      w.numBytesAlreadyWritten < 8 * blockSize → w.index < nDirect

/-- The same for the read loop. -/
def ReadIndexDirect (ino : Inode) (b : Block) (s : Nat) : Prop :=
  ∀ k < chunks s, ∀ m j d r j' d', readRounds ino b k (readStart m s) j d = some (r, j', d') →
    r.numBytesAlreadyRead < 8 * blockSize → r.index < nDirect

/-- All indices of a write of `s` bytes are in bounds. -/
def WriteInBounds (d : Disk) (inum : UInt32) (buf : Mem) (s : Nat) : Prop :=
  StaysInside (writeFile inum buf s) d ∧ WriteIndexDirect (d.inode inum.toNat) buf s

/-- All indices of a read are in bounds. -/
def ReadInBounds (d : Disk) (inum : UInt32) : Prop :=
  (∀ bufOut size now, StaysInside (readFile inum bufOut size now) d) ∧
    ∀ b, ReadIndexDirect (d.inode inum.toNat) b (d.size inum.toNat)

/-- All indices of a remove are in bounds. -/
def RemoveInBounds (d : Disk) (inum : UInt32) : Prop := StaysInside (removeFile inum) d

/-! ## Programs that stay inside -/

section Inside
variable {α : Type}

/-- `p` makes no access outside the arrays, whatever it reads. -/
abbrev Inside (p : FsM α) : Prop := Yields (S := FsSig) strayAt p []

theorem inside_freshMem : Inside freshMem := .perform _

theorem inside_freshBlock : Inside freshBlock := inside_freshMem.seq fun _ => .ret _

theorem inside_readDisk (id : UInt32) (b : Block) : Inside (readDisk id b) := .perform _

theorem inside_writeDisk (who : Caller) (id : UInt32) (b : Block) : Inside (writeDisk who id b) :=
  .perform _

theorem inside_readerEnter (inum : UInt32) : Inside (Rwlock.readerEnter inum) :=
  fun l => (List.append_nil l).symm

theorem inside_readerExit (inum : UInt32) : Inside (Rwlock.readerExit inum) :=
  fun l => (List.append_nil l).symm

theorem inside_writerEnter (inum : UInt32) : Inside (Rwlock.writerEnter inum) :=
  fun l => (List.append_nil l).symm

theorem inside_writerExit (inum : UInt32) : Inside (Rwlock.writerExit inum) :=
  fun l => (List.append_nil l).symm

theorem inside_lock (m : Mutex) : Inside (lock m) := fun l => (List.append_nil l).symm

theorem inside_unlock (m : Mutex) : Inside (unlock m) := fun l => (List.append_nil l).symm

theorem inside_freeBlock (id : UInt32) : Inside (freeBlock id) :=
  (inside_lock _).seq fun _ => inside_freshBlock.seq fun _ => (inside_readDisk _ _).seq fun _ =>
    (inside_writeDisk _ _ _).seq fun _ => inside_unlock _

theorem inside_allocBlock : Inside allocBlock := by
  have hscan : ∀ n id, Inside (allocScan n id) := by
    intro n
    induction n with
    | zero => exact fun _ => (inside_unlock _).seq fun _ => .ret _
    | succ n ih =>
      intro id
      rw [allocScan]
      refine inside_freshBlock.seq fun _ => (inside_readDisk _ _).seq fun b => ?_
      simp only
      split
      · exact ih (id + 1)
      · exact (inside_writeDisk _ _ _).seq fun _ => (inside_unlock _).seq fun _ => .ret _
  exact (inside_lock _).seq fun _ => hscan _ _

theorem inside_getInode (inum : UInt32) : Inside (getInode inum) := by
  unfold getInode
  split
  · exact .ret _
  · refine inside_freshBlock.seq fun _ => (inside_readDisk _ _).seq fun b => ?_
    simp only
    split <;> exact .ret _

theorem inside_putInode (inum : UInt32) (ino : Inode) : Inside (putInode inum ino) := by
  unfold putInode
  split
  · exact .ret _
  · exact inside_freshBlock.seq fun _ => (inside_readDisk _ _).seq fun _ => inside_writeDisk _ _ _

/-- What a load of entry `i` of an indirect block makes of such accesses. -/
def strayEntry (i : Nat) : List (ArrayName × Nat) := if i < 128 then [] else [(.indirectEntries, i)]

theorem yields_entry (b : Block) (i : Nat) :
    Yields (S := FsSig) strayAt (entry b i) (strayEntry i) := by
  rw [entry, strayEntry]
  split
  · exact .ret _
  · exact Yields.andThen (.perform (S := FsSig) (Action.stray .indirectEntries i)) fun _ => .ret _

theorem inside_chunkBuffer (buf : Mem) (w : WriteState) : Inside (chunkBuffer buf w) :=
  inside_freshBlock.seq fun _ => .ret _

theorem inside_newBlock (buf : Mem) (w : WriteState) : Inside (newBlock buf w) :=
  (inside_chunkBuffer buf w).seq fun _ => inside_allocBlock.seq fun _ => .ret _

theorem inside_oldBlock (buf : Mem) (w : WriteState) : Inside (oldBlock buf w) :=
  inside_freshBlock.seq fun _ => (inside_readDisk _ _).seq fun _ =>
    (inside_chunkBuffer buf w).seq fun _ => .ret _

theorem inside_allocIndirect (w : WriteState) : Inside (allocIndirect w) := by
  unfold allocIndirect
  split
  · exact inside_allocBlock.seq fun _ => .ret _
  · exact .ret _

theorem inside_storeChunk (next : UInt32 → WriteState) (x : UInt32 × Block) :
    Inside (storeChunk next x) := (inside_writeDisk _ _ _).seq fun _ => .ret _

theorem inside_writeStep (buf : Mem) {s k : Nat} (old : Int) {w : WriteState} (hs : s ≤ 69632)
    (hk : k < chunks s) (h : AtWrite s k w) : Inside (writeStep buf s old w) := by
  rw [writeStep_eq buf (h.index_lt hk) (h.lt_indirect hs (lt_chunks_iff.mp hk))]
  split
  · exact (inside_newBlock buf w).seq (inside_storeChunk _)
  · split
    · exact (inside_allocIndirect w).seq fun w' =>
        (inside_newBlock buf w').seq (inside_storeChunk _)
    · split
      · exact (inside_newBlock buf w).seq (inside_storeChunk _)
      · exact (inside_oldBlock buf w).seq (inside_storeChunk _)

end Inside

/-! ## Writing -/

section Write
variable {s old : Nat}

-- The loads of `n` entries from `i` on.
theorem strayEntries_eq_nil_iff {i n : Nat} :
    (List.range' i n).flatMap strayEntry = [] ↔ n = 0 ∨ i + n ≤ 128 := by
  simp only [List.flatMap_eq_nil_iff, List.mem_range'_1, strayEntry, ite_eq_left_iff,
    List.cons_ne_nil, imp_false, not_not]
  constructor
  · intro h
    by_cases hn : n = 0
    · exact .inl hn
    · have := h (i + n - 1) (by omega)
      omega
  · intro h x hx
    omega

theorem yields_freeEntries (b : Block) (xs : List Nat) :
    Yields (S := FsSig) strayAt (freeEntries b xs) (xs.flatMap strayEntry) := by
  induction xs with
  | nil => exact .ret ()
  | cons x xs ih =>
    exact (yields_entry b x).bind fun id => (inside_freeBlock id).seq fun _ => ih

-- The loop itself stays inside, and ends with the variables that `AtWrite` says.
theorem inside_writeLoop (ino : Inode) (buf : Mem) (hs : s ≤ 69632) (l : List (ArrayName × Nat)) :
    Follows (S := FsSig) (collects strayAt) (writeLoop ino buf s)
      (fun w l' => AtWrite s (chunks s) w ∧ l' = l) l := by
  have hfree : Inside (forLoop (fun x => freeBlock (ino.block x)) 0 8) :=
    Yields.forLoop (fun x => inside_freeBlock (ino.block x)) 0 8
  refine Follows.bind ((hfree l).mono fun _ l₁ hl₁ => ?_)
  rw [List.append_nil] at hl₁
  subst hl₁
  refine Follows.bind ((inside_freshBlock l₁).mono fun final l₂ hl₂ => ?_)
  rw [List.append_nil] at hl₂
  subst hl₂
  refine Follows.whileLoop_done (I := fun w l' => (∃ k ≤ chunks s, AtWrite s k w) ∧ l' = l₂)
    (fun w => w.remainingBytesToWrite.toNat) ?_ le_rfl ?_ ?_ ?_
  · exact ⟨⟨0, Nat.zero_le _, atWrite_start ino s final⟩, rfl⟩
  · intro w hpos
    rw [decide_eq_true_eq] at hpos
    omega
  · rintro w l' ⟨⟨k, hk, hat⟩, rfl⟩ hpos
    have hrem := hat.remaining
    rw [decide_eq_true_eq] at hpos
    have hlt : k < chunks s := lt_chunks_iff.mpr (by omega)
    have hinside := inside_writeStep buf (asInt ino.size) hs hlt hat
    refine (collects_and (stores_writeStep buf _ hs hlt hat) (hinside l')).mono fun w' l'' h => ?_
    obtain ⟨rfl, -, hat', -⟩ := h
    have hrem' := hat'.remaining
    exact ⟨⟨⟨k + 1, hlt, hat'⟩, List.append_nil _⟩, by omega⟩
  · rintro w l' ⟨⟨k, hk, hat⟩, rfl⟩ hdone
    have hrem := hat.remaining
    rw [decide_eq_false_iff_not] at hdone
    have heq : k = chunks s := by
      have := chunks_le_iff (s := s) (n := k)
      omega
    exact ⟨heq ▸ hat, rfl⟩

/-- The accesses outside the arrays of a write of `s` bytes to a file of `old` bytes. -/
def writeStrays (s old : Nat) : List (ArrayName × Nat) :=
  if 4608 ≤ s ∧ s < old then (List.range' (chunks s - 8) (chunks (old - s))).flatMap strayEntry
  else []

theorem writeStrays_eq_nil_iff :
    writeStrays s old = [] ↔ (4608 ≤ s → s < old → chunks s + chunks (old - s) ≤ 136) := by
  rw [writeStrays]
  by_cases h : 4608 ≤ s ∧ s < old
  · rw [if_pos h, strayEntries_eq_nil_iff]
    have hn : 8 < chunks s := lt_chunks_iff.mpr (by omega)
    have hsteps : 0 < chunks (old - s) := lt_chunks_iff.mpr (by omega)
    constructor
    · intro hle _ _
      omega
    · intro hle
      have := hle h.1 h.2
      omega
  · rw [if_neg h]
    exact iff_of_true rfl fun hlo hlt => absurd ⟨hlo, hlt⟩ h

theorem yields_writeEnd {ino : Inode} {w : WriteState} (hold : asInt ino.size = old)
    (h : AtWrite s (chunks s) w) :
    Yields (S := FsSig) strayAt (writeEnd ino s w) (writeStrays s old) := by
  have hshrinks : Shrinks ino s w ↔ 4608 ≤ s ∧ s < old := by
    have hn := lt_chunks_iff (s := s) (n := 8)
    rw [Shrinks, h.need, hold, Bool.and_eq_true, decide_eq_true_eq, decide_eq_true_eq]
    omega
  -- what comes after the shrink loop
  have hlast : Inside (do
      if (s : Int) ≤ 8 * blockSize then
        freeBlock (w.ino.block 8)
      pure (w.ino.setSize (UInt32.ofNat s)) : FsM Inode) := by
    simp only
    split
    · exact (inside_freeBlock _).seq fun _ => .ret _
    · exact .ret _
  have hstore : Inside (do
      if w.needToOverwriteIndirect then
        writeBlock .writeFile (w.ino.block 8) w.finalIndirectBlock
      if (s : Int) ≤ 8 * blockSize then
        freeBlock (w.ino.block 8)
      pure (w.ino.setSize (UInt32.ofNat s)) : FsM Inode) := by
    simp only
    split
    · exact (inside_writeDisk _ _ _).seq fun _ => hlast
    · exact hlast
  rw [writeEnd, writeStrays]
  by_cases hs : Shrinks ino s w
  · simp only [if_pos hs, if_pos (hshrinks.mp hs)]
    have hind := h.indirectIndex
    rw [if_pos (hshrinks.mp hs).1] at hind
    have hload : Inside (loadIndirect w) := inside_freshBlock.seq fun _ => inside_readDisk _ _
    refine hload.seq fun b => ?_
    have hsub : asInt ino.size - s = (old - s : Nat) := by
      have := hshrinks.mp hs
      omega
    obtain ⟨v, hv⟩ := shrinkLoop_eq b w.indirectIndex (old - s)
    rw [hsub, hv, hind, Prog.bind_assoc]
    exact (yields_freeEntries b _).andThen fun _ => hstore
  · simp only [if_neg hs, if_neg (mt hshrinks.mpr hs)]
    exact hstore

variable {d : Disk} {inum : UInt32} {buf : Mem}

theorem lists_writeFile (hin : d.InUse inum.toNat) (hold : d.size inum.toNat ≤ 69632)
    (hs : s ≤ 69632) : Lists strayAt (writeFile inum buf s) d fun _ _ l =>
      l = writeStrays s (d.size inum.toNat) := by
  have hint : asInt (d.inode inum.toNat).size = (d.size inum.toNat : Int) :=
    asInt_of_lt (by change d.size inum.toNat < _; omega)
  have hblocks : Yields (S := FsSig) strayAt (writeBlocks (d.inode inum.toNat) buf s)
      (writeStrays s (d.size inum.toNat)) := by
    intro l
    rw [writeBlocks_eq]
    refine Follows.bind ((inside_writeLoop _ buf hs l).mono fun w l' h => ?_)
    rw [h.2]
    exact yields_writeEnd hint h.1 l
  rw [writeFile, if_neg (not_refused (size_bounds hs))]
  refine .seq (inside_writerEnter inum) ((wp_writerEnter _ _ _).mpr ?_)
  refine .seq (inside_getInode inum) ((wp_getInode _ _ _).mpr ?_)
  rw [lookup_eq_some hin]
  refine .last (hblocks.andThen fun ino => ?_) fun _ _ => rfl
  exact (inside_putInode inum ino).seq fun _ => inside_writerExit inum

theorem staysInside_writeFile_iff (hin : d.InUse inum.toNat) (hold : d.size inum.toNat ≤ 69632)
    (hs : s ≤ 69632) : StaysInside (writeFile inum buf s) d ↔
      (4608 ≤ s → s < d.size inum.toNat → chunks s + chunks (d.size inum.toNat - s) ≤ 136) := by
  rw [← writeStrays_eq_nil_iff]
  refine within_iff (lists_writeFile hin hold hs)
    ((wp_writeFile_accepted hin (size_bounds hs)).mpr ?_)
  exact wp_mono (plain_returns (plain_writeBlocks _ buf s) d) fun _ _ _ => trivial

-- The last round of the direct section is that of chunk 7, or that of the last chunk.
theorem writeIndexDirect_iff (ino : Inode) (hs : s ≤ 69632) :
    WriteIndexDirect ino buf s ↔ ¬ (4096 < s ∧ s < 4608) := by
  constructor
  · rintro h ⟨hlo, hhi⟩
    have hk : 8 < chunks s := lt_chunks_iff.mpr (by omega)
    obtain ⟨w, j, d, hrun, hat, -⟩ := exists_writeRounds ino buf (asInt ino.size) (fun _ => 0) hs
      hk.le (fun _ _ => 0) Disk.init
    have hlt : w.index < 8 := h 8 hk _ _ _ w j d hrun (hat.direct_iff.mpr (.inr hhi))
    rw [hat.index] at hlt
    omega
  · intro hno k hk final j d w j' d' hrun hdir
    have hat := (of_writeRounds hs hk.le hrun).1
    have hbytes := lt_chunks_iff.mp hk
    have hcase := hat.direct_iff.mp hdir
    rw [hat.index]
    change k < 8
    omega

theorem writeInBounds_iff (hin : d.InUse inum.toNat) (hold : d.size inum.toNat ≤ 69632)
    (hs : s ≤ 69632) : WriteInBounds d inum buf s ↔ ¬ (4096 < s ∧ s < 4608) ∧
      (4608 ≤ s → s < d.size inum.toNat → chunks s + chunks (d.size inum.toNat - s) ≤ 136) := by
  rw [WriteInBounds, staysInside_writeFile_iff hin hold hs, writeIndexDirect_iff _ hs, and_comm]

end Write

/-! ## Reading and removing -/

section ReadRemove
variable {d : Disk} {inum : UInt32}

theorem inside_readLoop (ino : Inode) (b : Block) (m : Mem) {s : Nat} (hs : s ≤ 69632) :
    Inside (whileLoop (fun r => decide (r.remainingBytesToBeRead > 0)) (readStep ino b) s
      ⟨m, s, 0, 0, 0⟩) := by
  have h := yields_readLoop (f := strayAt) (fun _ => []) ino b m hs fun k =>
    inside_freshBlock.seq fun _ => inside_readDisk _ _
  rwa [List.flatMap_eq_nil_iff.mpr fun _ _ => rfl] at h

theorem staysInside_readFile (hold : d.InUse inum.toNat → d.size inum.toNat ≤ 69632)
    (bufOut size : Bool) (now : UInt32) : StaysInside (readFile inum bufOut size now) d := by
  have hnone : Inside (do
      Rwlock.readerExit inum
      pure none : FsM (Option ReadResult)) := (inside_readerExit inum).seq fun _ => .ret _
  refine Within.bind (.of_yields (inside_readerEnter inum) d) ((wp_readerEnter _ _ _).mpr ?_)
  split
  · exact .of_yields hnone d
  · refine Within.bind (.of_yields (inside_getInode inum) d) ((wp_getInode _ _ _).mpr ?_)
    by_cases hin : d.InUse inum.toNat
    · rw [lookup_eq_some hin]
      have hint : asInt ((d.inode inum.toNat).setAtime now).size = (d.size inum.toNat : Int) := by
        change asInt (d.inode inum.toNat).size = _
        exact asInt_of_lt (Nat.lt_of_le_of_lt (hold hin) (by omega))
      refine .of_yields ((inside_putInode inum _).seq fun _ => ?_) d
      simp only [hint, Int.toNat_natCast]
      exact inside_freshMem.seq fun m => inside_freshBlock.seq fun _ =>
        (inside_readDisk _ _).seq fun b => (inside_readLoop _ b m (hold hin)).seq fun _ =>
          (inside_readerExit inum).seq fun _ => .ret _
    · rw [lookup_eq_none hin]
      exact .of_yields hnone d

theorem readIndexDirect (ino : Inode) (b : Block) {s : Nat} (hs : s ≤ 69632) :
    ReadIndexDirect ino b s := by
  intro k hk m j d r j' d' hrun hdir
  obtain ⟨r₁, j₁, d₁, hrun₁, hat⟩ := exists_readRounds ino b m hs hk.le j d
  obtain ⟨rfl, -⟩ : r = r₁ ∧ (j', d') = (j₁, d₁) :=
    Prod.mk.inj (Option.some.inj (hrun.symm.trans hrun₁))
  rw [hat.index]
  exact (hat.direct_iff (lt_chunks_iff.mp hk)).mp hdir

theorem readInBounds (hold : d.size inum.toNat ≤ 69632) : ReadInBounds d inum :=
  ⟨staysInside_readFile fun _ => hold, fun b => readIndexDirect _ b hold⟩

/-- `remove_file` up to the call of `free_inode`, which it makes for an inode in use. -/
def removeBlocks (inum : UInt32) : FsM Bool := do
  let ino ← getInode inum
  match ino with
  | none => pure false
  | some ino =>
      forLoop (fun x => freeBlock (ino.block x)) 0 8
      let currentSize := asInt ino.size - 8 * blockSize
      if currentSize > 0 then do
        let indirectBuffer ← freshBlock
        let indirectBuffer ← readBlock (ino.block 8) indirectBuffer
        forLoop (fun x => do
          let id ← entry indirectBuffer x
          freeBlock id) 0 (currentSize.tdiv blockSize + 1).toNat
        freeBlock (ino.block 8)
      pure true

theorem removeFile_eq (inum : UInt32) :
    removeFile inum = removeBlocks inum >>= fun found => if found then freeInode inum else pure () := by
  rw [removeFile, removeBlocks, Prog.bind_assoc]
  refine bind_congr fun ino => ?_
  cases ino with
  | none => rfl
  | some ino =>
    simp only
    split <;> simp only [Prog.bind_assoc, pure_eq, ret_bind, if_true]

/-- The accesses outside the arrays when a file of `s` bytes is removed. -/
def removeStrays (s : Nat) : List (ArrayName × Nat) :=
  if 4096 < s then
    (List.range' 0 (chunks s - 8 + if s % 512 = 0 then 1 else 0)).flatMap strayEntry
  else []

theorem removeStrays_eq_nil_iff {s : Nat} (hs : s ≤ 69632) : removeStrays s = [] ↔ s ≠ 69632 := by
  rw [removeStrays]
  split
  · rw [strayEntries_eq_nil_iff]
    unfold chunks
    split <;> omega
  · exact iff_of_true rfl (by omega)

theorem lists_removeBlocks (hin : d.InUse inum.toNat) (hold : d.size inum.toNat ≤ 69632) :
    Lists strayAt (removeBlocks inum) d fun _ _ l => l = removeStrays (d.size inum.toNat) := by
  have hint : asInt (d.inode inum.toNat).size = (d.size inum.toNat : Int) :=
    asInt_of_lt (by change d.size inum.toNat < _; omega)
  have hdirect : Inside (forLoop (fun x => freeBlock ((d.inode inum.toNat).block x)) 0 8) :=
    Yields.forLoop (fun x => inside_freeBlock _) 0 8
  refine .seq (inside_getInode inum) ((wp_getInode _ _ _).mpr ?_)
  rw [lookup_eq_some hin]
  refine .last (hdirect.seq fun _ => ?_) fun _ _ => rfl
  simp only [hint, removeStrays]
  by_cases hs : 4096 < d.size inum.toNat
  · rw [if_pos hs, if_pos (by simp only [blockSize]; omega), numIndirectBlocks_toNat hs]
    refine inside_freshBlock.seq fun _ => Yields.seq (inside_readDisk _ _) fun b => ?_
    refine (Yields.forLoop (fun x => ?_) _ _).andThen fun _ =>
      (inside_freeBlock _).seq fun _ => .ret _
    exact (yields_entry b x).andThen inside_freeBlock
  · rw [if_neg hs, if_neg (by simp only [blockSize]; omega)]
    exact .ret _

theorem plain_removeBlocks (inum : UInt32) : Plain (removeBlocks inum) := by
  refine (plain_getInode inum).bind fun ino => ?_
  cases ino with
  | none => exact .ret _
  | some ino =>
    refine (Plain.forLoop (fun x => plain_freeBlock _) 0 8).bind fun _ => ?_
    simp only
    split
    · refine plain_freshBlock.bind fun _ => Plain.bind (plain_readDisk _ _) fun b => ?_
      have hloop := Plain.forLoop fun x => (plain_entry b x).bind plain_freeBlock
      exact (hloop _ _).bind fun _ => (plain_freeBlock _).bind fun _ => .ret _
    · exact .ret _

-- Whether `free_inode` finds the inode or not, it stays inside.
theorem staysInside_freeInode (inum : UInt32) (d : Disk) : StaysInside (freeInode inum) d := by
  refine Within.seq (.of_yields (inside_getInode inum) d) fun ino e => ?_
  cases ino with
  | none => exact fun _ _ hx => absurd hx List.not_mem_nil
  | some ino => exact .of_yields (inside_putInode inum _) e

theorem removeInBounds_iff (hin : d.InUse inum.toNat) (hold : d.size inum.toNat ≤ 69632) :
    RemoveInBounds d inum ↔ d.size inum.toNat ≠ 69632 := by
  have hends : wp (removeBlocks inum) (fun _ _ => True) d :=
    wp_mono (plain_returns (plain_removeBlocks inum) d) fun _ _ _ => trivial
  rw [← removeStrays_eq_nil_iff hold, RemoveInBounds, removeFile_eq]
  refine within_bind_iff (lists_removeBlocks hin hold) hends fun found e => ?_
  cases found with
  | false => exact .ret () e
  | true => exact staysInside_freeInode inum e

end ReadRemove

section Exact
variable {d : Disk} {inum : UInt32} {buf : Mem} {s : Nat}

/-- All indices are in bounds just when the new size is not one of those just above the direct limit,
the entries past the end of the new file are in the indirect block, and the old file is not of the
greatest size. -/
theorem inBounds_iff (hin : d.InUse inum.toNat) (hold : d.size inum.toNat ≤ blockSize * maxFile)
    (hs : s ≤ blockSize * maxFile) :
    WriteInBounds d inum buf s ∧ ReadInBounds d inum ∧ RemoveInBounds d inum ↔
      ¬ (4096 < s ∧ s < 4608) ∧
      (4608 ≤ s → s < d.size inum.toNat → chunks s + chunks (d.size inum.toNat - s) ≤ 136) ∧
      d.size inum.toNat ≠ 69632 := by
  simp only [blockSize, maxFile, nDirect, nIndirect] at hold hs
  rw [writeInBounds_iff hin hold hs, removeInBounds_iff hin hold]
  have hread := readInBounds hold
  tauto

end Exact

/-- Ten chunks, and sixteen after the write. -/
theorem inBounds_iff_put : ∃ d, d.size 0 = 5000 ∧ WriteInBounds d 0 (fun _ => 0) 8192 ∧
    ReadInBounds d 0 ∧ RemoveInBounds d 0 := by
  obtain ⟨d, -, hin, hsize⟩ := exists_root_of_size (n := 5000) ⟨by decide, by omega⟩
  have hroot : d.InUse (0 : UInt32).toNat := hin
  refine ⟨d, hsize, (inBounds_iff hroot ?_ (by decide)).mpr ?_⟩
  · rw [UInt32.toNat_zero, hsize]
    decide
  · rw [UInt32.toNat_zero, hsize]
    omega

/-- The removal of a file of the greatest size loads entry 128. -/
theorem not_inBounds_greatest : ¬ ∀ d, Reachable d → ∀ inum : UInt32, d.InUse inum.toNat →
    d.size inum.toNat ≤ blockSize * maxFile → ∀ buf s, s ≤ blockSize * maxFile →
      WriteInBounds d inum buf s ∧ ReadInBounds d inum ∧ RemoveInBounds d inum := by
  intro h
  obtain ⟨d, hd, hin, hsize⟩ := exists_root_of_size (n := 69632) ⟨by decide, by omega⟩
  have hsize' : d.size (0 : UInt32).toNat = 69632 := hsize
  have hle : d.size (0 : UInt32).toNat ≤ 69632 := hsize'.le
  have hall := h d hd.reachable 0 hin hle (fun _ => 0) 0 (Nat.zero_le _)
  exact (removeInBounds_iff hin hle).mp hall.2.2 hsize'

end InodeFs
