import InodeFs.Plain
import InodeFs.Rounds

/-!
# Where each chunk lives

`write_file` and `read_file` count bytes to choose between `blocks` and the indirect block.  The
counter of the write loop lags behind in the round of a partial last chunk, which matters when that
is the round of chunk 8.  All of this is read off the text of the loops: it holds on every disk.
-/

namespace InodeFs

open BlockLayer InodeLayer Prog

/-! ## Slots -/

/-- A place for the id of a block: `blocks[i]`, or entry `j` of the indirect block. -/
inductive Slot where
  | direct (i : Nat)
  | indirect (j : Nat)
  deriving DecidableEq

/-- The slot that is meant for chunk `k`. -/
def slotOf (k : Nat) : Slot := if k < 8 then .direct k else .indirect (k - 8)

/-- The id in a slot of a file with record `ino` and indirect block `b`. -/
def Slot.named (ino : Inode) (b : Block) : Slot → UInt32
  | .direct i => ino.block i
  | .indirect j => b.word j

/-- The blocks that `write_file` stores itself. -/
def fileStore : Action → Option (UInt32 × Block)
  | .write .writeFile id b => some (id, b)
  | _ => none

/-- The blocks that are loaded. -/
def blockLoad : Action → Option UInt32
  | .read id _ => some id
  | _ => none

/-! ## The loops and what they promise -/

/-- The write loop after `k` rounds. -/
def writeRounds (buf : Mem) (s : Nat) (old : Int) (k : Nat) (w : WriteState) :
    Junk → Disk → Option (WriteState × Junk × Disk) :=
  rounds (S := FsSig) (fun w => decide (w.remainingBytesToWrite > 0)) (writeStep buf s old) k w

/-- The variables with which `read_file` enters its loop. -/
def readStart (m : Mem) (s : Nat) : ReadState := ⟨m, s, 0, 0, 0⟩

/-- The read loop after `k` rounds. -/
def readRounds (ino : Inode) (b : Block) (k : Nat) (r : ReadState) :
    Junk → Disk → Option (ReadState × Junk × Disk) :=
  rounds (S := FsSig) (fun r => decide (r.remainingBytesToBeRead > 0)) (readStep ino b) k r

/-- The round stores one block, the one that the slot of chunk `k` then names, and it is the chunk. -/
def StoresChunk (buf : Mem) (s : Nat) (old : Int) (k : Nat) (w : WriteState) (j : Junk) (d : Disk) :
    Prop :=
  ∀ w' j' d', (writeStep buf s old w).run j d = some (w', j', d') →
    ∃ b : Block, selected fileStore (trace (writeStep buf s old w) j d) =
        [((slotOf k).named w'.ino w'.finalIndirectBlock, b)] ∧
      ∀ x < 512, 512 * k + x < s → b.byte x = buf (512 * k + x)

/-- The round loads one block, the one that the slot of chunk `k` names, and copies it to the place of
the chunk. -/
def LoadsChunk (ino : Inode) (b : Block) (s k : Nat) (r : ReadState) (j : Junk) (d : Disk) : Prop :=
  ∀ r' j' d', (readStep ino b r).run j d = some (r', j', d') →
    selected blockLoad (trace (readStep ino b r) j d) = [(slotOf k).named ino b] ∧
      ∃ c : Block, r'.buf = copyInto r.buf (512 * k) c (min 512 (s - 512 * k)) ∧
        (((slotOf k).named ino b).toNat < blockNum → c = d.row ((slotOf k).named ino b).toNat)

/-- Whatever the files and the disks are, every chunk of a file of `s` bytes is stored in its slot and
loaded from there. -/
def SlotsAgree (s : Nat) : Prop :=
  ∀ k < chunks s,
    (∀ ino buf old final j d, ∃ w j' d', writeRounds buf s old k (writeStart ino s final) j d =
      some (w, j', d') ∧ StoresChunk buf s old k w j' d') ∧
    ∀ ino b m j d, ∃ r j' d', readRounds ino b k (readStart m s) j d = some (r, j', d') ∧
      LoadsChunk ino b s k r j' d'

/-- In the round of chunk `k` both loops have counted `512 * k` bytes. -/
def CountersAgree (s : Nat) : Prop :=
  ∀ k < chunks s,
    (∀ ino buf old final j d, ∃ w j' d', writeRounds buf s old k (writeStart ino s final) j d =
      some (w, j', d') ∧ w.numBytesAlreadyWritten = (512 * k : Nat)) ∧
    ∀ ino b m j d, ∃ r j' d', readRounds ino b k (readStart m s) j d = some (r, j', d') ∧
      r.numBytesAlreadyRead = (512 * k : Nat)

/-! ## One round of the write loop -/

section Stores
variable {α β : Type} {l : List (UInt32 × Block)}

/-- The rules for listing what `write_file` stores. -/
abbrev stores : Ghost FsSig (List (UInt32 × Block)) := collects fileStore

/-- `p` stores nothing for `write_file`. -/
def Storeless (p : FsM α) : Prop := ∀ l, Follows stores p (fun _ l' => l' = l) l

theorem Storeless.seq {p : FsM α} {f : α → FsM β} {Q : β → List (UInt32 × Block) → Prop}
    (hp : Storeless p) (hf : ∀ a, Follows stores (f a) Q l) : Follows stores (p >>= f) Q l :=
  Follows.bind ((hp l).mono fun a _ h => h ▸ hf a)

theorem storeless_freshBlock : Storeless freshBlock := fun l _ => List.append_nil l

theorem storeless_readDisk (id : UInt32) (b : Block) : Storeless (readDisk id b) :=
  fun l _ => List.append_nil l

/-- The chunk that the next round is about. -/
def NextChunk (buf : Mem) (w : WriteState) (b : Block) : Prop :=
  ∀ x : Nat, x < 512 → (x : Int) < w.remainingBytesToWrite → b.byte x = buf (512 * w.index + x)

theorem stores_chunkBuffer (buf : Mem) (w : WriteState) (l : List (UInt32 × Block)) :
    Follows stores (chunkBuffer buf w) (fun b l' => NextChunk buf w b ∧ l' = l) l := by
  refine storeless_freshBlock.seq fun b => ⟨fun x hx hrem => ?_, rfl⟩
  rw [Block.byte_copyFrom _ _ _ _ hx, if_pos (by simp only [blockSize]; omega)]
  simp only [blockSize, Nat.mul_comm]

-- The id is never 0.
theorem stores_allocBlock (l : List (UInt32 × Block)) :
    Follows stores allocBlock (fun id l' => id ≠ 0 ∧ l' = l) l := by
  have hscan : ∀ n id, 0 < id → id + n = 32768 →
      Follows stores (allocScan n id) (fun id l' => id ≠ 0 ∧ l' = l) l := by
    intro n
    induction n with
    -- `-1`, which is not 0 either
    | zero => exact fun _ _ _ => ⟨by decide, rfl⟩
    | succ n ih =>
      intro id hpos hid
      rw [allocScan]
      refine storeless_freshBlock.seq fun _ => (storeless_readDisk _ _).seq fun b => ?_
      simp only
      split
      · exact ih (id + 1) (by omega) (by omega)
      · refine fun _ => ⟨fun h0 => ?_, List.append_nil l⟩
        have h := congrArg UInt32.toNat h0
        rw [toNat_ofNat (by omega)] at h
        exact absurd h (by simp only [UInt32.toNat_zero]; omega)
  exact hscan _ _ (by decide) (by decide)

theorem stores_newBlock (buf : Mem) (w : WriteState) (l : List (UInt32 × Block)) :
    Follows stores (newBlock buf w) (fun x l' => x.1 ≠ 0 ∧ NextChunk buf w x.2 ∧ l' = l) l := by
  refine Follows.bind ((stores_chunkBuffer buf w l).mono fun b l' hb => ?_)
  obtain ⟨hb, rfl⟩ := hb
  exact Follows.bind ((stores_allocBlock l').mono fun id l'' hid => ⟨hid.1, hb, hid.2⟩)

theorem stores_oldBlock (buf : Mem) (w : WriteState) (l : List (UInt32 × Block)) :
    Follows stores (oldBlock buf w) (fun x l' => NextChunk buf w x.2 ∧ l' = l) l :=
  storeless_freshBlock.seq fun _ => (storeless_readDisk _ _).seq fun _ =>
    Follows.bind (stores_chunkBuffer buf w l)

theorem stores_allocIndirect (w : WriteState) (l : List (UInt32 × Block)) :
    Follows stores (allocIndirect w) (fun w' l' => (∃ ino already, w' = { w with
      ino := ino, alreadyAllocatedIndirect := already }) ∧ l' = l) l := by
  unfold allocIndirect
  split
  · exact Follows.bind ((stores_allocBlock l).mono fun id l' hid => ⟨⟨_, _, rfl⟩, hid.2⟩)
  · exact ⟨⟨_, _, rfl⟩, rfl⟩

-- The one store of the round.
theorem stores_storeChunk (next : UInt32 → WriteState) (x : UInt32 × Block)
    (l : List (UInt32 × Block)) :
    Follows stores (storeChunk next x) (fun w' l' => w' = next x.1 ∧ l' = l ++ [x]) l :=
  fun _ => ⟨rfl, rfl⟩

/-! ## The write loop -/

/-- What the variables of the write loop are after `k` rounds for `s` bytes. -/
structure AtWrite (s k : Nat) (w : WriteState) : Prop where
  index : w.index = k
  remaining : w.remainingBytesToWrite = (s - 512 * k : Nat)
  num : w.numBytesAlreadyWritten = (min (512 * k) (s - 512) : Nat)
  need : w.needToOverwriteIndirect = decide (8 < k ∧ 4608 ≤ s)
  indirectIndex : w.indirectIndex = if 4608 ≤ s then k - 8 else 0

theorem atWrite_start (ino : Inode) (s : Nat) (final : Block) :
    AtWrite s 0 (writeStart ino s final) := by
  refine ⟨rfl, rfl, rfl, ?_, ?_⟩
  · rfl
  · rw [Nat.zero_sub, ite_self]
    rfl

theorem AtWrite.direct_iff {s k : Nat} {w : WriteState} (h : AtWrite s k w) :
    w.numBytesAlreadyWritten < 8 * blockSize ↔ k < 8 ∨ s < 4608 := by
  rw [h.num]
  simp only [blockSize]
  omega

section Next
variable {s k : Nat} {w : WriteState} (h : AtWrite s k w) (hk : 512 * k < s) (id : UInt32)

include h hk

theorem AtWrite.nextDirect (hdir : k < 8 ∨ s < 4608) : AtWrite s (k + 1) (nextDirect w id) := by
  have hindex := h.index
  have hrem := h.remaining
  have hnum := h.num
  have hind := h.indirectIndex
  refine ⟨congrArg (· + 1) hindex, ?_, ?_, ?_, ?_⟩
  · simp only [InodeFs.nextDirect, endRound, hrem, blockSize]
    omega
  · simp only [InodeFs.nextDirect, endRound, hrem, hnum, blockSize]
    omega
  · simp only [InodeFs.nextDirect, endRound]
    rw [h.need, decide_eq_decide]
    omega
  · simp only [InodeFs.nextDirect, endRound, hind]
    split <;> omega

theorem AtWrite.nextIndirect (hno : ¬ (k < 8 ∨ s < 4608)) :
    AtWrite s (k + 1) (nextIndirect w id) := by
  have hindex := h.index
  have hrem := h.remaining
  have hnum := h.num
  have hind := h.indirectIndex
  refine ⟨congrArg (· + 1) hindex, ?_, ?_, ?_, ?_⟩
  · simp only [InodeFs.nextIndirect, endRound, hrem, blockSize]
    omega
  · simp only [InodeFs.nextIndirect, endRound, hrem, hnum, blockSize]
    omega
  · simp only [InodeFs.nextIndirect, endRound]
    rw [eq_comm, decide_eq_true_eq]
    omega
  · simp only [InodeFs.nextIndirect, endRound, hind]
    split <;> omega

end Next

-- The direct section goes on to chunk 8 when that is the last one.
theorem AtWrite.index_lt {s k : Nat} {w : WriteState} (h : AtWrite s k w) (hk : k < chunks s)
    (hdir : w.numBytesAlreadyWritten < 8 * blockSize) : w.index < 9 := by
  have hlt := lt_chunks_iff.mp hk
  have := h.direct_iff.mp hdir
  rw [h.index]
  omega

theorem AtWrite.lt_indirect {s k : Nat} {w : WriteState} (h : AtWrite s k w) (hs : s ≤ 69632)
    (hk : 512 * k < s) : w.indirectIndex < 128 := by
  rw [h.indirectIndex]
  split <;> omega

/-- The id and the block that the round for chunk `k` stores. -/
inductive StoredIn (s k : Nat) (w w' : WriteState) (id : UInt32) : Prop where
  | direct (hdir : k < 8 ∨ s < 4608) (hid : id ≠ 0) (hino : w'.ino = w.ino.setBlock k id)
      (hfinal : w'.finalIndirectBlock = w.finalIndirectBlock)
  | indirect (hk : 8 ≤ k) (hs : 4608 ≤ s)
      (hfinal : w'.finalIndirectBlock = w.finalIndirectBlock.setWord (k - 8) id)

theorem stores_writeStep (buf : Mem) {s k : Nat} (old : Int) {w : WriteState} (hs : s ≤ 69632)
    (hk : k < chunks s) (h : AtWrite s k w) :
    Follows stores (writeStep buf s old w) (fun w' l => AtWrite s (k + 1) w' ∧
      ∃ id b, l = [(id, b)] ∧ StoredIn s k w w' id ∧
        ∀ x < 512, 512 * k + x < s → b.byte x = buf (512 * k + x)) [] := by
  have hlt := lt_chunks_iff.mp hk
  have hchunk : ∀ b, NextChunk buf w b →
      ∀ x < 512, 512 * k + x < s → b.byte x = buf (512 * k + x) := fun b hb x hx hxs => by
    rw [← h.index]
    exact hb x hx (by rw [h.remaining]; omega)
  have h128 := h.lt_indirect hs hlt
  rw [writeStep_eq buf (h.index_lt hk) h128]
  by_cases hdir : k < 8 ∨ s < 4608
  · rw [if_pos (h.direct_iff.mpr hdir)]
    refine Follows.bind ((stores_newBlock buf w []).mono fun x l hx => ?_)
    obtain ⟨hid, hb, rfl⟩ := hx
    refine (stores_storeChunk _ x []).mono fun w' l hw' => ?_
    obtain ⟨rfl, rfl⟩ := hw'
    refine ⟨h.nextDirect hlt _ hdir, x.1, x.2, rfl, .direct hdir hid ?_ rfl, hchunk _ hb⟩
    simp only [nextDirect, endRound, h.index]
  · rw [if_neg (mt h.direct_iff.mp hdir)]
    -- the indirect section takes the id, whatever block it is of
    have hend : ∀ ino already (x : UInt32 × Block), NextChunk buf w x.2 →
        Follows stores (storeChunk (nextIndirect { w with
          ino := ino, alreadyAllocatedIndirect := already }) x) (fun w' l => AtWrite s (k + 1) w' ∧
            ∃ id b, l = [(id, b)] ∧ StoredIn s k w w' id ∧
              ∀ x < 512, 512 * k + x < s → b.byte x = buf (512 * k + x)) [] := by
      intro ino already x hb
      refine (stores_storeChunk _ x []).mono fun w' l hw' => ?_
      obtain ⟨rfl, rfl⟩ := hw'
      have hat : AtWrite s k { w with ino := ino, alreadyAllocatedIndirect := already } :=
        ⟨h.index, h.remaining, h.num, h.need, h.indirectIndex⟩
      refine ⟨hat.nextIndirect hlt _ hdir, x.1, x.2, rfl, ?_, hchunk _ hb⟩
      refine .indirect (by omega) (by omega) ?_
      have hind := h.indirectIndex
      rw [if_pos (by omega)] at hind
      simp only [nextIndirect, endRound, hind]
    split
    · refine Follows.bind ((stores_allocIndirect w []).mono fun w₁ l hw₁ => ?_)
      obtain ⟨⟨ino, already, rfl⟩, rfl⟩ := hw₁
      refine Follows.bind ((stores_newBlock buf _ []).mono fun x l hx => ?_)
      obtain ⟨-, hb, rfl⟩ := hx
      exact hend ino already x hb
    · split
      · refine Follows.bind ((stores_newBlock buf w []).mono fun x l hx => ?_)
        obtain ⟨-, hb, rfl⟩ := hx
        exact hend w.ino w.alreadyAllocatedIndirect x hb
      · refine Follows.bind ((stores_oldBlock buf w []).mono fun x l hx => ?_)
        obtain ⟨hb, rfl⟩ := hx
        exact hend w.ino w.alreadyAllocatedIndirect x hb

-- The loop comes to every chunk.
theorem exists_writeRounds (ino : Inode) (buf : Mem) {s k : Nat} (old : Int) (final : Block)
    (hs : s ≤ 69632) (hk : k ≤ chunks s) (j : Junk) (d : Disk) :
    ∃ w j' d', writeRounds buf s old k (writeStart ino s final) j d = some (w, j', d') ∧
      AtWrite s k w ∧ (k ≤ 8 → w.finalIndirectBlock = final) := by
  have hbody : ∀ k' (w : WriteState) (e : Disk), k' < 0 + k →
      (AtWrite s k' w ∧ (k' ≤ 8 → w.finalIndirectBlock = final)) →
      decide (w.remainingBytesToWrite > 0) = true ∧ wp (writeStep buf s old w)
        (fun w' _ => AtWrite s (k' + 1) w' ∧ (k' + 1 ≤ 8 → w'.finalIndirectBlock = final)) e := by
    intro k' w e hk' hw
    have hlt : k' < chunks s := by omega
    constructor
    · rw [decide_eq_true_eq, hw.1.remaining]
      have := lt_chunks_iff.mp hlt
      omega
    · refine wp_mono (wp_of_collects (stores_writeStep buf old hs hlt hw.1) e) fun w' _ h => ?_
      obtain ⟨_, hat, id, b, -, hstored, -⟩ := h
      refine ⟨hat, fun h8 => ?_⟩
      cases hstored with
      | direct _ _ _ hfinal => exact hfinal.trans (hw.2 (by omega))
      | indirect hk8 => omega
  have hrounds := exists_rounds (n := k) (s := d) hbody ⟨atWrite_start ino s final, fun _ => rfl⟩ j
  rwa [Nat.zero_add] at hrounds

theorem of_writeRounds {ino : Inode} {buf : Mem} {s k : Nat} {old : Int} {final : Block} {j j' : Junk}
    {d d' : Disk} {w : WriteState} (hs : s ≤ 69632) (hk : k ≤ chunks s)
    (h : writeRounds buf s old k (writeStart ino s final) j d = some (w, j', d')) :
    AtWrite s k w ∧ (k ≤ 8 → w.finalIndirectBlock = final) := by
  obtain ⟨w₁, j₁, d₁, hrun, hat⟩ := exists_writeRounds ino buf old final hs hk j d
  obtain ⟨rfl, -⟩ : w = w₁ ∧ (j', d') = (j₁, d₁) := Prod.mk.inj (Option.some.inj (h.symm.trans hrun))
  exact hat

end Stores

/-! ## The read loop -/

/-- What the variables of the read loop are after `k` rounds for `s` bytes. -/
structure AtRead (s k : Nat) (r : ReadState) : Prop where
  index : r.index = k
  remaining : r.remainingBytesToBeRead = (s - 512 * k : Nat)
  num : r.numBytesAlreadyRead = (min (512 * k) s : Nat)
  indirectIndex : r.indirectIndex = k - 8

theorem AtRead.direct_iff {s k : Nat} {r : ReadState} (h : AtRead s k r) (hk : 512 * k < s) :
    r.numBytesAlreadyRead < 8 * blockSize ↔ k < 8 := by
  rw [h.num]
  simp only [blockSize]
  omega

/-- The variables at the end of a round that has copied block `c`. -/
def InodeLayer.ReadState.next (r : ReadState) (s k : Nat) (c : Block) : ReadState :=
  { r with
    buf := copyInto r.buf (512 * k) c (min 512 (s - 512 * k))
    remainingBytesToBeRead := (s - 512 * (k + 1) : Nat)
    numBytesAlreadyRead := (min (512 * (k + 1)) s : Nat)
    index := k + 1
    indirectIndex := k + 1 - 8 }

theorem AtRead.next {s k : Nat} (r : ReadState) (c : Block) : AtRead s (k + 1) (r.next s k c) :=
  ⟨rfl, rfl, rfl, rfl⟩

-- A round is the load of the block in the slot, and the copy of it.
theorem readStep_eq (ino : Inode) (b : Block) {s k : Nat} {r : ReadState} (h : AtRead s k r)
    (hk : 512 * k < s) (hs : s ≤ 69632) :
    readStep ino b r = (freshBlock >>= fun buffer =>
      readBlock ((slotOf k).named ino b) buffer >>= fun c => pure (r.next s k c)) := by
  -- the sums of the round as natural numbers
  have hn : min (blockSize : Int) r.remainingBytesToBeRead = (min 512 (s - 512 * k) : Nat) := by
    rw [h.remaining]
    simp only [blockSize]
    omega
  have hnum : r.numBytesAlreadyRead + (min 512 (s - 512 * k) : Nat) =
      (min (512 * (k + 1)) s : Nat) := by
    rw [h.num]
    omega
  have hrem : r.remainingBytesToBeRead - (min 512 (s - 512 * k) : Nat) =
      (s - 512 * (k + 1) : Nat) := by
    rw [h.remaining]
    omega
  have hind := h.indirectIndex
  simp only [readStep, hn, Int.toNat_natCast, h.index, blockSize, Nat.mul_comm k]
  by_cases h8 : k < 8
  · have hdir := (h.direct_iff hk).mpr h8
    rw [if_pos hdir, slotOf, if_pos h8, loadSlot, if_pos (by omega)]
    simp only [pure_eq, ret_bind, hnum, hrem, ReadState.next, Slot.named,
      show k + 1 - 8 = r.indirectIndex by omega]
  · rw [if_neg (mt (h.direct_iff hk).mp h8), slotOf, if_neg h8, entry, if_pos (by omega), hind]
    simp only [pure_eq, ret_bind, hnum, hrem, ReadState.next, Slot.named,
      show k + 1 - 8 = k - 8 + 1 by omega]

theorem loadsChunk (ino : Inode) (b : Block) {s k : Nat} {r : ReadState} (h : AtRead s k r)
    (hk : 512 * k < s) (hs : s ≤ 69632) (j : Junk) (d : Disk) : LoadsChunk ino b s k r j d := by
  intro r' j' d' hrun
  rw [readStep_eq ino b h hk hs] at hrun ⊢
  -- the round is a fresh buffer, a load and the copy
  obtain ⟨buffer, j₁, d₁, hfresh, hrest⟩ := exists_of_run_bind hrun
  obtain ⟨c, j₂, d₂, hread, hret⟩ := exists_of_run_bind hrest
  obtain ⟨rfl, -, -⟩ := eq_of_run_ret hret
  have hd : wp freshBlock (fun _ e => e = d) d := (wp_freshBlock _ _).mpr fun _ => rfl
  obtain rfl := wp_of_run hd hfresh
  refine ⟨rfl, c, rfl, fun hid => ?_⟩
  have hc : wp (readBlock ((slotOf k).named ino b) buffer)
      (fun c _ => c = d₁.row ((slotOf k).named ino b).toNat) d₁ :=
    (wp_readDisk _ _ _ _ hid).mpr rfl
  have hrow := wp_of_run hc hread
  exact hrow

-- The loop comes to every chunk.
theorem exists_readRounds (ino : Inode) (b : Block) (m : Mem) {s k : Nat} (hs : s ≤ 69632)
    (hk : k ≤ chunks s) (j : Junk) (d : Disk) :
    ∃ r j' d', readRounds ino b k (readStart m s) j d = some (r, j', d') ∧ AtRead s k r := by
  have hbody : ∀ k' (r : ReadState) (e : Disk), k' < 0 + k → AtRead s k' r →
      decide (r.remainingBytesToBeRead > 0) = true ∧
        wp (readStep ino b r) (fun r' _ => AtRead s (k' + 1) r') e := by
    intro k' r e hk' hr
    have hlt : 512 * k' < s := lt_chunks_iff.mp (by omega)
    constructor
    · rw [decide_eq_true_eq, hr.remaining]
      omega
    · rw [readStep_eq ino b hr hlt hs]
      simp only [wp_bind, wp_freshBlock]
      exact fun _ _ => AtRead.next r _
  have hstart : AtRead s 0 (readStart m s) := ⟨rfl, rfl, by simp [readStart], rfl⟩
  have hrounds := exists_rounds (n := k) (s := d) hbody hstart j
  rwa [Nat.zero_add] at hrounds

/-! ## Where the loops agree -/

theorem storesChunk (buf : Mem) {s k : Nat} (old : Int) {w : WriteState} (h : AtWrite s k w)
    (hs : SizeOk s) (hk : k < chunks s) (j : Junk) (d : Disk) : StoresChunk buf s old k w j d := by
  intro w' j' d' hrun
  have hno := hs.2
  have hlt := lt_chunks_iff.mp hk
  have hk136 := hs.chunks_le
  obtain ⟨-, id, b, hl, hstored, hb⟩ := collects_run (stores_writeStep buf old hs.le hk h) hrun
  rw [List.nil_append] at hl
  refine ⟨b, hl.trans ?_, hb⟩
  cases hstored with
  | direct hdir _ hino =>
    -- a size just above the direct limit is excluded by `SizeOk`
    have h8 : k < 8 := by omega
    rw [slotOf, if_pos h8, Slot.named, hino, Inode.block_setBlock, if_pos ⟨rfl, by omega⟩]
  | indirect h8 _ hfinal =>
    rw [slotOf, if_neg (by omega), Slot.named, hfinal, Block.word_setWord_self _ _ _ (by omega)]

theorem slotsAgree {s : Nat} (hs : SizeOk s) : SlotsAgree s := by
  intro k hk
  constructor
  · intro ino buf old final j d
    obtain ⟨w, j', d', hrun, hat, -⟩ := exists_writeRounds ino buf old final hs.le hk.le j d
    exact ⟨w, j', d', hrun, storesChunk buf old hat hs hk j' d'⟩
  · intro ino b m j d
    obtain ⟨r, j', d', hrun, hat⟩ := exists_readRounds ino b m hs.le hk.le j d
    exact ⟨r, j', d', hrun, loadsChunk ino b hat (lt_chunks_iff.mp hk) hs.le j' d'⟩

-- Chunk 8 goes to a block that `blocks[8]` names, while entry 0 keeps what the memory held.
theorem not_slotsAgree {s : Nat} (hlo : 4096 < s) (hhi : s < 4608) : ¬ SlotsAgree s := by
  intro h
  have hk : 8 < chunks s := lt_chunks_iff.mpr (by omega)
  have hs : s ≤ 69632 := by omega
  obtain ⟨w, j, d, hrun, hstores⟩ :=
    (h 8 hk).1 Inode.zero (fun _ => 0) 0 (fun _ => 0) (fun _ _ => 0) Disk.init
  obtain ⟨hat, hfinal⟩ := of_writeRounds hs hk.le hrun
  have hstep := stores_writeStep (fun _ => 0) 0 hs hk hat
  obtain ⟨w', j', d', hbody, -⟩ := wp_run (wp_of_collects hstep d) j
  obtain ⟨b, hl, -⟩ := hstores w' j' d' hbody
  obtain ⟨-, id, b', hl', hstored, -⟩ := collects_run hstep hbody
  rw [List.nil_append, hl] at hl'
  cases hstored with
  | direct _ hid _ hsame =>
    -- entry 0 is still what the new indirect block was made with, and no block has id 0
    have hid' : w'.finalIndirectBlock.word 0 = id := (Prod.mk.inj (List.cons.inj hl').1).1
    rw [hsame, hfinal le_rfl] at hid'
    exact hid (hid'.symm.trans (by decide))
  | indirect _ hge => omega

/-- The loops use the same slots at all sizes but those just above the direct limit. -/
theorem slotsAgree_iff {s : Nat} (hs : s ≤ blockSize * maxFile) :
    SlotsAgree s ↔ ¬ (4096 < s ∧ s < 4608) :=
  ⟨fun h hbad => not_slotsAgree hbad.1 hbad.2 h, fun hno => slotsAgree ⟨hs, hno⟩⟩

/-- The counters agree if there is no partial last chunk after a first one. -/
theorem countersAgree_iff {s : Nat} (hs : s ≤ blockSize * maxFile) :
    CountersAgree s ↔ s ≤ 512 ∨ 512 ∣ s := by
  have hle : s ≤ 69632 := by
    simpa only [blockSize, maxFile, nDirect, nIndirect] using hs
  constructor
  · intro h
    by_contra hno
    rw [not_or] at hno
    -- a partial last chunk: in its round the write loop has counted `s - 512` bytes
    have hk : chunks s - 1 < chunks s := by
      have := lt_chunks_iff.mpr (show 512 * 0 < s by omega)
      omega
    obtain ⟨w, j, d, hrun, hnum⟩ := (h (chunks s - 1) hk).1 Inode.zero (fun _ => 0) 0 (fun _ => 0)
      (fun _ _ => 0) Disk.init
    rw [(of_writeRounds hle hk.le hrun).1.num] at hnum
    unfold chunks at *
    omega
  · intro hfull k hk
    have hlt := lt_chunks_iff.mp hk
    constructor
    · intro ino buf old final j d
      obtain ⟨w, j', d', hrun, hat, -⟩ := exists_writeRounds ino buf old final hle hk.le j d
      refine ⟨w, j', d', hrun, ?_⟩
      rw [hat.num]
      unfold chunks at hk
      omega
    · intro ino b m j d
      obtain ⟨r, j', d', hrun, hat⟩ := exists_readRounds ino b m hle hk.le j d
      refine ⟨r, j', d', hrun, ?_⟩
      rw [hat.num]
      omega

/-- All that is said of the two loops holds just when no partial chunk follows another chunk; their
choice of slots differs only above the direct limit. -/
theorem loopsAgree_iff {s : Nat} (hs : s ≤ blockSize * maxFile) :
    (SlotsAgree s ∧ CountersAgree s ↔ s ≤ 512 ∨ 512 ∣ s) ∧
      (SlotsAgree s ↔ ¬ (4096 < s ∧ s < 4608)) := by
  refine ⟨⟨fun h => (countersAgree_iff hs).mp h.2, fun h => ⟨?_, (countersAgree_iff hs).mpr h⟩⟩,
    slotsAgree_iff hs⟩
  exact (slotsAgree_iff hs).mpr (by omega)

/-- Every chunk full, and a partial chunk far behind the direct limit. -/
theorem loopsAgree_iff_sizes : (SlotsAgree 8192 ∧ CountersAgree 8192) ∧ SlotsAgree 5000 :=
  ⟨(loopsAgree_iff (by decide)).1.mpr (.inr ⟨16, rfl⟩),
    (loopsAgree_iff (by decide)).2.mpr (by omega)⟩

theorem not_loopsAgree_4097 :
    ¬ ∀ s ≤ blockSize * maxFile, SlotsAgree s ∧ CountersAgree s := fun h =>
  not_slotsAgree (by decide) (by decide) (h 4097 (by decide)).1

end InodeFs
