import InodeFs.WriteFile

/-!
# A round of the write loop

In whatever section it is, a round of the loop of `write_file` gets a block for the next chunk, stores
the chunk in it and notes its id.  `writeStep_eq` says so as an equation between programs.  What the
loop stores, allocates, frees and indexes is read off its right side.
-/

namespace InodeFs

open BlockLayer InodeLayer Prog

/-- A new block for the next chunk of `buf`, and the chunk. -/
def newBlock (buf : Mem) (w : WriteState) : FsM (UInt32 × Block) := do
  let chunk ← chunkBuffer buf w
  let id ← allocBlock
  pure (id, chunk)

/-- The block that the old indirect block names for the next chunk, and the chunk. -/
def oldBlock (buf : Mem) (w : WriteState) : FsM (UInt32 × Block) := do
  let indirectBlock ← freshBlock
  let indirectBlock ← readBlock (w.ino.block 8) indirectBlock
  let chunk ← chunkBuffer buf w
  pure (indirectBlock.word w.indirectIndex, chunk)

/-- The chunk is stored, and its id taken into the variables. -/
def storeChunk (next : UInt32 → WriteState) (x : UInt32 × Block) : FsM WriteState := do
  writeBlock .writeFile x.1 x.2
  pure (next x.1)

/-- After a round in the direct section. -/
def nextDirect (w : WriteState) (id : UInt32) : WriteState :=
  endRound { w with ino := w.ino.setBlock w.index id }

/-- After a round in the indirect section. -/
def nextIndirect (w : WriteState) (id : UInt32) : WriteState :=
  endRound { w with
    needToOverwriteIndirect := true
    finalIndirectBlock := w.finalIndirectBlock.setWord w.indirectIndex id
    indirectIndex := w.indirectIndex + 1 }

section Sections
variable (buf : Mem) {w : WriteState}

theorem writeDirect_eq (h9 : w.index < 9) :
    writeDirect buf w =
      newBlock buf w >>= storeChunk fun id => { w with ino := w.ino.setBlock w.index id } := by
  simp only [writeDirect, newBlock, storeSlot, if_pos h9, bind_assoc, pure_eq, ret_bind]
  rfl

theorem writeAllocated_eq (h128 : w.indirectIndex < 128) :
    writeAllocated buf w = newBlock buf w >>= storeChunk fun id =>
      { w with finalIndirectBlock := w.finalIndirectBlock.setWord w.indirectIndex id } := by
  simp only [writeAllocated, newBlock, storeEntry, if_pos h128, bind_assoc, pure_eq, ret_bind]
  rfl

theorem writeReused_eq (h128 : w.indirectIndex < 128) :
    writeReused buf w = oldBlock buf w >>= storeChunk fun id =>
      { w with finalIndirectBlock := w.finalIndirectBlock.setWord w.indirectIndex id } := by
  simp only [writeReused, oldBlock, entry, storeEntry, if_pos h128, bind_assoc, pure_eq, ret_bind]
  rfl

-- What the round still does with the variables.
theorem storeChunk_bind (f g : UInt32 → WriteState) (h : WriteState → WriteState)
    (x : UInt32 × Block) (hfg : ∀ id, h (f id) = g id) :
    (storeChunk f x >>= fun w => pure (h w)) = storeChunk g x := by
  simp only [storeChunk, bind_assoc, pure_eq, ret_bind, hfg]

/-- Where a round finds the block of its chunk. -/
theorem writeStep_eq {size old : Int} (h9 : w.numBytesAlreadyWritten < 8 * blockSize → w.index < 9)
    (h128 : w.indirectIndex < 128) :
    writeStep buf size old w =
      if w.numBytesAlreadyWritten < 8 * blockSize then newBlock buf w >>= storeChunk (nextDirect w)
      else if size ≥ old ∧ old ≤ 8 * blockSize then
        -- the first of these rounds allocates the indirect block too
        allocIndirect w >>= fun w => newBlock buf w >>= storeChunk (nextIndirect w)
      else if size ≥ old ∧ w.numBytesAlreadyWritten ≥ old then
        newBlock buf w >>= storeChunk (nextIndirect w)
      else oldBlock buf w >>= storeChunk (nextIndirect w) := by
  have hnew : ∀ w : WriteState, w.indirectIndex < 128 →
      (writeAllocated buf { w with needToOverwriteIndirect := true } >>= fun w =>
        pure (endRound { w with indirectIndex := w.indirectIndex + 1 })) =
      newBlock buf w >>= storeChunk (nextIndirect w) := by
    intro w h
    have heq := writeAllocated_eq buf (w := { w with needToOverwriteIndirect := true }) h
    rw [heq, bind_assoc]
    exact bind_congr fun x => storeChunk_bind _ _ _ x fun _ => rfl
  have hold : (writeReused buf { w with needToOverwriteIndirect := true } >>= fun w =>
        pure (endRound { w with indirectIndex := w.indirectIndex + 1 })) =
      oldBlock buf w >>= storeChunk (nextIndirect w) := by
    have heq := writeReused_eq buf (w := { w with needToOverwriteIndirect := true }) h128
    rw [heq, bind_assoc]
    exact bind_congr fun x => storeChunk_bind _ _ _ x fun _ => rfl
  rw [writeStep]
  by_cases hdir : w.numBytesAlreadyWritten < 8 * blockSize
  · rw [if_pos hdir, if_pos hdir, writeDirect_eq buf (h9 hdir), bind_assoc]
    exact bind_congr fun x => storeChunk_bind _ _ _ x fun _ => rfl
  · rw [if_neg hdir, if_neg hdir]
    change (writeIndirect buf size old w >>= fun w => pure (endRound w)) = _
    by_cases hsize : size ≥ old
    · by_cases hsmall : old ≤ 8 * blockSize
      · rw [if_pos ⟨hsize, hsmall⟩]
        by_cases halready : w.alreadyAllocatedIndirect = false
        · simp only [writeIndirect, allocIndirect, if_pos hsize, if_pos hsmall, if_pos halready,
            bind_assoc, pure_eq, ret_bind]
          exact bind_congr fun id => hnew { w with
            ino := w.ino.setBlock 8 id, alreadyAllocatedIndirect := true } h128
        · simp only [writeIndirect, allocIndirect, if_pos hsize, if_pos hsmall, if_neg halready,
            bind_assoc, pure_eq, ret_bind]
          exact hnew w h128
      · rw [if_neg fun h => hsmall h.2]
        by_cases hpast : w.numBytesAlreadyWritten ≥ old
        · simp only [writeIndirect, if_pos hsize, if_neg hsmall, if_pos hpast,
            if_pos (And.intro hsize hpast), bind_assoc, pure_eq, ret_bind]
          exact hnew w h128
        · rw [if_neg fun h => hpast h.2]
          simp only [writeIndirect, if_pos hsize, if_neg hsmall, if_neg hpast, bind_assoc, pure_eq,
            ret_bind]
          exact hold
    · rw [if_neg fun h => hsize h.1, if_neg fun h => hsize h.1]
      simp only [writeIndirect, if_neg hsize, bind_assoc, pure_eq, ret_bind]
      exact hold

end Sections

end InodeFs
