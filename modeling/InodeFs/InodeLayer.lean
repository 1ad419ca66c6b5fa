import InodeFs.Inode

/-!
# `class inode_layer`

`int` variables are integers, and `asInt` is the conversion of an `unsigned int` to `int`.  The
counters of the loops stay between zero and the size they start from, so no sum leaves the range of
`int` unless an inode's size, as an `int`, is next to the least one.  Every call takes the readings
of `time` it makes as an argument.
-/

namespace InodeFs

open BlockLayer

/-- `unsigned int` to `int` -/
@[irreducible] def asInt (v : UInt32) : Int := Int.bmod v.toNat (2 ^ 32)

/-- `fs_protocol::attr` -/
structure Attr where
  type : UInt32
  atime : UInt32
  mtime : UInt32
  ctime : UInt32
  size : UInt32
  deriving DecidableEq

/-- `memset(&attr, 0, sizeof(attr))` -/
def Attr.zero : Attr := ⟨0, 0, 0, 0, 0⟩

namespace InodeLayer

/-- `inode_layer::get_inode`; `none` is `NULL`. -/
def getInode (inum : UInt32) : FsM (Option Inode) :=
  if inum.toNat ≥ inodeNum then pure none
  else do
    let buf ← freshBlock
    let buf ← readBlock (UInt32.ofNat (iblock inum.toNat sb.nblocks)) buf
    let inoDisk := Inode.ofBlock buf (inum.toNat % ipb)
    if inoDisk.type = 0 then pure none else pure (some inoDisk)

/-- `inode_layer::put_inode`, for an `ino` that is not `NULL`. -/
def putInode (inum : UInt32) (ino : Inode) : FsM Unit :=
  if inum.toNat ≥ inodeNum then pure ()
  else do
    let buf ← freshBlock
    let buf ← readBlock (UInt32.ofNat (iblock inum.toNat sb.nblocks)) buf
    writeBlock .putInode (UInt32.ofNat (iblock inum.toNat sb.nblocks))
      (ino.intoBlock (inum.toNat % ipb) buf)

/-! ## Allocation -/

/-- The loop of `alloc_inode` from `x` on, with `n` rounds left; the answer is `where_to_alloc`. -/
def whereToAlloc : Nat → Nat → FsM Nat
  | 0, _ => pure 0
  | n + 1, x => do
      let thisOne ← getInode (UInt32.ofNat x)
      match thisOne with
      | none => pure x
      | some _ => whereToAlloc n (x + 1)

/-- `inode_layer::alloc_inode`; `time k` is the answer to its `k`-th call of `time`. -/
def allocInode (type : UInt32) (time : Nat → UInt32) : FsM UInt32 := do
  let x ← whereToAlloc inodeNum 0
  putInode (UInt32.ofNat x)
    { Inode.zero with
      atime := time 0, ctime := time 1, mtime := time 2, size := 0, type := type.toUInt16.toInt16 }
  pure (UInt32.ofNat x)

/-! ## Reading -/

/-- The variables of the loop of `read_file`. -/
structure ReadState where
  buf : Mem
  remainingBytesToBeRead : Int
  numBytesAlreadyRead : Int
  index : Nat
  indirectIndex : Nat

/-- `ino->blocks[i]` as an operand -/
def loadSlot (ino : Inode) (i : Nat) : FsM UInt32 :=
  if i < 9 then pure (ino.block i) else do
    let m ← strayAccess .inodeBlocks i
    pure (wordOf m)

/-- The body of the loop of `read_file`. -/
def readStep (ino : Inode) (indirectBlock : Block) (r : ReadState) : FsM ReadState := do
  let n := min (blockSize : Int) r.remainingBytesToBeRead
  let r ←
    if r.numBytesAlreadyRead < 8 * blockSize then do
      let fullDirectBuffer ← freshBlock
      let id ← loadSlot ino r.index
      let fullDirectBuffer ← readBlock id fullDirectBuffer
      pure { r with buf := copyInto r.buf (r.index * blockSize) fullDirectBuffer n.toNat }
    else do
      let fullIndirectBuffer ← freshBlock
      let id ← entry indirectBlock r.indirectIndex
      let fullIndirectBuffer ← readBlock id fullIndirectBuffer
      pure { r with
        buf := copyInto r.buf (r.index * blockSize) fullIndirectBuffer n.toNat
        indirectIndex := r.indirectIndex + 1 }
  pure { r with
    numBytesAlreadyRead := r.numBytesAlreadyRead + n
    remainingBytesToBeRead := r.remainingBytesToBeRead - n
    index := r.index + 1 }

/-- What `read_file` leaves in `*buf_out` and `*size`. -/
structure ReadResult where
  buf : Mem
  size : Int

/-- `inode_layer::read_file`; `none` when it leaves its outputs as they were.  `bufOut` and `size`
say whether these pointers are other than `NULL`, and `now` is the reading of `time`. -/
def readFile (inum : UInt32) (bufOut size : Bool) (now : UInt32) : FsM (Option ReadResult) := do
  Rwlock.readerEnter inum
  if !bufOut || !size then
    Rwlock.readerExit inum
    pure none
  else
    let ino ← getInode inum
    match ino with
    | none =>
        Rwlock.readerExit inum
        pure none
    | some ino =>
        let ino := ino.setAtime now
        putInode inum ino
        let size := asInt ino.size
        let buf ← freshMem
        let indirectBlock ← freshBlock
        let indirectBlock ← readBlock (ino.block 8) indirectBlock
        let r ← Prog.whileLoop (fun r => r.remainingBytesToBeRead > 0)
          (readStep ino indirectBlock) size.toNat ⟨buf, size, 0, 0, 0⟩
        Rwlock.readerExit inum
        pure (some ⟨r.buf, size⟩)

/-! ## Writing -/

/-- The variables of the loop of `write_file`. -/
structure WriteState where
  ino : Inode
  remainingBytesToWrite : Int
  numBytesAlreadyWritten : Int
  needToOverwriteIndirect : Bool
  finalIndirectBlock : Block
  alreadyAllocatedIndirect : Bool
  index : Nat
  indirectIndex : Nat

/-- `ino->blocks[i] = v` -/
def storeSlot (ino : Inode) (i : Nat) (v : UInt32) : FsM Inode :=
  if i < 9 then pure (ino.setBlock i v) else do
    let _ ← strayAccess .inodeBlocks i
    pure ino

/-- A local buffer that starts with the next chunk of `buf`. -/
def chunkBuffer (buf : Mem) (w : WriteState) : FsM Block := do
  let buffer ← freshBlock
  let n := min (blockSize : Int) w.remainingBytesToWrite
  pure (buffer.copyFrom (fun i => buf (w.index * blockSize + i)) n.toNat)

/-- The direct section. -/
def writeDirect (buf : Mem) (w : WriteState) : FsM WriteState := do
  let directBuffer ← chunkBuffer buf w
  let blockId ← allocBlock
  let ino ← storeSlot w.ino w.index blockId
  writeBlock .writeFile blockId directBuffer
  pure { w with ino := ino }

/-- The indirect section, in a block allocated for it. -/
def writeAllocated (buf : Mem) (w : WriteState) : FsM WriteState := do
  let indirectBuffer ← chunkBuffer buf w
  let blockId ← allocBlock
  writeBlock .writeFile blockId indirectBuffer
  let final ← storeEntry w.finalIndirectBlock w.indirectIndex blockId
  pure { w with finalIndirectBlock := final }

/-- The indirect section, in the block that the old indirect block names. -/
def writeReused (buf : Mem) (w : WriteState) : FsM WriteState := do
  let indirectBlock ← freshBlock
  let indirectBlock ← readBlock (w.ino.block 8) indirectBlock
  let tempBuffer ← chunkBuffer buf w
  let id ← entry indirectBlock w.indirectIndex
  writeBlock .writeFile id tempBuffer
  let final ← storeEntry w.finalIndirectBlock w.indirectIndex id
  pure { w with finalIndirectBlock := final }

/-- The allocation of `ino->blocks[8]`, made once. -/
def allocIndirect (w : WriteState) : FsM WriteState :=
  if w.alreadyAllocatedIndirect = false then do
    let indirectBlockId ← allocBlock
    pure { w with ino := w.ino.setBlock 8 indirectBlockId, alreadyAllocatedIndirect := true }
  else pure w

/-- The indirect section of the body of the loop of `write_file`. -/
def writeIndirect (buf : Mem) (size oldInodeSize : Int) (w : WriteState) : FsM WriteState := do
  let w := { w with needToOverwriteIndirect := true }
  let w ←
    if size ≥ oldInodeSize then
      if oldInodeSize ≤ 8 * blockSize then do
        let w ← allocIndirect w
        writeAllocated buf w
      else if w.numBytesAlreadyWritten ≥ oldInodeSize then writeAllocated buf w
      else writeReused buf w
    else writeReused buf w
  pure { w with indirectIndex := w.indirectIndex + 1 }

/-- The body of the loop of `write_file`.  `num_bytes_already_written` grows after
`remaining_bytes_to_write` has shrunk, and by the new value of it. -/
def writeStep (buf : Mem) (size oldInodeSize : Int) (w : WriteState) : FsM WriteState := do
  let w ←
    if w.numBytesAlreadyWritten < 8 * blockSize then writeDirect buf w
    else writeIndirect buf size oldInodeSize w
  let remaining := w.remainingBytesToWrite - min (blockSize : Int) w.remainingBytesToWrite
  pure { w with
    remainingBytesToWrite := remaining
    numBytesAlreadyWritten := w.numBytesAlreadyWritten + min (blockSize : Int) remaining
    index := w.index + 1 }

/-- The body of the loop that frees old indirect blocks, on `indirect_index` and
`number_to_free`. -/
def shrinkStep (indirectBlock : Block) (v : Nat × Int) : FsM (Nat × Int) := do
  let id ← entry indirectBlock v.1
  freeBlock id
  pure (v.1 + 1, v.2 - blockSize)

/-- `write_file` between the load of the inode and `put_inode`; the answer is the inode to store. -/
def writeBlocks (ino : Inode) (buf : Mem) (size : Int) : FsM Inode := do
  Prog.forLoop (fun x => freeBlock (ino.block x)) 0 8
  let finalIndirectBlock ← freshBlock
  let oldInodeSize := asInt ino.size
  let w ← Prog.whileLoop (fun w => w.remainingBytesToWrite > 0) (writeStep buf size oldInodeSize)
    size.toNat ⟨ino, size, 0, false, finalIndirectBlock, false, 0, 0⟩
  if w.needToOverwriteIndirect && size < oldInodeSize then do
    let indirectBlock ← freshBlock
    let indirectBlock ← readBlock (w.ino.block 8) indirectBlock
    let numberToFree := oldInodeSize - size
    let _ ← Prog.whileLoop (fun v => v.2 > 0) (shrinkStep indirectBlock) numberToFree.toNat
      (w.indirectIndex, numberToFree)
  if w.needToOverwriteIndirect then
    writeBlock .writeFile (w.ino.block 8) w.finalIndirectBlock
  if size ≤ 8 * blockSize then
    freeBlock (w.ino.block 8)
  pure (w.ino.setSize (UInt32.ofNat size.toNat))

/-- `inode_layer::write_file` -/
def writeFile (inum : UInt32) (buf : Mem) (size : Int) : FsM Unit := do
  Rwlock.writerEnter inum
  if size < 0 || size > blockSize * maxFile then
    Rwlock.writerExit inum
  else
    let ino ← getInode inum
    match ino with
    | none => Rwlock.writerExit inum
    | some ino =>
        let ino ← writeBlocks ino buf size
        putInode inum ino
        Rwlock.writerExit inum

/-! ## Removing -/

/-- `inode_layer::free_inode`; a `NULL` inode is dereferenced. -/
def freeInode (inum : UInt32) : FsM Unit := do
  let ino ← getInode inum
  match ino with
  | none => Prog.abort
  | some ino => putInode inum ino.setTypeFree

/-- `inode_layer::remove_file` -/
def removeFile (inum : UInt32) : FsM Unit := do
  let ino ← getInode inum
  match ino with
  | none => pure ()
  | some ino =>
      Prog.forLoop (fun x => freeBlock (ino.block x)) 0 8
      let currentSize := asInt ino.size - 8 * blockSize
      let numIndirectBlocks := currentSize.tdiv blockSize + 1
      if currentSize > 0 then do
        let indirectBuffer ← freshBlock
        let indirectBuffer ← readBlock (ino.block 8) indirectBuffer
        Prog.forLoop (fun x => do
          let id ← entry indirectBuffer x
          freeBlock id) 0 numIndirectBlocks.toNat
        freeBlock (ino.block 8)
      freeInode inum

/-- `inode_layer::getattr` -/
def getattr (inum : UInt32) (a : Attr) : FsM Attr := do
  let ino ← getInode inum
  match ino with
  | none => pure a
  | some ino =>
      pure {
        type := ino.type.toInt32.toUInt32
        size := ino.size
        atime := ino.atime
        mtime := ino.mtime
        ctime := ino.ctime }

/-- `fs_protocol::T_DIR` -/
def tDir : UInt32 := 1

/-- The constructor `inode_layer::inode_layer`. -/
def init (time : Nat → UInt32) : FsM Unit := do
  let rootDir ← allocInode tDir time
  if rootDir ≠ 0 then Prog.abort else pure ()

end InodeLayer

end InodeFs
