import InodeFs.Disk

/-!
# `class block_layer`

The free block bitmap fills blocks 1 to 8, one bit a block; the inode table follows it, and data
blocks follow the table.
-/

namespace InodeFs

/-- `BPB`: bitmap bits per block. -/
abbrev bpb : Nat := blockSize * 8

/-- `BBLOCK`: the block containing the bit of block `b`. -/
def bblock (b : Nat) : Nat := b / bpb + 1

/-- `sizeof(struct inode)`, with two bytes of padding after `type`. -/
abbrev sizeofInode : Nat := 56

/-- `IPB`: inodes per block. -/
abbrev ipb : Nat := blockSize / sizeofInode

/-- `INODE_NUM` -/
abbrev inodeNum : Nat := 1024

/-- `IBLOCK`: the block containing inode `i`. -/
def iblock (i nblocks : Nat) : Nat := nblocks / bpb + i / ipb + 1

/-- `NDIRECT` -/
abbrev nDirect : Nat := 8

/-- `NINDIRECT` -/
abbrev nIndirect : Nat := blockSize / 4

/-- `MAXFILE` -/
abbrev maxFile : Nat := nDirect + nIndirect

/-- `superblock_t`; it is kept in the `block_layer` object, not on the disk. -/
structure Superblock where
  size : Nat
  nblocks : Nat
  ninodes : Nat

/-- `sb`, as the constructor `block_layer::block_layer` sets it. -/
def sb : Superblock := ⟨blockSize * blockNum, blockNum, inodeNum⟩

/-- `(char) 1 << k` -/
def charBit (k : Nat) : UInt8 := 1 <<< UInt8.ofNat k

namespace BlockLayer

/-- `int first_data_block` -/
def firstDataBlock : Nat := iblock 1023 sb.nblocks + 1

/-- The loop of `alloc_block` from `id` on, with `n` rounds left. -/
def allocScan : Nat → Nat → FsM UInt32
  | 0, _ => do
      unlock .bitmap
      -- `return -1`
      pure 0xffffffff
  | n + 1, id => do
      let buf ← freshBlock
      let buf ← readDisk (UInt32.ofNat (bblock id)) buf
      let bitOffsetInBlock := id % bpb
      let byteOffsetInBlock := bitOffsetInBlock / 8
      let bitOffsetInByte := bitOffsetInBlock % 8
      let byte := buf.byte byteOffsetInBlock
      if byte &&& charBit bitOffsetInByte ≠ 0 then
        allocScan n (id + 1)
      else do
        writeDisk .allocBlock (UInt32.ofNat (bblock id))
          (buf.setByte byteOffsetInBlock (byte ^^^ charBit bitOffsetInByte))
        unlock .bitmap
        pure (UInt32.ofNat id)

/-- `block_layer::alloc_block` -/
def allocBlock : FsM UInt32 := do
  lock .bitmap
  allocScan (blockNum - firstDataBlock) firstDataBlock

/-- `block_layer::free_block` -/
def freeBlock (id : UInt32) : FsM Unit := do
  lock .bitmap
  let buf ← freshBlock
  let buf ← readDisk (UInt32.ofNat (bblock id.toNat)) buf
  let bitOffsetInBlock := id.toNat % bpb
  let byteOffsetInBlock := bitOffsetInBlock / 8
  let bitOffsetInByte := bitOffsetInBlock % 8
  let byte := buf.byte byteOffsetInBlock
  writeDisk .freeBlock (UInt32.ofNat (bblock id.toNat))
    (buf.setByte byteOffsetInBlock (byte &&& ~~~charBit bitOffsetInByte))
  unlock .bitmap

/-- `block_layer::read_block` -/
def readBlock (id : UInt32) (buf : Block) : FsM Block := readDisk id buf

/-- `block_layer::write_block` -/
def writeBlock (who : Caller) (id : UInt32) (buf : Block) : FsM Unit := writeDisk who id buf

end BlockLayer

end InodeFs
