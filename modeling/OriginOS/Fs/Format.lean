import OriginOS.Device.Ide
import OriginOS.Kernel.Bitmap

/-! The structures of the file system as they are stored on a disk, `partition_format` and
`mount_partition` of `fs/fs.c`.

`sizeof(struct inode)` is 76 and `sizeof(struct dir_entry)` is 24. The fields are `uint32_t`, and
their arithmetic is that of `UInt32`. `sys_malloc` returns memory, cleared. -/

namespace OriginOS

open Lib

inductive FileTypes where
  | unknown
  | regular
  | directory
deriving DecidableEq, Repr

def FileTypes.toWord : FileTypes → UInt32
  | .unknown => 0
  | .regular => 1
  | .directory => 2

/-- `struct inode`. The links of `inode_tag` are `tagPrev` and `tagNext`. -/
@[ext] structure Inode where
  iNo : UInt32
  iSize : UInt32
  iOpenCnts : UInt32
  writeDeny : UInt32
  iSectors : Vector UInt32 13
  tagPrev : UInt32
  tagNext : UInt32
deriving DecidableEq, Repr

/-- `struct super_block` without its padding. -/
@[ext] structure SuperBlock where
  magic : UInt32
  secCnt : UInt32
  inodeCnt : UInt32
  partLbaBase : UInt32
  blockBitmapLba : UInt32
  blockBitmapSects : UInt32
  inodeBitmapLba : UInt32
  inodeBitmapSects : UInt32
  inodeTableLba : UInt32
  inodeTableSects : UInt32
  dataStartLba : UInt32
  rootInodeNo : UInt32
  dirEntrySize : UInt32
deriving DecidableEq, Repr

/-- `struct dir_entry`. What is read from a disk may have any word as its type. -/
@[ext] structure DirEntry where
  filename : Vector UInt8 16
  iNo : UInt32
  fType : UInt32
deriving DecidableEq, Repr

/-- `struct partition`. `openInodes` lists the inodes of `open_inodes` from its head on. -/
structure Partition where
  name : String
  startLba : UInt32
  secCnt : UInt32
  sb : SuperBlock
  blockBitmap : Bitmap
  inodeBitmap : Bitmap
  openInodes : List Inode

/-- A partition that has been found on a disk and has not been mounted. -/
def Partition.recorded (name : String) (startLba secCnt : UInt32) : Partition where
  name
  startLba
  secCnt
  sb := ⟨0, 0, 0, 0, 0, 0, 0, 0, 0, 0, 0, 0, 0⟩
  blockBitmap := ⟨0, 0, fun _ => 0⟩
  inodeBitmap := ⟨0, 0, fun _ => 0⟩
  openInodes := []

namespace Inode

def words (i : Inode) : List UInt32 :=
  [i.iNo, i.iSize, i.iOpenCnts, i.writeDeny] ++ i.iSectors.toList ++ [i.tagPrev, i.tagNext]

def ofBytes (mem : Nat → UInt8) (a : Nat) : Inode where
  iNo := wordAt mem a
  iSize := wordAt mem (a + 4)
  iOpenCnts := wordAt mem (a + 8)
  writeDeny := wordAt mem (a + 12)
  iSectors := Vector.ofFn fun k => wordAt mem (a + 16 + 4 * k)
  tagPrev := wordAt mem (a + 68)
  tagNext := wordAt mem (a + 72)

end Inode

namespace SuperBlock

def words (sb : SuperBlock) : List UInt32 :=
  [sb.magic, sb.secCnt, sb.inodeCnt, sb.partLbaBase, sb.blockBitmapLba, sb.blockBitmapSects,
    sb.inodeBitmapLba, sb.inodeBitmapSects, sb.inodeTableLba, sb.inodeTableSects, sb.dataStartLba,
    sb.rootInodeNo, sb.dirEntrySize]

def ofBytes (mem : Nat → UInt8) (a : Nat) : SuperBlock where
  magic := wordAt mem a
  secCnt := wordAt mem (a + 4)
  inodeCnt := wordAt mem (a + 8)
  partLbaBase := wordAt mem (a + 12)
  blockBitmapLba := wordAt mem (a + 16)
  blockBitmapSects := wordAt mem (a + 20)
  inodeBitmapLba := wordAt mem (a + 24)
  inodeBitmapSects := wordAt mem (a + 28)
  inodeTableLba := wordAt mem (a + 32)
  inodeTableSects := wordAt mem (a + 36)
  dataStartLba := wordAt mem (a + 40)
  rootInodeNo := wordAt mem (a + 44)
  dirEntrySize := wordAt mem (a + 48)

end SuperBlock

namespace DirEntry

def ofBytes (mem : Nat → UInt8) (a : Nat) : DirEntry where
  filename := Vector.ofFn fun k => mem (a + k)
  iNo := wordAt mem (a + 16)
  fType := wordAt mem (a + 20)

end DirEntry

/-! ### `partition_format` -/

def divRoundUp (x step : UInt32) : UInt32 := (x + step - 1) / step

/-- `inode_bitmap_sects`, for `MAX_FILES_PER_PART` files. -/
def inodeBitmapSects : UInt32 := divRoundUp 4096 4096

def inodeTableSects : UInt32 := divRoundUp (76 * 4096) 512

def usedSects : UInt32 := 1 + 1 + inodeBitmapSects + inodeTableSects

def blockBitmapBitLen (secCnt : UInt32) : UInt32 :=
  let freeSects := secCnt - usedSects
  let blockBitmapSects := divRoundUp freeSects 4096
  freeSects - blockBitmapSects

def blockBitmapSects (secCnt : UInt32) : UInt32 := divRoundUp (blockBitmapBitLen secCnt) 4096

def superBlock (startLba secCnt : UInt32) : SuperBlock :=
  let blockBitmapLba := startLba + 2
  let inodeBitmapLba := blockBitmapLba + blockBitmapSects secCnt
  let inodeTableLba := inodeBitmapLba + inodeBitmapSects
  { magic := 0x19590318
    secCnt
    inodeCnt := 4096
    partLbaBase := startLba
    blockBitmapLba
    blockBitmapSects := blockBitmapSects secCnt
    inodeBitmapLba
    inodeBitmapSects
    inodeTableLba
    inodeTableSects
    dataStartLba := inodeTableLba + inodeTableSects + inodeTableSects
    rootInodeNo := 0
    dirEntrySize := 24 }

/-- The loop that clears the first `lastBit` bits of a byte, with `n` passes to go. -/
def clearBits (lastBit : Nat) : Nat → Nat → UInt8 → UInt8
  | 0, _, byte => byte
  | n + 1, bitIdx, byte =>
    if bitIdx < lastBit then clearBits lastBit n (bitIdx + 1) (byte &&& ~~~ bitmapMask bitIdx)
    else byte

/-- The block bitmap in the buffer: the root directory's bit, and the bits behind the last. -/
def blockBitmapBuf (bitLen : UInt32) (buf : Nat → UInt8) : Nat → UInt8 :=
  let buf := Function.update buf 0 (buf 0 ||| 0x01)
  let lastByte := (bitLen / 8).toNat
  let lastBit := (bitLen % 8).toNat
  let lastSize := 512 - lastByte % 512
  let buf := fill buf lastByte lastSize 0xff
  Function.update buf lastByte (clearBits lastBit 8 0 (buf lastByte))

def rootInodeBuf (sb : SuperBlock) (buf : Nat → UInt8) : Nat → UInt8 :=
  let buf := store32 buf 4 (sb.dirEntrySize * 2).toNat
  let buf := store32 buf 0 0
  store32 buf 16 sb.dataStartLba.toNat

/-- The entry `.` or `..` at `a` of the buffer: `memcpy` of the name, and the stores of the fields.
-/
def rootEntryBuf (name : List UInt8) (a : Nat) (buf : Nat → UInt8) : Nat → UInt8 :=
  let buf := fun b => if a ≤ b then (name[b - a]?).getD (buf b) else buf b
  let buf := store32 buf (a + 16) 0
  store32 buf (a + 20) FileTypes.directory.toWord.toNat

/-- `partition_format`. The padding of the super block is what the stack holds. -/
def partitionFormat (part : Partition) (pad : Nat → UInt8) (disk : Disk) : Except Panic Disk := do
  let sb := superBlock part.startLba part.secCnt
  let disk ← ideWrite disk (part.startLba + 1).toNat (storeWords pad 0 sb.words) 1
  let bufSize := if sb.blockBitmapSects ≥ sb.inodeBitmapSects then sb.blockBitmapSects
    else sb.inodeBitmapSects
  let bufSize := (if bufSize ≥ sb.inodeTableSects then bufSize else sb.inodeTableSects) * 512
  let buf := blockBitmapBuf (blockBitmapBitLen part.secCnt) fun _ => 0
  let disk ← ideWrite disk sb.blockBitmapLba.toNat buf sb.blockBitmapSects.toNat
  let buf := fill buf 0 bufSize.toNat 0
  let buf := Function.update buf 0 (buf 0 ||| 0x1)
  let disk ← ideWrite disk sb.inodeBitmapLba.toNat buf sb.inodeBitmapSects.toNat
  let buf := fill buf 0 bufSize.toNat 0
  let buf := rootInodeBuf sb buf
  let disk ← ideWrite disk sb.inodeTableLba.toNat buf sb.inodeTableSects.toNat
  let buf := fill buf 0 bufSize.toNat 0
  let buf := rootEntryBuf [46] 0 buf
  let buf := rootEntryBuf [46, 46] 24 buf
  ideWrite disk sb.dataStartLba.toNat buf 1

/-- Memory that `sys_malloc` has returned: its address, and the bytes from there on. -/
structure HeapBlock where
  addr : Nat
  bytes : Nat → UInt8

/-- `mount_partition` on the disk of the partition; `none` when it has another name. -/
def mountPartition (part : Partition) (partName : String) (blockBits inodeBits : HeapBlock)
    (disk : Disk) : Except Panic (Option Partition) :=
  if part.name = partName then do
    let sbBuf ← ideRead disk (part.startLba + 1).toNat (fun _ => 0) 1
    let sb := SuperBlock.ofBytes sbBuf 0
    let bits ← ideRead disk sb.blockBitmapLba.toNat blockBits.bytes sb.blockBitmapSects.toNat
    let blockBitmap := ⟨(sb.blockBitmapSects * 512).toNat, blockBits.addr, bits⟩
    let bits ← ideRead disk sb.inodeBitmapLba.toNat inodeBits.bytes sb.inodeBitmapSects.toNat
    let inodeBitmap := ⟨(sb.inodeBitmapSects * 512).toNat, inodeBits.addr, bits⟩
    pure (some { part with sb, blockBitmap, inodeBitmap, openInodes := [] })
  else pure none

end OriginOS
