import Mathlib.Data.List.Basic
import Mathlib.Tactic.Common

/-!
# DeviceOS.FileSystem

The read-only file system of `file_system.c`: the image, the lookups in the boot block and
`read_data`.

The 32-bit fields of an image are arbitrary, so they are `BitVec 32`; the source compares them as
signed (`toInt`) in some places and as unsigned (`toNat`) in others. An access outside
`direntries[63]` or `data_block_num[1023]` is a `Fault`.
-/

namespace DeviceOS

/-- The ways in which an operation leaves the defined behaviour of the code. -/
inductive Fault where
  | direntries | dataBlockNum | localArray | pageFault | wildPointer | noProgress
  deriving DecidableEq

def filenameLen : Nat := 32
def blockByteSize : Nat := 4096
def numDirentries : Nat := 63
def numBlockSlots : Nat := 1023

structure Dentry where
  filename : Nat → UInt8
  filetype : BitVec 32
  inodeNum : BitVec 32

structure Inode where
  length : BitVec 32
  dataBlockNum : Nat → BitVec 32

/-- A boot block, its inodes and its data blocks. -/
structure Image where
  dirCount : BitVec 32
  inodeCount : BitVec 32
  dataCount : BitVec 32
  direntries : Nat → Dentry
  inodes : Nat → Inode
  dataBlocks : Nat → Nat → UInt8

/-- A C string: the bytes before the terminating NUL. Reading at the end gives the NUL. -/
abbrev CString := List UInt8

namespace CString

def charAt (s : CString) (i : Nat) : UInt8 := s.getD i 0

def strlen (s : CString) : Nat := (s.takeWhile (· ≠ 0)).length

/-- `strncmp(s1, s2, n) == 0`, from index `i`. -/
def strncmpEq (s1 s2 : CString) : Nat → Nat → Bool
  | 0, _ => true
  | n + 1, i =>
    if s1.charAt i ≠ s2.charAt i then false
    else if s1.charAt i = 0 then true
    else strncmpEq s1 s2 n (i + 1)

end CString

/-- The compare loop of `read_dentry_by_name`, with `n` of the 32 bytes left, from byte `s`. -/
def nameMatches (fname : CString) (name : Nat → UInt8) : Nat → Nat → Bool
  | 0, _ => true
  | n + 1, s =>
    if fname.charAt s ≠ name s then false
    else if fname.charAt s = 0 then true
    else nameMatches fname name n (s + 1)

namespace Image

variable (img : Image)

/-- The outer loop of `read_dentry_by_name`, with `n` entries left, from entry `i`. -/
def findDentry (fname : CString) : Nat → Nat → Except Fault (Option Dentry)
  | 0, _ => .ok none
  | n + 1, i =>
    if numDirentries ≤ i then .error .direntries
    else if nameMatches fname (img.direntries i).filename filenameLen 0 then
      .ok (some (img.direntries i))
    else findDentry fname n (i + 1)

/-- `none` is the result -1. -/
def readDentryByName (fname : CString) : Except Fault (Option Dentry) :=
  if fname.strlen > filenameLen then .ok none
  else img.findDentry fname img.dirCount.toInt.toNat 0

def readDentryByIndex (index : Nat) : Except Fault (Option Dentry) :=
  if img.dirCount.toNat ≤ index then .ok none
  else if numDirentries ≤ index then .error .direntries
  else .ok (some (img.direntries index))

/-- `data_block_idx < 0 || data_block_idx >= data_blocks_num` does not hold. -/
def validBlock (b : BitVec 32) : Bool := 0 ≤ b.toInt && b.toInt < img.dataCount.toInt

/-- What `read_data` returns, and the bytes it has stored in `buf` from index 0. -/
structure DataRead where
  ret : Int
  bytes : List UInt8

def DataRead.store (b : UInt8) (r : DataRead) : DataRead := { r with bytes := b :: r.bytes }

/-- The loop of `read_data`: `n` is `length - read`, `data` the current data block. -/
def readLoop (ino : Inode) : (n offset read slot blockOffset data : Nat) → Except Fault DataRead
  | 0, _, read, _, _, _ => .ok ⟨read, []⟩
  | n + 1, offset, read, slot, blockOffset, data =>
    if offset < ino.length.toNat then
      if blockOffset = blockByteSize then
        if numBlockSlots ≤ slot + 1 then .error .dataBlockNum
        else if img.validBlock (ino.dataBlockNum (slot + 1)) then
          (readLoop ino n (offset + 1) (read + 1) (slot + 1) 1
            (ino.dataBlockNum (slot + 1)).toNat).map
              (DataRead.store (img.dataBlocks (ino.dataBlockNum (slot + 1)).toNat 0))
        else .ok ⟨-1, []⟩
      else
        (readLoop ino n (offset + 1) (read + 1) slot (blockOffset + 1) data).map
          (DataRead.store (img.dataBlocks data blockOffset))
    else .ok ⟨read, []⟩

/-- `read_data` with a buffer that is not NULL; the arguments are `uint32_t`. -/
def readData (inode offset length : Nat) : Except Fault DataRead :=
  if img.inodeCount.toNat ≤ inode then .ok ⟨-1, []⟩
  else
    let ino := img.inodes inode
    if numBlockSlots ≤ offset / blockByteSize then .ok ⟨0, []⟩
    else
      let b := ino.dataBlockNum (offset / blockByteSize)
      if img.validBlock b then
        img.readLoop ino length offset 0 (offset / blockByteSize) (offset % blockByteSize) b.toNat
      else .ok ⟨-1, []⟩

end Image
end DeviceOS
