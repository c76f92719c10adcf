import Xv6.Model.Fs.Log
import Xv6.ToMathlib.VectorBit

/-! # The on-disk format

The superblock, the inodes and the directory entries as they lie in blocks, with the string functions
that names are compared and stored with.
-/

namespace Xv6.Fs

def ndirect : ℕ := 12
def nindirect : ℕ := bsize / 4
def maxfile : ℕ := ndirect + nindirect
/-- Inodes per block. -/
def ipb : ℕ := bsize / 64
/-- Bitmap bits per block. -/
def bpb : ℕ := bsize * 8
def dirsiz : ℕ := 14
def direntSize : ℕ := 2 + dirsiz

def tDir : Int16 := 1

/-- The superblock, with the order of the regions that `mkfs` lays out. The data area is the last
`nblocks` blocks. -/
structure Superblock where
  size : ℕ
  nblocks : ℕ
  ninodes : ℕ
  inodestart : ℕ
  bmapstart : ℕ
  inodes_end : inodestart + ninodes / ipb + 1 ≤ bmapstart
  bitmap_end : bmapstart + size / bpb + 1 ≤ size - nblocks
  size_lt : size < UInt32.size

namespace Superblock

def iblock (sb : Superblock) (i : ℕ) : ℕ := i / ipb + sb.inodestart
def bblock (sb : Superblock) (b : ℕ) : ℕ := b / bpb + sb.bmapstart
/-- The first data block. -/
def datastart (sb : Superblock) : ℕ := sb.size - sb.nblocks

end Superblock

structure Dinode where
  type : Int16
  major : Int16
  minor : Int16
  nlink : Int16
  size : UInt32
  addrs : Vector UInt32 (ndirect + 1)
deriving DecidableEq, Repr

namespace Dinode

/-- What `memset` leaves. -/
def zero : Dinode := ⟨0, 0, 0, 0, 0, Vector.replicate _ 0⟩

/-- Two `short` fields in one word. -/
def pack (low high : Int16) : UInt32 := UInt32.ofNat (low.toUInt16.toNat + 65536 * high.toUInt16.toNat)
def low (value : UInt32) : Int16 := (UInt16.ofNat value.toNat).toInt16
def high (value : UInt32) : Int16 := (UInt16.ofNat (value.toNat / 65536)).toInt16

/-- The `dinode` at a position in a block of inodes. -/
def decode (bytes : Block) (position : ℕ) : Dinode where
  type := low (bytes.word (16 * position))
  major := high (bytes.word (16 * position))
  minor := low (bytes.word (16 * position + 1))
  nlink := high (bytes.word (16 * position + 1))
  size := bytes.word (16 * position + 2)
  addrs := Vector.ofFn fun k => bytes.word (16 * position + 3 + k)

def words (din : Dinode) : List UInt32 :=
  pack din.type din.major :: pack din.minor din.nlink :: din.size :: din.addrs.toList

def encode (bytes : Block) (position : ℕ) (din : Dinode) : Block := bytes.setWords (16 * position) din.words

def addr (din : Dinode) (k : ℕ) : UInt32 := din.addrs[k]?.getD 0
def setAddr (din : Dinode) (k : ℕ) (a : UInt32) : Dinode := { din with addrs := din.addrs.setIfInBounds k a }

end Dinode

/-- A directory entry; a name shorter than `DIRSIZ` ends in a NUL. -/
structure Dirent where
  inum : UInt16
  name : List UInt8
deriving DecidableEq, Repr

namespace Dirent

def decode (bytes : List UInt8) : Dirent where
  inum := UInt16.ofNat ((bytes[0]?.getD 0).toNat + 256 * (bytes[1]?.getD 0).toNat)
  name := (bytes.drop 2).take dirsiz

def encode (de : Dirent) : List UInt8 :=
  UInt8.ofNat de.inum.toNat :: UInt8.ofNat (de.inum.toNat / 256) :: de.name

end Dirent

/-- A string ends where the list does, or at a NUL. -/
def strncmp : ℕ → List UInt8 → List UInt8 → ℤ
  | 0, _, _ => 0
  | n + 1, p, q =>
    if p.headD 0 ≠ 0 ∧ p.headD 0 = q.headD 0 then strncmp n p.tail q.tail
    else ((p.headD 0).toNat : ℤ) - (q.headD 0).toNat

def namecmp (s t : List UInt8) : ℤ := strncmp dirsiz s t

/-- The `n` bytes that `strncpy` stores: the string, then NULs. -/
def strncpy : ℕ → List UInt8 → List UInt8
  | 0, _ => []
  | n + 1, t => if t.headD 0 = 0 then List.replicate (n + 1) 0 else t.headD 0 :: strncpy n t.tail

end Xv6.Fs
