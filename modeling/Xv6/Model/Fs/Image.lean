import Xv6.Machine.Ownership
import Xv6.Model.Fs.Layout

/-! # File system images

A disk is seen as three regions that do not overlap, the bitmap, the inodes and the data area, and an
image is what the three hold. A slot is a place for a block number: the slots of an inode are its
`addrs`, then the entries of its indirect block. The file of an inode is what its slots lead to.
-/

namespace Xv6.Fs

open Machine

@[ext] structure Image where
  bit : ℕ → Bool
  inode : ℕ → Dinode
  block : ℕ → Block

/-- The image on a disk. Outside of its region each part is taken to be blank. -/
def Superblock.image (sb : Superblock) (disk : ℕ → Block) : Image where
  bit b := decide (b < sb.size) && (disk (sb.bblock b)).bit (b % bpb)
  inode i := if i < sb.ninodes then Dinode.decode (disk (sb.iblock i)) (i % ipb) else .zero
  block b := if sb.datastart ≤ b then disk b else Vector.replicate _ 0

namespace Image

/-- The image once an inode is written back. -/
def put (im : Image) (i : ℕ) (din : Dinode) : Image := { im with inode := Function.update im.inode i din }

/-- The block number in slot `k` of inode `i`, zero where there is no such slot. -/
def slot (im : Image) (i k : ℕ) : UInt32 :=
  if (im.inode i).type = 0 then 0
  else if k ≤ ndirect then (im.inode i).addr k
  else if k ≤ maxfile ∧ (im.inode i).addr ndirect ≠ 0 then
    (im.block ((im.inode i).addr ndirect).toNat).word (k - (ndirect + 1))
  else 0

/-- The block in a slot. -/
def held (im : Image) (x : ℕ × ℕ) : Option ℕ := if im.slot x.1 x.2 = 0 then none else some (im.slot x.1 x.2).toNat

/-- The slot for block `bn` of a file; the indirect block has slot `ndirect`. -/
def dataSlot (bn : ℕ) : ℕ := if bn < ndirect then bn else bn + 1

/-- The byte at an offset of a file, zero where no block is mapped. -/
def byte (im : Image) (i o : ℕ) : UInt8 :=
  match im.held (i, dataSlot (o / bsize)) with
  | none => 0
  | some b => (im.block b).get ⟨o % bsize, Nat.mod_lt _ (by decide)⟩

/-- The contents of a file. -/
def file (im : Image) (i : ℕ) : List UInt8 := (List.range (im.inode i).size.toNat).map (im.byte i)

/-- What an operation on one inode leaves as it was. -/
structure SameElsewhere (im : Image) (i : ℕ) (im' : Image) : Prop where
  inode : ∀ j ≠ i, im'.inode j = im.inode j
  byte : ∀ j ≠ i, ∀ o, im'.byte j o = im.byte j o

/-- The number of directory entries in a file, and each of them. -/
def entries (im : Image) (i : ℕ) : ℕ := (im.inode i).size.toNat / direntSize
def entry (im : Image) (i j : ℕ) : Dirent := .decode (((im.file i).drop (direntSize * j)).take direntSize)

/-- Blocks outside of the data area are never free, and those in it are in use when they are in a slot,
which is then the only one. -/
structure Sound (sb : Superblock) (im : Image) : Prop where
  owned : Owned im.held fun b => sb.datastart ≤ b ∧ b < sb.size ∧ im.bit b = true
  reserved : ∀ b < sb.datastart, im.bit b = true

/-- No block below the size of a file is missing. -/
structure Consistent (sb : Superblock) (im : Image) : Prop extends Sound sb im where
  mapped : ∀ i bn, (im.inode i).type ≠ 0 → bn * bsize < (im.inode i).size.toNat → im.slot i (dataSlot bn) ≠ 0

end Image

end Xv6.Fs
