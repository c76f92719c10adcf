import Xv6.Model.Fs.Inode

/-! # The block allocator, loop by loop

`balloc` and `bfree` of `fs.c` with the loops of the source, over any values of the two fields of the superblock that
they read. The `int` variables of the loops do not wrap for sizes below `2^31 - BPB`; the sum in `BBLOCK` is one of
`uint`.
-/

namespace Xv6.Fs.Bitmap

/-- What the allocator reads of the superblock. -/
structure Extent where
  size : ℕ
  bmapstart : ℕ

/-- `BBLOCK(b, sb)`. -/
def Extent.bblock (sb : Extent) (b : ℕ) : ℕ := (b / bpb + sb.bmapstart) % UInt32.size

/-- The bit of a block. -/
def Extent.marked (sb : Extent) (disk : ℕ → Block) (b : ℕ) : Bool := (disk (sb.bblock b)).bit (b % bpb)

/-- The loop over the bits of one bitmap block, from `bi` on. -/
def scan (size : ℕ) (bp : Block) (b : ℕ) : (rounds bi : ℕ) → Option ℕ
  | 0, _ => none
  | rounds + 1, bi =>
    if b + bi < size then if bp.bit bi = false then some bi else scan size bp b rounds (bi + 1)
    else none

/-- The loop over the bitmap blocks, from the one of block `b` on. A round moves on by `BPB`, so that the size bounds
their number. -/
def ballocFrom (sb : Extent) : (rounds b : ℕ) → Op ℕ
  | 0, _ => return 0
  | rounds + 1, b =>
    if b < sb.size then do
      let bp ← Op.bread (sb.bblock b)
      match scan sb.size bp b bpb 0 with
      | some bi =>
        Op.logWrite (sb.bblock b) (bp.setBit bi)
        Op.bzero (b + bi)
        return b + bi
      | none => ballocFrom sb rounds (b + bpb)
    else return 0

def balloc (sb : Extent) : Op ℕ := ballocFrom sb sb.size 0

def bfree (sb : Extent) (b : ℕ) : Op Unit := do
  let bp ← Op.bread (sb.bblock b)
  if bp.bit (b % bpb) = false then throw .freeingFreeBlock
  Op.logWrite (sb.bblock b) (bp.clearBit (b % bpb))

end Xv6.Fs.Bitmap
