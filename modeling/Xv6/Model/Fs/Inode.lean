import Xv6.Model.Fs.Layout

/-! # Blocks, inodes and directories

The functions of `fs.c` between the buffer cache and the system calls, over the contents that `bread`
returns. An in-memory inode is passed to each function and returned by it; `iupdate` is what copies it to
its block. A block given to `log_write` is noted; a block that a failed copy has changed is changed
without a note. The memory at the other end of a copy is given byte by byte, the bytes that cannot be
accessed being `none` in a source and `false` in a destination, and a copy moves the bytes before the
first of these.
-/

namespace Xv6.Fs

inductive Fault where
  | freeingFreeBlock
  | bmapOutOfRange
  | ilockNoType
  | dirlookupNotDir
  | dirlookupRead
  | dirlinkRead
deriving DecidableEq, Repr

structure Store where
  disk : ℕ → Block
  /-- The blocks given to `log_write`, in order. -/
  logged : List ℕ

abbrev Op := StateT Store (Except Fault)

/-- The part of `struct inode` that is copied from the disk, with its number. -/
structure Inode extends Dinode where
  inum : ℕ
deriving DecidableEq, Repr

namespace Op

def bread (b : ℕ) : Op Block := return (← get).disk b

/-- Change the buffer of a block. -/
def scribble (b : ℕ) (data : Block) : Op Unit := modify fun s => { s with disk := Function.update s.disk b data }

/-- Change the buffer of a block and `log_write` it. -/
def logWrite (b : ℕ) (data : Block) : Op Unit :=
  modify fun s => ⟨Function.update s.disk b data, s.logged ++ [b]⟩

def bzero (b : ℕ) : Op Unit := logWrite b (Vector.replicate _ 0)

/-- The inner loop of `balloc`, over the bits of one bitmap block. -/
def freeIn (sb : Superblock) (bp : Block) (b : ℕ) : Option ℕ :=
  ((List.range bpb).find? fun bi => decide (b + bi < sb.size) && !bp.bit bi).map (b + ·)

/-- The block that `balloc` finds, over all bitmap blocks. -/
def findFree (sb : Superblock) (disk : ℕ → Block) : Option ℕ :=
  (List.range ((sb.size + bpb - 1) / bpb)).findSome? fun k => freeIn sb (disk (sb.bblock (k * bpb))) (k * bpb)

def balloc (sb : Superblock) : Op UInt32 := do
  match findFree sb (← get).disk with
  | none => return 0
  | some b =>
    logWrite (sb.bblock b) ((← bread (sb.bblock b)).setBit (b % bpb))
    bzero b
    return UInt32.ofNat b

def bfree (sb : Superblock) (b : ℕ) : Op Unit := do
  let bp ← bread (sb.bblock b)
  if bp.bit (b % bpb) then logWrite (sb.bblock b) (bp.clearBit (b % bpb))
  else throw .freeingFreeBlock

def iupdate (sb : Superblock) (ip : Inode) : Op Unit := do
  let bp ← bread (sb.iblock ip.inum)
  logWrite (sb.iblock ip.inum) (ip.toDinode.encode bp (ip.inum % ipb))

/-- `ilock` of an inode that is not valid. -/
def ilock (sb : Superblock) (inum : ℕ) : Op Inode := do
  let din := Dinode.decode (← bread (sb.iblock inum)) (inum % ipb)
  if din.type = 0 then throw .ilockNoType else return { din with inum }

/-- The number of the inode that `ialloc` returns, `none` for `NULL`. -/
def ialloc (sb : Superblock) (type : Int16) : Op (Option ℕ) := do
  let disk := (← get).disk
  match (List.range' 1 (sb.ninodes - 1)).find? fun i => (Dinode.decode (disk (sb.iblock i)) (i % ipb)).type = 0 with
  | none => return none
  | some i =>
    let bp ← bread (sb.iblock i)
    logWrite (sb.iblock i) (({ Dinode.zero with type } : Dinode).encode bp (i % ipb))
    return some i

/-- `balloc` where a slot is empty. -/
def filled (sb : Superblock) (addr : UInt32) : Op UInt32 :=
  if addr = 0 then balloc sb else return addr

/-- `bmap` from the indirect block on. -/
def bmapEntry (sb : Superblock) (indirect bn : ℕ) : Op UInt32 := do
  let found := (← bread indirect).word bn
  if found = 0 then
    let addr ← balloc sb
    if addr = 0 then return 0
    else
      logWrite indirect ((← bread indirect).setWord bn addr)
      return addr
  else return found

def bmap (sb : Superblock) (ip : Inode) (bn : ℕ) : Op (Inode × UInt32) := do
  if bn < ndirect then
    let addr ← filled sb (ip.addr bn)
    return if addr = 0 then (ip, 0) else ({ ip with toDinode := ip.setAddr bn addr }, addr)
  else if bn - ndirect < nindirect then
    let indirect ← filled sb (ip.addr ndirect)
    if indirect = 0 then return (ip, 0)
    else return ({ ip with toDinode := ip.setAddr ndirect indirect }, ← bmapEntry sb indirect.toNat (bn - ndirect))
  else throw .bmapOutOfRange

/-- Free the blocks in the first slots of an array. -/
def bfreeAll (sb : Superblock) (slots : ℕ) (read : ℕ → Op UInt32) : Op Unit :=
  (List.range slots).forM fun j => do
    let a ← read j
    if a = 0 then return () else bfree sb a.toNat

/-- The loops of `itrunc`. -/
def freeSlots (sb : Superblock) (ip : Inode) : Op Unit := do
  bfreeAll sb ndirect fun i => return ip.addr i
  if ip.addr ndirect = 0 then return ()
  else
    bfreeAll sb nindirect fun j => return (← bread (ip.addr ndirect).toNat).word j
    bfree sb (ip.addr ndirect).toNat

def itrunc (sb : Superblock) (ip : Inode) : Op Inode := do
  freeSlots sb ip
  let ip := { ip with addrs := Vector.replicate _ 0, size := 0 }
  iupdate sb ip
  return ip

/-- The number of bytes that `either_copyout` and `either_copyin` move of `m`. -/
def moved (accessible : ℕ → Bool) (m : ℕ) : ℕ := ((List.range m).takeWhile accessible).length

/-- The loop of `readi` from `tot` on, with the bytes copied and the value of `tot` at the end. -/
def readLoop (sb : Superblock) (dst : ℕ → Bool) (n : ℕ) : (fuel : ℕ) → Inode → (tot off : ℕ) →
    Op (Inode × List UInt8 × ℤ)
  | 0, ip, tot, _ => return (ip, [], tot)
  | fuel + 1, ip, tot, off =>
    if tot < n then do
      let (ip, addr) ← bmap sb ip (off / bsize)
      if addr = 0 then return (ip, [], tot)
      else
        let bp ← bread addr.toNat
        let m := min (n - tot) (bsize - off % bsize)
        let copied := moved (fun i => dst (tot + i)) m
        let bytes := (bp.toList.drop (off % bsize)).take copied
        if copied < m then return (ip, bytes, -1)
        else
          let (ip, rest, tot) ← readLoop sb dst n fuel ip (tot + m) (off + m)
          return (ip, bytes ++ rest, tot)
    else return (ip, [], tot)

/-- The bytes copied to `dst` and the value returned. A round of the loop copies a byte at least. -/
def readi (sb : Superblock) (ip : Inode) (dst : ℕ → Bool) (off n : UInt32) : Op (Inode × List UInt8 × ℤ) :=
  if off > ip.size ∨ off + n < off then return (ip, [], 0)
  else
    let n := if off + n > ip.size then ip.size - off else n
    readLoop sb dst n.toNat n.toNat ip 0 off.toNat

/-- The loop of `writei` from `tot` on, with the values of `tot` and `off` at the end. -/
def writeLoop (sb : Superblock) (src : ℕ → Option UInt8) (n : ℕ) : (fuel : ℕ) → Inode → (tot off : ℕ) →
    Op (Inode × ℕ × ℕ)
  | 0, ip, tot, off => return (ip, tot, off)
  | fuel + 1, ip, tot, off =>
    if tot < n then do
      let (ip, addr) ← bmap sb ip (off / bsize)
      if addr = 0 then return (ip, tot, off)
      else
        let bp ← bread addr.toNat
        let m := min (n - tot) (bsize - off % bsize)
        let copied := moved (fun i => (src (tot + i)).isSome) m
        let data := bp.splice (off % bsize) copied fun i => (src (tot + i)).getD 0
        if copied < m then
          scribble addr.toNat data
          return (ip, tot, off)
        else
          logWrite addr.toNat data
          writeLoop sb src n fuel ip (tot + m) (off + m)
    else return (ip, tot, off)

def writei (sb : Superblock) (ip : Inode) (src : ℕ → Option UInt8) (off n : UInt32) : Op (Inode × ℤ) :=
  if off > ip.size ∨ off + n < off then return (ip, -1)
  else if (off + n).toNat > maxfile * bsize then return (ip, -1)
  else do
    let (ip, tot, stop) ← writeLoop sb src n.toNat n.toNat ip 0 off.toNat
    let ip := if stop > ip.size.toNat then { ip with size := UInt32.ofNat stop } else ip
    iupdate sb ip
    return (ip, tot)

/-- A scan of the entries of a directory from `off` on, to the first that `wanted` accepts. -/
def scan (sb : Superblock) (fault : Fault) (wanted : Dirent → Bool) : (fuel : ℕ) → Inode → (off : ℕ) →
    Op (Inode × Option (ℕ × Dirent) × ℕ)
  | 0, dp, off => return (dp, none, off)
  | fuel + 1, dp, off =>
    if off < dp.size.toNat then do
      let (dp, bytes, got) ← readi sb dp (fun _ => true) (UInt32.ofNat off) (UInt32.ofNat direntSize)
      if got ≠ direntSize then throw fault
      else if wanted (Dirent.decode bytes) then return (dp, some (off, Dirent.decode bytes), off)
      else scan sb fault wanted fuel dp (off + direntSize)
    else return (dp, none, off)

/-- The offset and the inode number of the entry found. -/
def dirlookup (sb : Superblock) (dp : Inode) (name : List UInt8) : Op (Inode × Option (ℕ × UInt16)) := do
  if dp.type ≠ tDir then throw .dirlookupNotDir
  else
    let (dp, found, _) ← scan sb .dirlookupRead (fun de => de.inum ≠ 0 ∧ namecmp name de.name = 0) dp.size.toNat dp 0
    return (dp, found.map fun entry => (entry.1, entry.2.inum))

/-- The part of `dirlink` behind the look-up. -/
def addEntry (sb : Superblock) (dp : Inode) (name : List UInt8) (inum : UInt32) : Op (Inode × ℤ) := do
  let (dp, _, off) ← scan sb .dirlinkRead (fun de => de.inum = 0) dp.size.toNat dp 0
  let bytes := Dirent.encode ⟨UInt16.ofNat inum.toNat, strncpy dirsiz name⟩
  let (dp, wrote) ← writei sb dp (fun i => bytes[i]?) (UInt32.ofNat off) (UInt32.ofNat direntSize)
  return (dp, if wrote ≠ direntSize then -1 else 0)

def dirlink (sb : Superblock) (dp : Inode) (name : List UInt8) (inum : UInt32) : Op (Inode × ℤ) := do
  let (dp, present) ← dirlookup sb dp name
  if present.isSome then return (dp, -1) else addEntry sb dp name inum

/-- What `iput` does to an inode with no links and no other reference. -/
def free (sb : Superblock) (ip : Inode) : Op Unit := do
  let ip ← itrunc sb ip
  iupdate sb { ip with type := 0 }

end Op

end Xv6.Fs
