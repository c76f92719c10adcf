import Xv6.Model.Fs.Layout

/-! # `mkfs`

The program that writes the first image. The image file is the contents of its sectors, with its length in
sectors: a read behind the end returns fewer bytes than asked for. A host file is its path, and the pieces in
which `read` returns it; it may also fail to open. The words of the image are little-endian on every host.
-/

namespace Xv6.Fs.Mkfs

def ninodes : ℕ := 200
def fssize : ℕ := 2000
def rootino : ℕ := 1
def fsmagic : ℕ := 0x10203040

def tFile : Int16 := 2

def nbitmap : ℕ := fssize / bpb + 1
def ninodeblocks : ℕ := ninodes / ipb + 1
def nlog : ℕ := logBlocks + 1
def nmeta : ℕ := 2 + nlog + ninodeblocks + nbitmap
def nblocks : ℕ := fssize - nmeta

def sb : Superblock where
  size := fssize
  nblocks := nblocks
  ninodes := ninodes
  inodestart := 2 + nlog
  bmapstart := 2 + nlog + ninodeblocks
  inodes_end := by decide
  bitmap_end := by decide
  size_lt := by decide

/-- The words of `struct superblock`. -/
def superblock : List UInt32 :=
  [fsmagic, fssize, nblocks, ninodes, nlog, 2, sb.inodestart, sb.bmapstart].map UInt32.ofNat

def zeroes : Block := Vector.replicate _ 0

/-- The block of the superblock. -/
@[irreducible] def superblockBlock : Block := zeroes.setWords 0 superblock

/-- The ways to stop before the end. -/
inductive Exit where
  | die
  | assertion
deriving DecidableEq, Repr

structure State where
  disk : ℕ → Block
  sectors : ℕ
  freeinode : ℕ
  freeblock : ℕ

abbrev Make := StateT State (Except Exit)

def wsect (sec : ℕ) (buf : Block) : Make Unit :=
  modify fun st => { st with disk := Function.update st.disk sec buf, sectors := max st.sectors (sec + 1) }

def rsect (sec : ℕ) : Make Block := do
  let st ← get
  if st.sectors ≤ sec then throw .die
  return st.disk sec

def winode (inum : ℕ) (din : Dinode) : Make Unit := do
  let buf ← rsect (sb.iblock inum)
  wsect (sb.iblock inum) (din.encode buf (inum % ipb))

def rinode (inum : ℕ) : Make Dinode := do
  let buf ← rsect (sb.iblock inum)
  return .decode buf (inum % ipb)

def ialloc (type : Int16) : Make ℕ := do
  let inum := (← get).freeinode
  modify fun st => { st with freeinode := inum + 1 }
  winode inum { Dinode.zero with type, nlink := 1 }
  return inum

def balloc (used : ℕ) : Make Unit := do
  if bpb ≤ used then throw .assertion
  wsect sb.bmapstart ((List.range used).foldl (fun buf i => buf.setBit i) zeroes)

/-- `freeblock++` -/
def nextBlock : Make ℕ := do
  let b := (← get).freeblock
  modify fun st => { st with freeblock := b + 1 }
  return b

/-- A slot of the inode, filled if it is empty, with the contents of its block. -/
def fillAddr (din : Dinode) (k : ℕ) : Make (Dinode × Block) := do
  if din.addr k = 0 then
    let din := din.setAddr k (UInt32.ofNat (← nextBlock))
    return (din, ← rsect (din.addr k).toNat)
  else return (din, ← rsect (din.addr k).toNat)

/-- The same for an entry of the indirect block, with the number of the block. -/
def fillEntry (a : ℕ) (indirect : Block) (j : ℕ) : Make (ℕ × Block) := do
  if indirect.word j = 0 then
    let indirect := indirect.setWord j (UInt32.ofNat (← nextBlock))
    wsect a indirect
    return ((indirect.word j).toNat, ← rsect (indirect.word j).toNat)
  else return ((indirect.word j).toNat, ← rsect (indirect.word j).toNat)

/-- The block for `fbn` in the loop of `iappend`, with its contents. -/
def fetch (din : Dinode) (fbn : ℕ) : Make (Dinode × ℕ × Block) := do
  if fbn < ndirect then
    let (din, buf) ← fillAddr din fbn
    return (din, (din.addr fbn).toNat, buf)
  else
    let (din, indirect) ← fillAddr din ndirect
    return (din, ← fillEntry (din.addr ndirect).toNat indirect (fbn - ndirect))

/-- The loop of `iappend`, with the inode and the offset at the end. A round appends a byte at least. -/
def iappendLoop : (fuel : ℕ) → Dinode → (off : ℕ) → (p : List UInt8) → Make (Dinode × ℕ)
  | 0, din, off, _ => return (din, off)
  | fuel + 1, din, off, p => do
      if p.length = 0 then return (din, off)
      let fbn := off / bsize
      if maxfile ≤ fbn then throw .assertion
      let (din, x, buf) ← fetch din fbn
      let n1 := min p.length ((fbn + 1) * bsize - off)
      wsect x (buf.splice (off - fbn * bsize) n1 fun i => p.getD i 0)
      iappendLoop fuel din (off + n1) (p.drop n1)

def iappend (inum : ℕ) (p : List UInt8) : Make Unit := do
  let din ← rinode inum
  let (din, off) ← iappendLoop p.length din din.size.toNat p
  winode inum { din with size := UInt32.ofNat off }

/-- The bytes that `read` returns at once. -/
abbrev Chunk := { bytes : List UInt8 // bytes ≠ [] ∧ bytes.length ≤ bsize }

structure HostFile where
  path : List UInt8
  string : 0 ∉ path
  chunks : Option (List Chunk)

/-- The path without `user/`. -/
def shortname (path : List UInt8) : List UInt8 := if [117, 115, 101, 114, 47].isPrefixOf path then path.drop 5 else path

/-- The name without a leading underscore. -/
def skipUnderscore (name : List UInt8) : List UInt8 := if name.head? = some 95 then name.tail else name

def dirent (inum : ℕ) (name : List UInt8) : List UInt8 := Dirent.encode ⟨UInt16.ofNat inum, strncpy dirsiz name⟩

/-- One round of the loop over the arguments. -/
def addFile (root : ℕ) (file : HostFile) : Make Unit := do
  let shortname := shortname file.path
  if 47 ∈ shortname then throw .assertion
  match file.chunks with
  | none => throw .die
  | some chunks => do
      let shortname := skipUnderscore shortname
      if dirsiz < shortname.length then throw .assertion
      let inum ← ialloc tFile
      iappend root (dirent inum shortname)
      chunks.forM fun chunk => iappend inum chunk.val

/-- The size of the root directory is rounded up. -/
def fixSize (root : ℕ) : Make Unit := do
  let din ← rinode root
  winode root { din with size := UInt32.ofNat ((din.size.toNat / bsize + 1) * bsize) }

/-- The first loop of `main`, over the first `n` sectors. -/
@[irreducible] def blank (n : ℕ) : Make Unit := (List.range n).forM fun i => wsect i zeroes

def main (files : List HostFile) : Make Unit := do
  blank fssize
  wsect 1 superblockBlock
  let root ← ialloc tDir
  if root ≠ rootino then throw .assertion
  iappend root (dirent root [46])
  iappend root (dirent root [46, 46])
  files.forM (addFile root)
  fixSize root
  balloc (← get).freeblock

/-- The image file is empty at the start. -/
def start : State := ⟨fun _ => zeroes, 0, 1, nmeta⟩

def mkfs (files : List HostFile) : Except Exit State := ((main files).run start).map (·.2)

end Xv6.Fs.Mkfs
