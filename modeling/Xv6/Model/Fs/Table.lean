import Xv6.Model.Fs.Inode

/-! # Runs of inode operations

A file system is its blocks and the in-memory inodes that are valid. An operation locks its inode, which
reads it from the disk if it is not valid, works on the copy and leaves the copy in the table. Operations
exclude each other: the lock of an inode is held throughout, and the blocks of different inodes are
different.
-/

namespace Xv6.Fs

structure FileSystem where
  store : Store
  /-- The in-memory copy of an inode whose table entry is in use and `valid`. -/
  valid : ℕ → Option Dinode

namespace FileSystem

inductive Call (sb : Superblock) where
  | ialloc (type : Int16)
  | readi (i : Fin sb.ninodes) (dst : ℕ → Bool) (off n : UInt32)
  | writei (i : Fin sb.ninodes) (src : ℕ → Option UInt8) (off n : UInt32)
  | itrunc (i : Fin sb.ninodes)
  | dirlink (i : Fin sb.ninodes) (name : List UInt8) (inum : UInt32)
  /-- The fields that `create`, `sys_link` and `sys_unlink` set before an `iupdate`. -/
  | relink (i : Fin sb.ninodes) (major minor nlink : Int16)
  /-- `iput` of the last reference. -/
  | iput (i : Fin sb.ninodes)

variable {sb : Superblock}

/-- Programs on a file system. -/
abbrev Sys := StateT FileSystem (Except Fault)

def onStore {α : Type} (m : Op α) : Sys α := fun fs => do
  let (a, store) ← m.run fs.store
  return (a, { fs with store })

def lock (sb : Superblock) (i : ℕ) : Sys Inode := do
  match (← get).valid i with
  | some din => return { din with inum := i }
  | none => onStore (Op.ilock sb i)

/-- Lock an inode, work on it and leave the copy in the table. -/
def onInode (sb : Superblock) (i : ℕ) (work : Inode → Op Inode) : Sys Unit := do
  let ip ← onStore (work (← lock sb i))
  modify fun fs => { fs with valid := Function.update fs.valid i (some ip.toDinode) }

/-- Store the fields that are not about blocks. -/
def update (sb : Superblock) (major minor nlink : Int16) (ip : Inode) : Op Inode := do
  Op.iupdate sb { ip with major, minor, nlink }
  return { ip with major, minor, nlink }

def step : Call sb → Sys Unit
  | .ialloc type => do let _ ← onStore (Op.ialloc sb type)
  | .readi i dst off n => onInode sb i fun ip => return (← Op.readi sb ip dst off n).1
  | .writei i src off n => onInode sb i fun ip => return (← Op.writei sb ip src off n).1
  | .itrunc i => onInode sb i (Op.itrunc sb)
  | .dirlink i name inum => onInode sb i fun dp => return (← Op.dirlink sb dp name inum).1
  | .relink i major minor nlink => onInode sb i (update sb major minor nlink)
  | .iput i => do
    match (← get).valid i with
    | none => return ()
    | some din =>
      if din.nlink = 0 then onStore (Op.free sb { din with inum := i })
      modify fun fs => { fs with valid := Function.update fs.valid i none }

def run (calls : List (Call sb)) : Sys Unit := calls.forM step

end FileSystem

end Xv6.Fs
