import Xv6.Model.Fs.Path

/-! # The calls that name files

`sys_link`, `sys_unlink`, `sys_mkdir` and `sys_mknod` for a process that runs alone. An argument is `none`
where `argstr` cannot fetch it. The functions below the calls are cut where a call has made its decision.
-/

namespace Xv6.Fs

open Itable (ninode)
open Mkfs (tFile)

def tDevice : Int16 := 3

def dot : List UInt8 := [46]
def dotdot : List UInt8 := [46, 46]

namespace Kern

/-- A change to the fields of an inode, and `iupdate`. -/
def amend (sb : Superblock) (p : Fin ninode) (change : Dinode → Dinode) : Kern Unit :=
  onInode p fun ip => do
    let ip := { ip with toDinode := change ip.toDinode }
    Op.iupdate sb ip
    return (ip, ())

def ialloc (sb : Superblock) (type : Int16) : Kern (Option (Fin ninode)) := do
  match ← onStore (Op.ialloc sb type) with
  | none => return none
  | some inum => return some (← iget inum)

def dirlink (sb : Superblock) (dp : Fin ninode) (name : List UInt8) (inum : ℕ) : Kern ℤ := do
  match ← dirlookup sb dp name with
  | some (ip, _) =>
    iput sb ip
    return -1
  | none => onInode dp fun ip => Op.addEntry sb ip name (UInt32.ofNat inum)

/-- The label `bad` of `sys_link`. -/
def unlinkAgain (sb : Superblock) (ip : Fin ninode) : Kern ℤ := do
  ilock sb ip
  amend sb ip fun din => { din with nlink := din.nlink - 1 }
  iunlockput sb ip
  return -1

/-- `sys_link` once the file has its new link. -/
def linkAs (sb : Superblock) (cwd ip : Fin ninode) (new : List UInt8) : Kern ℤ := do
  match ← nameiparent sb cwd new (List.replicate dirsiz 0) with
  | (none, _) => unlinkAgain sb ip
  | (some dp, name) =>
    ilock sb dp
    if (← dirlink sb dp name (← entry ip).inum) < 0 then
      iunlockput sb dp
      unlinkAgain sb ip
    else
      iunlockput sb dp
      iput sb ip
      return 0

def sysLink (sb : Superblock) (cwd : Fin ninode) (old new : Option (List UInt8)) : Kern ℤ :=
  match old, new with
  | some old, some new => do
    match ← namei sb cwd old with
    | none => return -1
    | some ip =>
      ilock sb ip
      if (← entry ip).din.type = tDir then
        iunlockput sb ip
        return -1
      else
        amend sb ip fun din => { din with nlink := din.nlink + 1 }
        iunlock ip
        linkAs sb cwd ip new
  | _, _ => return -1

/-- The loop of `isdirempty` from `off` on. -/
def isdiremptyLoop (sb : Superblock) (dp : Fin ninode) : (fuel off : ℕ) → Kern Bool
  | 0, _ => return true
  | fuel + 1, off => do
    if off < (← entry dp).din.size.toNat then
      let (bytes, got) ← onInode dp fun ip =>
        Op.readi sb ip (fun _ => true) (UInt32.ofNat off) (UInt32.ofNat direntSize)
      if got ≠ direntSize then throw .isdirempty
      else if (Dirent.decode bytes).inum ≠ 0 then return false
      else isdiremptyLoop sb dp fuel (off + direntSize)
    else return true

def isdirempty (sb : Superblock) (dp : Fin ninode) : Kern Bool := do
  isdiremptyLoop sb dp (← entry dp).din.size.toNat (direntSize * 2)

/-- The directory of a removed directory loses the link that was for `..`. -/
def lowerParent (sb : Superblock) (dp ip : Fin ninode) : Kern Unit := do
  if (← entry ip).din.type = tDir then amend sb dp fun din => { din with nlink := din.nlink - 1 } else return ()

/-- `sys_unlink` once nothing speaks against it. -/
def removeEntry (sb : Superblock) (dp ip : Fin ninode) (off : ℕ) : Kern ℤ := do
  if (← onInode dp fun dir => Op.clearEntry sb dir (UInt32.ofNat off)) ≠ direntSize then throw .unlinkWritei
  else
    lowerParent sb dp ip
    iunlockput sb dp
    amend sb ip fun din => { din with nlink := din.nlink - 1 }
    iunlockput sb ip
    return 0

/-- `sys_unlink` once the entry is found. -/
def unlinkEntry (sb : Superblock) (dp ip : Fin ninode) (off : ℕ) : Kern ℤ := do
  ilock sb ip
  let din := (← entry ip).din
  if din.nlink < 1 then throw .unlinkNlink
  else if din.type = tDir then
    if ← isdirempty sb ip then removeEntry sb dp ip off
    else
      iunlockput sb ip
      iunlockput sb dp
      return -1
  else removeEntry sb dp ip off

def sysUnlink (sb : Superblock) (cwd : Fin ninode) (path : Option (List UInt8)) : Kern ℤ :=
  match path with
  | none => return -1
  | some path => do
    match ← nameiparent sb cwd path (List.replicate dirsiz 0) with
    | (none, _) => return -1
    | (some dp, name) =>
      ilock sb dp
      if namecmp name dot = 0 ∨ namecmp name dotdot = 0 then
        iunlockput sb dp
        return -1
      else
        match ← dirlookup sb dp name with
        | none =>
          iunlockput sb dp
          return -1
        | some (ip, off) => unlinkEntry sb dp ip off

/-- The entries that `create` makes, the last one in the directory of the new inode. -/
def makeEntries (sb : Superblock) (dp ip : Fin ninode) (name : List UInt8) (type : Int16) : Kern Bool := do
  let inum := (← entry ip).inum
  if type = tDir then
    if (← dirlink sb ip dot inum) < 0 then return false
    else if (← dirlink sb ip dotdot (← entry dp).inum) < 0 then return false
    else return !((← dirlink sb dp name inum) < 0)
  else return !((← dirlink sb dp name inum) < 0)

/-- The directory of a new directory gets a link for `..`. -/
def raiseParent (sb : Superblock) (dp : Fin ninode) (type : Int16) : Kern Unit :=
  if type = tDir then amend sb dp fun din => { din with nlink := din.nlink + 1 } else return ()

/-- `create` once an inode is allocated. -/
def createAs (sb : Superblock) (dp ip : Fin ninode) (name : List UInt8) (type major minor : Int16) :
    Kern (Option (Fin ninode)) := do
  ilock sb ip
  amend sb ip fun din => { din with major, minor, nlink := 1 }
  if ← makeEntries sb dp ip name type then
    raiseParent sb dp type
    iunlockput sb dp
    return some ip
  else
    amend sb ip fun din => { din with nlink := 0 }
    iunlockput sb ip
    iunlockput sb dp
    return none

def create (sb : Superblock) (cwd : Fin ninode) (path : List UInt8) (type major minor : Int16) :
    Kern (Option (Fin ninode)) := do
  match ← nameiparent sb cwd path (List.replicate dirsiz 0) with
  | (none, _) => return none
  | (some dp, name) =>
    ilock sb dp
    match ← dirlookup sb dp name with
    | some (ip, _) =>
      iunlockput sb dp
      ilock sb ip
      let found := (← entry ip).din.type
      if type = tFile ∧ (found = tFile ∨ found = tDevice) then return some ip
      else
        iunlockput sb ip
        return none
    | none =>
      match ← ialloc sb type with
      | none =>
        iunlockput sb dp
        return none
      | some ip => createAs sb dp ip name type major minor

/-- `sys_mkdir` and `sys_mknod` with what they pass to `create`. -/
def makeNode (sb : Superblock) (cwd : Fin ninode) (path : Option (List UInt8)) (type major minor : Int16) : Kern ℤ :=
  match path with
  | none => return -1
  | some path => do
    match ← create sb cwd path type major minor with
    | none => return -1
    | some ip =>
      iunlockput sb ip
      return 0

def sysMkdir (sb : Superblock) (cwd : Fin ninode) (path : Option (List UInt8)) : Kern ℤ := makeNode sb cwd path tDir 0 0

/-- The device numbers are converted from `int`. -/
def sysMknod (sb : Superblock) (cwd : Fin ninode) (path : Option (List UInt8)) (major minor : ℤ) : Kern ℤ :=
  makeNode sb cwd path tDevice (Int16.ofInt major) (Int16.ofInt minor)

/-- A call that changes what files are named. -/
inductive NamingCall where
  | link (old new : Option (List UInt8))
  | unlink (path : Option (List UInt8))
  | mkdir (path : Option (List UInt8))
  | mknod (path : Option (List UInt8)) (major minor : ℤ)

def NamingCall.perform (sb : Superblock) (cwd : Fin ninode) : NamingCall → Kern ℤ
  | link old new => sysLink sb cwd old new
  | unlink path => sysUnlink sb cwd path
  | mkdir path => sysMkdir sb cwd path
  | mknod path major minor => sysMknod sb cwd path major minor

end Kern

end Xv6.Fs
