import Xv6.Model.Fs.Directory
import Xv6.Model.Fs.Incore
import Xv6.Model.Fs.Mkfs
import Xv6.ToMathlib.ListWords

/-! # Paths

A path is a string that ends where the list does or at a NUL. `skipelem` takes its first element off and
leaves the element in the caller's buffer of `DIRSIZ` bytes, where it has a NUL only if it is shorter. What a
path is for is told by its components and by a walk through the maps of directories.
-/

namespace Xv6.Fs

open Itable (ninode)
open Mkfs (rootino)

/-- The character that separates the elements of a path. -/
def slash : UInt8 := 47

def skipelem (path name : List UInt8) : Option (List UInt8 × List UInt8) :=
  let s := path.dropWhile (· == slash)
  if s.headD 0 = 0 then none
  else
    let elem := s.takeWhile fun c => c ≠ slash ∧ c ≠ 0
    let rest := s.dropWhile fun c => c ≠ slash ∧ c ≠ 0
    let name := if elem.length ≥ dirsiz then elem.take dirsiz else elem ++ 0 :: name.drop (elem.length + 1)
    some (rest.dropWhile (· == slash), name)

namespace Kern

/-- A pointer to the inode of the entry found, and the offset of the entry. -/
def dirlookup (sb : Superblock) (dp : Fin ninode) (name : List UInt8) : Kern (Option (Fin ninode × ℕ)) := do
  match ← onInode dp fun ip => Op.dirlookup sb ip name with
  | none => return none
  | some (off, inum) => return some (← iget inum.toNat, off)

/-- The loop of `namex`, with the buffer at its end. Each round takes a byte at least off the path. -/
def namexLoop (sb : Superblock) (nameiparent : Bool) : (fuel : ℕ) → (path name : List UInt8) → Fin ninode →
    Kern (Option (Fin ninode) × List UInt8)
  | 0, _, name, ip => return (some ip, name)
  | fuel + 1, path, name, ip =>
    match skipelem path name with
    | none => do
      if nameiparent then
        iput sb ip
        return (none, name)
      else return (some ip, name)
    | some (path, name) => do
      ilock sb ip
      if (← entry ip).din.type ≠ tDir then
        iunlockput sb ip
        return (none, name)
      else if nameiparent ∧ path.headD 0 = 0 then
        iunlock ip
        return (some ip, name)
      else
        match ← dirlookup sb ip name with
        | none =>
          iunlockput sb ip
          return (none, name)
        | some (next, _) =>
          iunlockput sb ip
          namexLoop sb nameiparent fuel path name next

def namex (sb : Superblock) (cwd : Fin ninode) (path : List UInt8) (nameiparent : Bool) (name : List UInt8) :
    Kern (Option (Fin ninode) × List UInt8) := do
  let ip ← if path.headD 0 = slash then iget rootino else idup cwd
  namexLoop sb nameiparent (path.length + 1) path name ip

/-- What the buffer holds at first is never read. -/
def namei (sb : Superblock) (cwd : Fin ninode) (path : List UInt8) : Kern (Option (Fin ninode)) :=
  return (← namex sb cwd path false (List.replicate dirsiz 0)).1

def nameiparent (sb : Superblock) (cwd : Fin ninode) (path name : List UInt8) :
    Kern (Option (Fin ninode) × List UInt8) :=
  namex sb cwd path true name

end Kern

section Purpose

/-- The nonempty pieces of a path between slashes, each cut to `DIRSIZ` bytes. -/
def components (path : List UInt8) : List (List UInt8) :=
  ((path.takeWhile (· ≠ 0)).words slash).map (List.take dirsiz)

/-- The string in a buffer of `DIRSIZ` bytes. -/
def cstring (name : List UInt8) : List UInt8 := (name.take dirsiz).takeWhile (· ≠ 0)

/-- The walk from an inode along some names. -/
def Image.resolve (im : Image) : List (List UInt8) → ℕ → Option ℕ
  | [], i => some i
  | name :: rest, i =>
    if (im.inode i).type = tDir then ((im.directory i).lookup (key name)).bind fun inum => im.resolve rest inum.toNat
    else none

/-- The names that at most `n` calls of `skipelem` leave in the buffer. -/
def elements : (n : ℕ) → (path name : List UInt8) → List (List UInt8)
  | 0, _, _ => []
  | n + 1, path, name =>
    match skipelem path name with
    | none => []
    | some (path, name) => cstring name :: elements n path name

end Purpose

end Xv6.Fs
