import Xv6.Machine.SlotTable
import Xv6.Model.Fs.Image
import Xv6.Model.Fs.Inode

/-! # Directories as maps

A directory is for a map from names to inode numbers. Two names are one where they agree in their first
`DIRSIZ` bytes, up to a NUL, so the map is on what `strncpy` stores of a name. An entry with inode number
zero is empty.
-/

namespace Xv6.Fs

open Machine

/-- What the entries of a directory are found by. -/
def key (name : List UInt8) : List UInt8 := strncpy dirsiz name

def Dirent.binding (de : Dirent) : Option (List UInt8 × UInt16) :=
  if de.inum = 0 then none else some (key de.name, de.inum)

/-- The entries of a directory. -/
def Image.directory (im : Image) (i : ℕ) : SlotTable (List UInt8) UInt16 :=
  ⟨im.entries i, fun j => (im.entry i j).binding⟩

/-- The entry that `memset` leaves in `sys_unlink`. -/
def Dirent.zero : Dirent := ⟨0, List.replicate dirsiz 0⟩

/-- The `writei` of `sys_unlink`. -/
def Op.clearEntry (sb : Superblock) (dp : Inode) (off : UInt32) : Op (Inode × ℤ) :=
  writei sb dp (fun i => Dirent.zero.encode[i]?) off (UInt32.ofNat direntSize)

end Xv6.Fs
