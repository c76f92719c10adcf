import Xv6.Model.Fs.Inode
import Xv6.Model.Fs.Itable

/-! # In-memory inodes

The inode table over the blocks of the one device, for a process that runs alone: references of other
processes are in the table, but no lock is theirs. A pointer to an inode is the index of its entry. The
functions of the level below work on the copy in a locked entry.
-/

namespace Xv6.Fs

open Itable (ninode)

/-- `struct inode`; `locked` is that of the sleep lock, and `din` the fields copied from the disk. -/
structure Incore where
  inum : ℕ
  ref : ℕ
  locked : Bool
  valid : Bool
  din : Dinode

/-- The inode that the functions of the level below work on. -/
def Incore.inode (e : Incore) : Inode := { e.din with inum := e.inum }

structure Kernel where
  store : Store
  table : Fin ninode → Incore

/-- How a call stops: with a panic, or asleep for good on a lock of its own. -/
inductive Stop where
  | fault (f : Fault)
  | igetNoInodes
  | ilock
  | iunlock
  | isdirempty
  | unlinkNlink
  | unlinkWritei
  | asleep
deriving DecidableEq, Repr

abbrev Kern := StateT Kernel (Except Stop)

namespace Kern

def onStore {α : Type} (m : Op α) : Kern α := fun k =>
  match m.run k.store with
  | .ok (a, store) => .ok (a, { k with store })
  | .error f => .error (.fault f)

def entry (p : Fin ninode) : Kern Incore := return (← get).table p

def setEntry (p : Fin ninode) (e : Incore) : Kern Unit :=
  modify fun k => { k with table := Function.update k.table p e }

/-- Work on the inode in an entry. -/
def onInode {α : Type} (p : Fin ninode) (work : Inode → Op (Inode × α)) : Kern α := do
  let e ← entry p
  let (ip, a) ← onStore (work e.inode)
  setEntry p { e with din := ip.toDinode }
  return a

def idup (p : Fin ninode) : Kern (Fin ninode) := do
  let e ← entry p
  setEntry p { e with ref := e.ref + 1 }
  return p

/-- The entry of an inode that is in the table. -/
def present? (table : Fin ninode → Incore) (inum : ℕ) : Option (Fin ninode) :=
  (List.finRange ninode).find? fun p => 0 < (table p).ref ∧ (table p).inum = inum

/-- The first entry that is free. -/
def empty? (table : Fin ninode → Incore) : Option (Fin ninode) :=
  (List.finRange ninode).find? fun p => (table p).ref = 0

def iget (inum : ℕ) : Kern (Fin ninode) := do
  match present? (← get).table inum with
  | some p => idup p
  | none =>
    match empty? (← get).table with
    | none => throw .igetNoInodes
    | some p =>
      let e ← entry p
      setEntry p { e with inum, ref := 1, valid := false }
      return p

def ilock (sb : Superblock) (p : Fin ninode) : Kern Unit := do
  let e ← entry p
  if e.ref < 1 then throw .ilock
  else if e.locked then throw .asleep
  else if e.valid then setEntry p { e with locked := true }
  else
    let ip ← onStore (Op.ilock sb e.inum)
    setEntry p { e with locked := true, valid := true, din := ip.toDinode }

def iunlock (p : Fin ninode) : Kern Unit := do
  let e ← entry p
  if !e.locked ∨ e.ref < 1 then throw .iunlock
  else setEntry p { e with locked := false }

def iput (sb : Superblock) (p : Fin ninode) : Kern Unit := do
  let e ← entry p
  if e.ref = 1 ∧ e.valid ∧ e.din.nlink = 0 then
    if e.locked then throw .asleep
    else
      onStore (Op.free sb e.inode)
      setEntry p { e with
        ref := 0, valid := false, din := { e.din with type := 0, size := 0, addrs := Vector.replicate _ 0 } }
  else setEntry p { e with ref := e.ref - 1 }

def iunlockput (sb : Superblock) (p : Fin ninode) : Kern Unit := do
  iunlock p
  iput sb p

/-- The `dinode` of an inode in its block. -/
def onDisk (sb : Superblock) (inum : ℕ) : Kern Dinode :=
  return Dinode.decode ((← get).store.disk (sb.iblock inum)) (inum % ipb)

def ireclaim (sb : Superblock) : Kern Unit :=
  (List.range' 1 (sb.ninodes - 1)).forM fun inum => do
    let dip ← onDisk sb inum
    if dip.type ≠ 0 ∧ dip.nlink = 0 then
      let ip ← iget inum
      ilock sb ip
      iunlock ip
      iput sb ip
    else return ()

end Kern

end Xv6.Fs
