import Mathlib.Data.List.FinRange
import Xv6.Model.Fs.Layout

/-! # The inode table

`iget`, `idup`, `ilock`, `iunlock`, `iput`, `iupdate` and `ialloc`, run by any number of processes. The steps
are the critical sections under `itable.lock`, what is done under the sleep lock of an inode, and the
accesses to a buffer of inodes, each of which is made under the lock of that buffer. A reference is a pointer
to an entry that some process has to give back, or that it will have when `ialloc` returns; it is followed
through the functions it is passed to. Between `ilock` and `iunlock` the owner of the lock may change the
fields other than the type, which only `ialloc` and `iput` do, and calls `iupdate` before it unlocks the
inode. The blocks that `itrunc` frees are left out. The counts are integers: the tables of files and processes
allow for a few hundred pointers to inodes only.
-/

namespace Xv6.Fs.Itable

open Machine

def ninode : ℕ := 50

/-- What `iget` is asked for. -/
structure Id where
  dev : UInt32
  inum : ℕ
deriving DecidableEq, Repr

inductive Panic where
  | igetNoInodes
  | ilock
  | ilockNoType
  | iunlock
  /-- `acquiresleep` has to wait while a spin lock is held -/
  | schedLocks
deriving DecidableEq, Repr

/-- `struct inode`; `locked` is that of the sleep lock, and `din` the fields copied from the disk. -/
structure Entry where
  dev : UInt32
  inum : ℕ
  ref : ℤ
  locked : Bool
  valid : Bool
  din : Dinode

def Entry.id (e : Entry) : Id := ⟨e.dev, e.inum⟩

/-- What is being done with a reference. -/
inductive Task where
  /-- there is no such reference -/
  | idle
  /-- at the head of the loop of `ialloc` -/
  | scanning (dev : UInt32) (type : Int16) (inum : ℕ)
  /-- `ialloc` is about to call `iget` -/
  | claimed (id : Id)
  | held (k : Fin ninode)
  /-- in `ilock`, with the sleep lock, for an entry that is not valid -/
  | reading (k : Fin ninode)
  /-- after `ilock`; `dirty` while a change waits for `iupdate` -/
  | holding (k : Fin ninode) (dirty : Bool)
  /-- `iput` has taken the sleep lock and is about to call `itrunc` -/
  | truncating (k : Fin ninode)
  /-- about to set the type to zero, with `iupdate` -/
  | erasing (k : Fin ninode)
  /-- about to clear `valid` and to release the sleep lock -/
  | clearing (k : Fin ninode)
  /-- about to acquire `itable.lock` for the second time -/
  | dropping (k : Fin ninode)
deriving DecidableEq, Repr

/-- The entry that a reference points to. -/
def Task.points? : Task → Option (Fin ninode)
  | .idle | .scanning _ _ _ | .claimed _ => none
  | .held k | .reading k | .holding k _ | .truncating k | .erasing k | .clearing k | .dropping k => some k

/-- The entry whose sleep lock is held. -/
def Task.owns? : Task → Option (Fin ninode)
  | .reading k | .holding k _ | .truncating k | .erasing k | .clearing k => some k
  | _ => none

inductive Event (R : Type*) where
  /-- `ialloc` has marked an inode allocated -/
  | ialloc (r : R) (id : Id) (type : Int16)
  /-- `ilock` returns, and the caller sees these fields -/
  | ilock (r : R) (id : Id) (din : Dinode)
  /-- `iput` has locked an inode in order to free it -/
  | reclaim (r : R) (id : Id)
  /-- an inode is copied to its block -/
  | iupdate (r : R) (id : Id) (din : Dinode)

structure System (R : Type*) where
  entry : Fin ninode → Entry
  /-- The blocks of each device, as the buffer cache has them. -/
  disk : UInt32 → ℕ → Block
  task : R → Task
  panic : Option Panic
  trace : List (Event R)

inductive Act (R : Type*) where
  | iget (r : R) (id : Id)
  /-- the second reference is a copy of the first -/
  | idup (r copy : R)
  | ialloc (r : R) (dev : UInt32) (type : Int16)
  | ilock (r : R)
  | modify (r : R) (din : Dinode)
  | iupdate (r : R)
  | iunlock (r : R)
  | iput (r : R)
  /-- the function that the reference was passed to goes on -/
  | step (r : R)

/-- The `dinode` of an inode on the disks. -/
def onDisk (sb : Superblock) (disk : UInt32 → ℕ → Block) (id : Id) : Dinode :=
  Dinode.decode (disk id.dev (sb.iblock id.inum)) (id.inum % ipb)

def store (sb : Superblock) (disk : UInt32 → ℕ → Block) (id : Id) (din : Dinode) : UInt32 → ℕ → Block :=
  Function.update disk id.dev
    (Function.update (disk id.dev) (sb.iblock id.inum) (din.encode (disk id.dev (sb.iblock id.inum)) (id.inum % ipb)))

/-- What `ialloc` leaves on the disk. -/
def fresh (type : Int16) : Dinode := { Dinode.zero with type }

namespace System

variable {R : Type*} [DecidableEq R]

def boot (image : UInt32 → ℕ → Block) : System R where
  entry _ := ⟨0, 0, 0, false, false, .zero⟩
  disk := image
  task _ := .idle
  panic := none
  trace := []

def setTask (s : System R) (r : R) (t : Task) : System R := { s with task := Function.update s.task r t }

def setEntry (s : System R) (k : Fin ninode) (e : Entry) : System R := { s with entry := Function.update s.entry k e }

def note (s : System R) (event : Event R) : System R := { s with trace := s.trace ++ [event] }

def fail (s : System R) (p : Panic) : System R := { s with panic := some p }

/-- The entry of an inode that is in the table. -/
def lookup? (s : System R) (id : Id) : Option (Fin ninode) :=
  (List.finRange ninode).find? fun k => 0 < (s.entry k).ref ∧ (s.entry k).dev = id.dev ∧ (s.entry k).inum = id.inum

/-- The first entry that is free. -/
def empty? (s : System R) : Option (Fin ninode) := (List.finRange ninode).find? fun k => (s.entry k).ref = 0

/-- The critical section of `idup`. -/
def idup (s : System R) (k : Fin ninode) (r : R) : System R :=
  (s.setEntry k { s.entry k with ref := (s.entry k).ref + 1 }).setTask r (.held k)

def iget (s : System R) (r : R) (id : Id) : System R :=
  match s.lookup? id with
  | some k => s.idup k r
  | none =>
      match s.empty? with
      | none => s.fail .igetNoInodes
      | some k =>
          (s.setEntry k { s.entry k with dev := id.dev, inum := id.inum, ref := 1, valid := false }).setTask r (.held k)

/-- `ilock` returns. -/
def locked (s : System R) (r : R) (k : Fin ninode) : System R :=
  (s.setTask r (.holding k false)).note (.ilock r (s.entry k).id (s.entry k).din)

/-- `ilock` until it has the sleep lock, for which it may have to wait, and has tested `valid`. -/
def ilock? (s : System R) (r : R) (k : Fin ninode) : Option (System R) :=
  let e := s.entry k
  if e.ref < 1 then some (s.fail .ilock)
  else if e.locked then none
  else if e.valid then some ((s.setEntry k { e with locked := true }).locked r k)
  else some ((s.setEntry k { e with locked := true }).setTask r (.reading k))

variable (sb : Superblock)

/-- The part of `ilock` for an entry that is not valid. -/
def fill (s : System R) (r : R) (k : Fin ninode) : System R :=
  let din := onDisk sb s.disk (s.entry k).id
  let s := s.setEntry k { s.entry k with din, valid := true }
  if din.type = 0 then s.fail .ilockNoType else s.locked r k

def iupdate (s : System R) (r : R) (k : Fin ninode) : System R :=
  ({ s with disk := store sb s.disk (s.entry k).id (s.entry k).din }).note (.iupdate r (s.entry k).id (s.entry k).din)

/-- The sleep lock is held, and by the process that calls with this reference. -/
def holdingsleep (s : System R) (r : R) (k : Fin ninode) : Bool := (s.entry k).locked && (s.task r).owns? = some k

def iunlock (s : System R) (r : R) (k : Fin ninode) : System R :=
  if !s.holdingsleep r k ∨ (s.entry k).ref < 1 then s.fail .iunlock
  else (s.setEntry k { s.entry k with locked := false }).setTask r (.held k)

/-- The end of `iput`. -/
def drop (s : System R) (r : R) (k : Fin ninode) : System R :=
  (s.setEntry k { s.entry k with ref := (s.entry k).ref - 1 }).setTask r .idle

/-- The first critical section of `iput`. -/
def iput (s : System R) (r : R) (k : Fin ninode) : System R :=
  let e := s.entry k
  if e.ref = 1 ∧ e.valid ∧ e.din.nlink = 0 then
    if e.locked then s.fail .schedLocks
    else ((s.setEntry k { e with locked := true }).setTask r (.truncating k)).note (.reclaim r e.id)
  else s.drop r k

/-- One round of the loop of `ialloc`. -/
def scan (s : System R) (r : R) (dev : UInt32) (type : Int16) (inum : ℕ) : System R :=
  if inum < sb.ninodes then
    if (onDisk sb s.disk ⟨dev, inum⟩).type = 0 then
      (({ s with disk := store sb s.disk ⟨dev, inum⟩ (fresh type) }).setTask r (.claimed ⟨dev, inum⟩)).note
        (.ialloc r ⟨dev, inum⟩ type)
    else s.setTask r (.scanning dev type (inum + 1))
  else s.setTask r .idle

/-- The next step of the function that a reference was passed to. -/
def next? (s : System R) (r : R) : Option (System R) :=
  match s.task r with
  | .idle | .held _ | .holding _ _ => none
  | .scanning dev type inum => some (s.scan sb r dev type inum)
  | .claimed id => some (s.iget r id)
  | .reading k => some (s.fill sb r k)
  | .truncating k =>
      let din := { (s.entry k).din with size := 0, addrs := Vector.replicate _ 0 }
      some (((s.setEntry k { s.entry k with din }).iupdate sb r k).setTask r (.erasing k))
  | .erasing k =>
      let din := { (s.entry k).din with type := 0 }
      some (((s.setEntry k { s.entry k with din }).iupdate sb r k).setTask r (.clearing k))
  | .clearing k => some ((s.setEntry k { s.entry k with valid := false, locked := false }).setTask r (.dropping k))
  | .dropping k => some (s.drop r k)

/-- A step of processes that give back each reference once, and not while it is in use. They may call `iunlock` for an
inode that they have not locked. -/
def step? (s : System R) (act : Act R) : Option (System R) :=
  if s.panic.isSome then none
  else match act with
  | .iget r id => if s.task r = .idle then some (s.iget r id) else none
  | .idup r copy =>
      if s.task copy = .idle then
        match s.task r with
        | .held k | .holding k _ => some (s.idup k copy)
        | _ => none
      else none
  | .ialloc r dev type => if s.task r = .idle then some (s.setTask r (.scanning dev type 1)) else none
  | .ilock r =>
      match s.task r with
      | .held k => s.ilock? r k
      | _ => none
  | .modify r din =>
      match s.task r with
      | .holding k _ =>
          some ((s.setEntry k { s.entry k with din := { din with type := (s.entry k).din.type } }).setTask r
            (.holding k true))
      | _ => none
  | .iupdate r =>
      match s.task r with
      | .holding k _ => some ((s.iupdate sb r k).setTask r (.holding k false))
      | _ => none
  | .iunlock r =>
      match s.task r with
      | .held k | .holding k false => some (s.iunlock r k)
      | _ => none
  | .iput r =>
      match s.task r with
      | .held k => some (s.iput r k)
      | _ => none
  | .step r => s.next? sb r

end System

section Record

variable {R : Type*}

/-- What an event stores in the inode of an `Id`. -/
def Event.stored? : Event R → Option (Id × Dinode)
  | .ialloc _ id type => some (id, fresh type)
  | .iupdate _ id din => some (id, din)
  | .ilock _ _ _ | .reclaim _ _ => none

/-- The inodes on the disks after a record. -/
def latest (inodes : Id → Dinode) (trace : List (Event R)) : Id → Dinode :=
  replay inodes (trace.filterMap Event.stored?)

/-- Each `ilock` returned what the disk held of the inode at that point. -/
def Transparent (inodes : Id → Dinode) (trace : List (Event R)) : Prop :=
  ∀ past r id din rest, trace = past ++ .ilock r id din :: rest → din = latest inodes past id

/-- The reference has locked the inode, and the inode has not been allocated since. -/
def LockedSince (trace : List (Event R)) (r : R) (id : Id) : Prop :=
  ∃ past event rest, trace = past ++ event :: rest ∧ (event = .reclaim r id ∨ ∃ din, event = .ilock r id din) ∧
    ∀ other type, .ialloc other id type ∉ rest

/-- No inode is written from a copy that is older than its allocation. -/
def Current (trace : List (Event R)) : Prop :=
  ∀ past r id din rest, trace = past ++ .iupdate r id din :: rest → LockedSince past r id

end Record

end Xv6.Fs.Itable
