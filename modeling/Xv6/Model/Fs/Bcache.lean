import Mathlib.Data.Fintype.Basic
import Xv6.Model.Fs.Log

/-! # The buffer cache

The buffers, the list that orders them by how recently they were used, and the disk behind them. The
steps are the critical sections under `bcache.lock` and under the sleep lock of a buffer; reads and
writes of the disk are made under the latter. Any number of calls to `bread` are under way at a time,
each with the buffer it waits for or holds. What the callers give to a block and what they see of it is
recorded.
-/

namespace Xv6.Fs.Bio

open Machine

def nbuf : ℕ := maxOpBlocks * 3

/-- What `bread` is asked for. -/
structure Address where
  dev : UInt32
  blockno : UInt32
deriving DecidableEq, Repr

/-- `virtio_disk_rw` computes the first sector of a block in 32 bits, and ignores the device. -/
def sector (blockno : UInt32) : UInt32 := blockno * UInt32.ofNat (bsize / 512)

structure Buf where
  dev : UInt32
  blockno : UInt32
  valid : Bool
  locked : Bool
  refcnt : UInt32
  data : Block

def Buf.addr (b : Buf) : Address := ⟨b.dev, b.blockno⟩

/-- The buffers, and their indices from `head.next`, the most recently used, to `head.prev`. -/
structure Bcache where
  buf : Fin nbuf → Buf
  order : List (Fin nbuf)

namespace Bcache

/-- Each buffer is put in front of those before it. -/
def binit : Bcache where
  buf _ := ⟨0, 0, false, false, 0, Vector.replicate bsize 0⟩
  order := (List.finRange nbuf).reverse

def set (c : Bcache) (i : Fin nbuf) (b : Buf) : Bcache := { c with buf := Function.update c.buf i b }

/-- The buffer that holds the block. -/
def lookup? (c : Bcache) (addr : Address) : Option (Fin nbuf) :=
  c.order.find? fun i => (c.buf i).dev = addr.dev ∧ (c.buf i).blockno = addr.blockno

/-- The least recently used buffer that is not in use. -/
def unused? (c : Bcache) : Option (Fin nbuf) := c.order.reverse.find? fun i => (c.buf i).refcnt = 0

/-- The critical section of `bget`; `none` is the panic for want of buffers. -/
def bget? (c : Bcache) (addr : Address) : Option (Bcache × Fin nbuf) :=
  match c.lookup? addr with
  | some i => some (c.set i { c.buf i with refcnt := (c.buf i).refcnt + 1 }, i)
  | none =>
      match c.unused? with
      | some i =>
          some (c.set i { c.buf i with dev := addr.dev, blockno := addr.blockno, valid := false, refcnt := 1 }, i)
      | none => none

/-- `acquiresleep`, when the buffer is not locked, and `releasesleep`. -/
def setLocked (c : Bcache) (i : Fin nbuf) (locked : Bool) : Bcache := c.set i { c.buf i with locked }

/-- The part of `bread` for a buffer that is not valid. -/
def fill (c : Bcache) (disk : Disk) (i : Fin nbuf) : Bcache :=
  c.set i { c.buf i with data := disk (sector (c.buf i).blockno), valid := true }

def modify (c : Bcache) (i : Fin nbuf) (data : Block) : Bcache := c.set i { c.buf i with data }

/-- The critical section of `brelse`. -/
def brelse (c : Bcache) (i : Fin nbuf) : Bcache :=
  let released := c.set i { c.buf i with refcnt := (c.buf i).refcnt - 1 }
  if (c.buf i).refcnt - 1 = 0 then { released with order := i :: released.order.erase i } else released

def bpin (c : Bcache) (i : Fin nbuf) : Bcache := c.set i { c.buf i with refcnt := (c.buf i).refcnt + 1 }

def bunpin (c : Bcache) (i : Fin nbuf) : Bcache := c.set i { c.buf i with refcnt := (c.buf i).refcnt - 1 }

end Bcache

/-- A call has its reference and waits for the lock, has the lock and is about to test `valid`, has to
read the disk, has returned the buffer, or is in `brelse` between the two critical sections. -/
inductive Phase where
  | waiting
  | testing
  | reading
  | holding
  | releasing
deriving DecidableEq, Repr

/-- A call of `bread`, until its `brelse` is over. -/
structure Ref where
  phase : Phase
  buf : Fin nbuf
  addr : Address
deriving DecidableEq, Repr

/-- What a caller saw when `bread` returned, and what it gave to a block. -/
inductive Io where
  | read (addr : Address) (data : Block)
  | write (addr : Address) (data : Block)
deriving DecidableEq

/-- The cache, the disk by sectors, and the calls under way. The pins, the buffers modified since they
were last written, and the record of contents are kept for the callers' discipline. -/
structure System where
  cache : Bcache
  disk : Disk
  ref : ℕ → Option Ref
  pins : Fin nbuf → ℕ
  dirty : Fin nbuf → Bool
  trace : List Io
  panic : Bool

inductive Act where
  | bget (call : ℕ) (addr : Address)
  | acquire (call : ℕ)
  | test (call : ℕ)
  | fill (call : ℕ)
  | modify (call : ℕ) (data : Block)
  | bwrite (call : ℕ)
  | release (call : ℕ)
  | brelse (call : ℕ)
  | bpin (i : Fin nbuf)
  | bunpin (i : Fin nbuf)
deriving DecidableEq

namespace System

def boot (image : Disk) : System :=
  ⟨.binit, image, fun _ => none, fun _ => 0, fun _ => false, [], false⟩

/-- The call has a buffer in the given phase. -/
def at? (s : System) (call : ℕ) (phase : Phase) : Option Ref := (s.ref call).filter (·.phase = phase)

def setRef (s : System) (call : ℕ) (ref : Option Ref) : System :=
  { s with ref := Function.update s.ref call ref }

/-- `bread` returns its buffer, and the caller sees the data. -/
def breadReturn (s : System) (call : ℕ) (r : Ref) : System :=
  { s.setRef call (some { r with phase := .holding }) with
    trace := s.trace ++ [.read r.addr (s.cache.buf r.buf).data] }

/-- A modified buffer may not lose its last reference before it is written. -/
def mayDrop (s : System) (i : Fin nbuf) : Bool := (s.cache.buf i).refcnt - 1 ≠ 0 ∨ s.dirty i = false

/-- One step of callers that keep to the discipline: only the caller that holds the lock modifies or
writes a buffer, a pin is put on a buffer in use and taken off once, and a modified buffer is written
before its last reference goes. -/
def step? (s : System) (act : Act) : Option System :=
  if s.panic then none
  else match act with
  | .bget call addr =>
      if s.ref call = none then
        match s.cache.bget? addr with
        | some (cache, i) => some { s.setRef call (some ⟨.waiting, i, addr⟩) with cache }
        | none => some { s with panic := true }
      else none
  | .acquire call =>
      (s.at? call .waiting).bind fun r =>
        if (s.cache.buf r.buf).locked then none
        else some { s.setRef call (some { r with phase := .testing }) with cache := s.cache.setLocked r.buf true }
  | .test call =>
      (s.at? call .testing).map fun r =>
        if (s.cache.buf r.buf).valid then s.breadReturn call r else s.setRef call (some { r with phase := .reading })
  | .fill call =>
      (s.at? call .reading).map fun r =>
        ({ s with cache := s.cache.fill s.disk r.buf } : System).breadReturn call r
  | .modify call data =>
      (s.at? call .holding).map fun r =>
        { s with
          cache := s.cache.modify r.buf data
          dirty := Function.update s.dirty r.buf true
          trace := s.trace ++ [.write r.addr data] }
  | .bwrite call =>
      (s.at? call .holding).map fun r =>
        { s with
          disk := Function.update s.disk (sector (s.cache.buf r.buf).blockno) (s.cache.buf r.buf).data
          dirty := Function.update s.dirty r.buf false }
  | .release call =>
      (s.at? call .holding).map fun r =>
        { s.setRef call (some { r with phase := .releasing }) with cache := s.cache.setLocked r.buf false }
  | .brelse call =>
      (s.at? call .releasing).bind fun r =>
        if s.mayDrop r.buf then some { s.setRef call none with cache := s.cache.brelse r.buf } else none
  | .bpin i =>
      if (s.cache.buf i).refcnt = 0 then none
      else some { s with cache := s.cache.bpin i, pins := Function.update s.pins i (s.pins i + 1) }
  | .bunpin i =>
      if s.pins i ≠ 0 ∧ s.mayDrop i then
        some { s with cache := s.cache.bunpin i, pins := Function.update s.pins i (s.pins i - 1) }
      else none

end System

/-- The addresses that `bread` is called with. -/
def requests (acts : List Act) : List Address :=
  acts.filterMap fun
    | .bget _ addr => some addr
    | _ => none

/-- The changes of block contents in a record. -/
def given (trace : List Io) : List (UInt32 × Block) :=
  trace.filterMap fun
    | .write addr data => some (addr.blockno, data)
    | .read _ _ => none

/-- The flat map from block numbers to blocks: what was given last, or what the disk had at first. -/
def latest (image : Disk) (trace : List Io) (blockno : UInt32) : Block :=
  replay (fun blockno => image (sector blockno)) (given trace) blockno

/-- Each `bread` returned what the flat map held at that point. -/
def Transparent (image : Disk) (trace : List Io) : Prop :=
  ∀ past addr data rest, trace = past ++ .read addr data :: rest → data = latest image past addr.blockno

end Xv6.Fs.Bio
