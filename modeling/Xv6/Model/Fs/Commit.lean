import Xv6.Model.Fs.Bcache

/-! # The commit over the buffer cache

A transaction and its commit, as one process makes them while no other uses the cache: the blocks of the
transaction, of the log and the header are read into buffers, and the buffers are released. Where a buffer
is locked already nobody else is there to unlock it.
-/

namespace Xv6.Fs.Bio

/-- How a process stops: with a panic, or asleep for good. -/
inductive Stop where
  | noBuffers
  | bwrite
  | brelse
  | log (panic : Panic)
  | asleep
deriving DecidableEq, Repr

structure Device where
  log : Log
  cache : Bcache
  disk : Disk

abbrev Job := StateT Device (Except Stop)

namespace Job

def bget (addr : Address) : Job (Fin nbuf) := do
  match (← get).cache.bget? addr with
  | none => throw .noBuffers
  | some (cache, i) =>
    if (cache.buf i).locked then throw .asleep
    else
      modify fun s => { s with cache := cache.setLocked i true }
      return i

def bread (addr : Address) : Job (Fin nbuf) := do
  let i ← bget addr
  modify fun s => if (s.cache.buf i).valid then s else { s with cache := s.cache.fill s.disk i }
  return i

def bwrite (i : Fin nbuf) : Job Unit := do
  if ((← get).cache.buf i).locked then
    modify fun s => { s with disk := Function.update s.disk (sector (s.cache.buf i).blockno) (s.cache.buf i).data }
  else throw .bwrite

def brelse (i : Fin nbuf) : Job Unit := do
  if ((← get).cache.buf i).locked then modify fun s => { s with cache := (s.cache.setLocked i false).brelse i }
  else throw .brelse

def bunpin (i : Fin nbuf) : Job Unit := modify fun s => { s with cache := s.cache.bunpin i }

/-- Change the data of a buffer. -/
def store (i : Fin nbuf) (data : Block) : Job Unit := modify fun s => { s with cache := s.cache.modify i data }

def logWrite (i : Fin nbuf) : Job Unit := do
  let s ← get
  match s.log.logWrite (s.cache.buf i).blockno with
  | .error panic => throw (.log panic)
  | .ok (log, pinned) => set { s with log, cache := if pinned then s.cache.bpin i else s.cache }

/-- Copy modified blocks from the cache to the log. -/
def writeLog (dev : UInt32) : Job Unit := do
  let log := (← get).log
  log.lh.zipIdx.forM fun entry => do
    let toBuf ← bread ⟨dev, Log.slot log.start entry.2⟩
    let fromBuf ← bread ⟨dev, entry.1⟩
    store toBuf ((← get).cache.buf fromBuf).data
    bwrite toBuf
    brelse fromBuf
    brelse toBuf

/-- Write the in-memory header to the disk. -/
def writeHead (dev : UInt32) : Job Unit := do
  let log := (← get).log
  let buf ← bread ⟨dev, log.start⟩
  store buf (encodeHead log.lh ((← get).cache.buf buf).data)
  bwrite buf
  brelse buf

/-- Copy committed blocks from the log to their home locations. -/
def installTrans (dev : UInt32) (recovering : Bool) : Job Unit := do
  let log := (← get).log
  log.lh.zipIdx.forM fun entry => do
    let lbuf ← bread ⟨dev, Log.slot log.start entry.2⟩
    let dbuf ← bread ⟨dev, entry.1⟩
    store dbuf ((← get).cache.buf lbuf).data
    bwrite dbuf
    if recovering then pure () else bunpin dbuf
    brelse lbuf
    brelse dbuf

/-- The assignment `log.lh.n = 0`. -/
def clearHead : Job Unit := modify fun s => { s with log := { s.log with lh := [] } }

def commit (dev : UInt32) : Job Unit := do
  if (← get).log.lh.length > 0 then
    writeLog dev
    writeHead dev
    installTrans dev false
    clearHead
    writeHead dev
  else return ()

/-- What an operation does to each block that it changes. -/
def change (addr : Address) (data : Block) : Job Unit := do
  let buf ← bread addr
  store buf data
  logWrite buf
  brelse buf

end Job

end Xv6.Fs.Bio
