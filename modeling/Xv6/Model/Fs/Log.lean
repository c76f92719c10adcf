import Mathlib.Algebra.Group.Int.Defs
import Mathlib.Data.Finset.Dedup
import Xv6.Machine.Replay
import Xv6.Machine.Run
import Xv6.ToMathlib.VectorWord

/-! # The redo log of the file system

The critical sections of `begin_op`, `log_write` and `end_op` act on the in-memory log alone. The
commit and the recovery act on a volume: the log, the contents that `bread` returns, and the disk. A
write to the disk is recorded rather than performed at once, so that a crash is a prefix of the
record. `bread` is taken to return the most recent contents given to a block, from the cache or from
the disk; a logged block is pinned and stays in the cache until it is installed.
-/

namespace Xv6.Fs

open Machine

def bsize : ℕ := 1024
def maxOpBlocks : ℕ := 10
def logBlocks : ℕ := maxOpBlocks * 3

abbrev Block := Vector UInt8 bsize
abbrev Disk := UInt32 → Block

/-- The panics of the log. -/
inductive Panic where
  | tooBig
  | outsideTrans
  | committing
deriving DecidableEq, Repr

/-- The in-memory log. `lh` lists the first `lh.n` entries of `lh.block`; block numbers are kept as
`int` and compared as `uint`, with the same bits. -/
structure Log where
  start : UInt32
  outstanding : ℤ
  committing : Bool
  lh : List UInt32
deriving DecidableEq, Repr

namespace Log

/-- One round of the loop of `begin_op`; `none` means that the caller goes to sleep. -/
def beginOp? (log : Log) : Option Log :=
  if log.committing then none
  else if log.lh.length + (log.outstanding + 1) * maxOpBlocks > (logBlocks : ℤ) then none
  else some { log with outstanding := log.outstanding + 1 }

/-- The first critical section of `end_op`, with the value of `do_commit`. -/
def endOp (log : Log) : Except Panic (Log × Bool) :=
  if log.committing then .error .committing
  else if log.outstanding - 1 = 0 then
    .ok ({ log with outstanding := log.outstanding - 1, committing := true }, true)
  else .ok ({ log with outstanding := log.outstanding - 1 }, false)

/-- The last critical section of `end_op`. -/
def endCommit (log : Log) : Log := { log with committing := false }

/-- The critical section of `log_write`; the flag tells whether the block was pinned. The size is
checked before the scan that absorbs a block that is listed already. -/
def logWrite (log : Log) (blockno : UInt32) : Except Panic (Log × Bool) :=
  if log.lh.length ≥ logBlocks then .error .tooBig
  else if log.outstanding < 1 then .error .outsideTrans
  else if blockno ∈ log.lh then .ok (log, false)
  else .ok ({ log with lh := log.lh ++ [blockno] }, true)

/-- The log block that holds entry `tail`. -/
def slot (start : UInt32) (tail : ℕ) : UInt32 := start + UInt32.ofNat tail + 1

end Log

/-- The header fields written over the contents of the header block. -/
def encodeHead (lh : List UInt32) (bytes : Block) : Block :=
  lh.zipIdx.foldl (fun bytes entry => bytes.setWord (entry.2 + 1) entry.1)
    (bytes.setWord 0 (UInt32.ofNat lh.length))

/-- The header fields read from the header block. The copy into `lh.block` is out of bounds for more
than `LOGBLOCKS` entries; a negative count copies nothing. -/
def decodeHead? (bytes : Block) : Option (List UInt32) :=
  let n := (bytes.word 0).toInt32.toInt.toNat
  if n ≤ logBlocks then some ((List.range n).map fun i => bytes.word (i + 1)) else none

/-- The log, the contents `bread` returns, the pins the log holds, the disk at power-on, and the
writes issued since then. -/
structure Volume where
  log : Log
  cache : Disk
  pins : UInt32 → ℤ
  image : Disk
  writes : List (UInt32 × Block)

namespace Volume

/-- The contents of the disk when all issued writes are done. -/
def disk (v : Volume) : Disk := replay v.image v.writes

/-- The contents of the disk when only the first `count` of the issued writes are done. -/
def diskAfter (v : Volume) (count : ℕ) : Disk := replay v.image (v.writes.take count)

/-- Change the data of a cached block. -/
def modify (v : Volume) (blockno : UInt32) (data : Block) : Volume :=
  { v with cache := Function.update v.cache blockno data }

def bwrite (v : Volume) (blockno : UInt32) : Volume :=
  { v with writes := v.writes ++ [(blockno, v.cache blockno)] }

def bpin (v : Volume) (blockno : UInt32) : Volume :=
  { v with pins := Function.update v.pins blockno (v.pins blockno + 1) }

def bunpin (v : Volume) (blockno : UInt32) : Volume :=
  { v with pins := Function.update v.pins blockno (v.pins blockno - 1) }

/-- Copy committed blocks from the log to their home locations. -/
def installTrans (v : Volume) (recovering : Bool) : Volume :=
  v.log.lh.zipIdx.foldl (fun v entry =>
    let copied := (v.modify entry.1 (v.cache (Log.slot v.log.start entry.2))).bwrite entry.1
    if recovering then copied else copied.bunpin entry.1) v

/-- Copy modified blocks from the cache to the log. -/
def writeLog (v : Volume) : Volume :=
  v.log.lh.zipIdx.foldl (fun v entry =>
    (v.modify (Log.slot v.log.start entry.2) (v.cache entry.1)).bwrite (Log.slot v.log.start entry.2)) v

/-- Read the log header from the disk into the in-memory header. -/
def readHead? (v : Volume) : Option Volume :=
  (decodeHead? (v.cache v.log.start)).map fun lh => { v with log := { v.log with lh } }

/-- Write the in-memory header to the disk. -/
def writeHead (v : Volume) : Volume :=
  (v.modify v.log.start (encodeHead v.log.lh (v.cache v.log.start))).bwrite v.log.start

/-- The assignment `log.lh.n = 0`. -/
def clearHead (v : Volume) : Volume := { v with log := { v.log with lh := [] } }

def recoverFromLog? (v : Volume) : Option Volume :=
  v.readHead?.map fun v => (v.installTrans true).clearHead.writeHead

def commit (v : Volume) : Volume :=
  if v.log.lh.length > 0 then (v.writeLog.writeHead.installTrans false).clearHead.writeHead else v

/-- A caller changes the data of a block and hands it to `log_write`. -/
def logWrite (v : Volume) (blockno : UInt32) (data : Block) : Except Panic Volume := do
  let (log, pinned) ← v.log.logWrite blockno
  let v := { v.modify blockno data with log }
  return if pinned then v.bpin blockno else v

/-- `initlog` on a disk, with an empty cache. -/
def initlog? (start : UInt32) (image : Disk) : Option Volume :=
  recoverFromLog? ⟨⟨start, 0, false, []⟩, image, fun _ => 0, image, []⟩

end Volume

/-- The header block and the `LOGBLOCKS` blocks after it. -/
def InLog (start blockno : UInt32) : Prop := (blockno - start).toNat ≤ logBlocks

instance (start blockno : UInt32) : Decidable (InLog start blockno) :=
  inferInstanceAs (Decidable (_ ≤ _))

/-- A block outside the log area. -/
abbrev HomeBlock (start : UInt32) := { blockno : UInt32 // ¬ InLog start blockno }

/-- The writes of one transaction, in the order of their `log_write` calls. Each call finds fewer
than `LOGBLOCKS` blocks listed. -/
structure Transaction (start : UInt32) where
  updates : List (HomeBlock start × Block)
  fits : ∀ past update rest, updates = past ++ update :: rest →
    (past.map (·.1)).dedup.length < logBlocks

namespace Transaction

variable {start : UInt32}

/-- The writes as changes of block contents. -/
def writes (tx : Transaction start) : List (UInt32 × Block) := tx.updates.map fun update => (update.1, update.2)

/-- The number of distinct blocks of the transaction. -/
def size (tx : Transaction start) : ℕ := (tx.updates.map (·.1)).dedup.length

end Transaction

namespace Volume

variable {start : UInt32}

/-- The calls of `log_write` made inside one transaction. -/
def logWrites (v : Volume) (updates : List (HomeBlock start × Block)) : Except Panic Volume :=
  updates.foldlM (fun (v : Volume) update => v.logWrite update.1 update.2) v

/-- The commit and the last critical section of `end_op`. -/
def endCommit (v : Volume) : Volume :=
  let committed := v.commit
  { committed with log := committed.log.endCommit }

/-- `end_op`, with the commit made by the last outstanding operation. -/
def endOp (v : Volume) : Except Panic Volume :=
  match v.log.endOp with
  | .error panic => .error panic
  | .ok (log, false) => .ok { v with log }
  | .ok (log, true) => .ok ({ v with log } : Volume).endCommit

/-- One transaction: `begin_op`, the calls of `log_write`, and `end_op`. -/
def transact? (v : Volume) (tx : Transaction start) : Option Volume :=
  v.log.beginOp?.bind fun log => ((({ v with log } : Volume).logWrites tx.updates).bind endOp).toOption

/-- Boot until a recovery completes; each number is how many writes of an earlier attempt reached the
disk before it crashed. -/
def reboot? (start : UInt32) (image : Disk) : List ℕ → Option Volume
  | [] => initlog? start image
  | count :: rest => do
      let attempt ← initlog? start image
      reboot? start (attempt.diskAfter count) rest

end Volume

/-- A transaction that commits, or one that is cut short by a crash after `count` of its writes, with
further crashes during the recoveries. -/
inductive Event (start : UInt32) where
  | transact (tx : Transaction start)
  | crash (tx : Transaction start) (count : ℕ) (retries : List ℕ)

/-- Run one event; after a crash, up to a completed recovery. -/
def Volume.step? {start : UInt32} (v : Volume) : Event start → Option Volume
  | .transact tx => v.transact? tx
  | .crash tx count retries => do
      let unfinished ← v.transact? tx
      reboot? start (unfinished.diskAfter (v.writes.length + count)) retries

/-- The transactions of an event that have reached their commit point: the write of a header that
lists their blocks, which follows one write for each block. -/
def Event.survivors {start : UInt32} : Event start → List (Transaction start)
  | .transact tx => [tx]
  | .crash tx count _ => if tx.size < count then [tx] else []

/-- The contents of a disk after whole transactions. -/
def contents {start : UInt32} (image : Disk) (txs : List (Transaction start)) : Disk :=
  txs.foldl (fun disk tx => replay disk tx.writes) image

end Xv6.Fs
