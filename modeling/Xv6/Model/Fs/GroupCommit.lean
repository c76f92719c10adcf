import Xv6.Model.Fs.Log

/-! # Group commit

Any number of processes begin and end operations on one volume and log blocks in between, with no bound
on how many. The steps are the critical sections under `log.lock` and, for the process whose operation
is the last to end, the steps of `commit`, which holds no lock: one for each block copied to the log or
installed, one for each write of the header, and one for the assignment that empties the in-memory
header. Every step reads that header as it is then.
-/

namespace Xv6.Fs

/-- Where `commit` is: at its test of `log.lh.n`, in one of its two loops, before one of the writes of the
header, before the assignment between them, or past its end. -/
inductive Stage where
  | test
  | writeLog (tail : ℕ)
  | writeHead
  | install (tail : ℕ)
  | clear
  | eraseHead
  | done
deriving DecidableEq, Repr

namespace Volume

/-- One round of the loop of `write_log`. -/
def copyToLog (v : Volume) (tail : ℕ) (blockno : UInt32) : Volume :=
  (v.modify (Log.slot v.log.start tail) (v.cache blockno)).bwrite (Log.slot v.log.start tail)

/-- One round of the loop of `install_trans` outside of recovery. -/
def copyHome (v : Volume) (tail : ℕ) (blockno : UInt32) : Volume :=
  ((v.modify blockno (v.cache (Log.slot v.log.start tail))).bwrite blockno).bunpin blockno

/-- One step of `commit`. -/
def commitStep (v : Volume) : Stage → Volume × Stage
  | .test => (v, if v.log.lh.length > 0 then .writeLog 0 else .done)
  | .writeLog tail =>
      match v.log.lh[tail]? with
      | some blockno => (v.copyToLog tail blockno, .writeLog (tail + 1))
      | none => (v, .writeHead)
  | .writeHead => (v.writeHead, .install 0)
  | .install tail =>
      match v.log.lh[tail]? with
      | some blockno => (v.copyHome tail blockno, .install (tail + 1))
      | none => (v, .clear)
  | .clear => (v.clearHead, .eraseHead)
  | .eraseHead => (v.writeHead, .done)
  | .done => (v, .done)

end Volume

/-- A process is outside of any operation, in one, or in the commit at the end of one. -/
inductive Worker where
  | idle
  | operating
  | committing (stage : Stage)
deriving DecidableEq, Repr

/-- The volume, the processes, and the panic that stopped the kernel. -/
structure Group where
  volume : Volume
  worker : ℕ → Worker
  panic : Option Panic

/-- The steps of process `pid`; a step of `commit` names the stage it is made from. -/
inductive Move where
  | beginOp (pid : ℕ)
  | logWrite (pid : ℕ) (blockno : UInt32) (data : Block)
  | endOp (pid : ℕ)
  | commit (pid : ℕ) (stage : Stage)
  | endCommit (pid : ℕ)
deriving DecidableEq

namespace Group

/-- After `initlog`, nobody is in an operation. -/
def boot? (logstart : UInt32) (image : Disk) : Option Group :=
  (Volume.initlog? logstart image).map fun volume => ⟨volume, fun _ => .idle, none⟩

/-- Process `pid` goes on with a changed volume. -/
def move (s : Group) (pid : ℕ) (volume : Volume) (worker : Worker) : Group :=
  { s with volume, worker := Function.update s.worker pid worker }

/-- One step. A process that `begin_op` puts to sleep makes none, and a panic stops the kernel. -/
def step? (s : Group) (act : Move) : Option Group :=
  match s.panic with
  | some _ => none
  | none =>
      match act with
      | .beginOp pid =>
          match s.worker pid with
          | .idle => s.volume.log.beginOp?.map fun log => s.move pid { s.volume with log } .operating
          | _ => none
      | .logWrite pid blockno data =>
          match s.worker pid with
          | .operating =>
              match s.volume.logWrite blockno data with
              | .error panic => some { s with panic := some panic }
              | .ok volume => some (s.move pid volume .operating)
          | _ => none
      | .endOp pid =>
          match s.worker pid with
          | .operating =>
              match s.volume.log.endOp with
              | .error panic => some { s with panic := some panic }
              | .ok (log, doCommit) =>
                  some (s.move pid { s.volume with log } (if doCommit then .committing .test else .idle))
          | _ => none
      | .commit pid stage =>
          if s.worker pid = .committing stage ∧ stage ≠ .done then
            let (volume, next) := s.volume.commitStep stage
            some (s.move pid volume (.committing next))
          else none
      | .endCommit pid =>
          if s.worker pid = .committing .done then
            some (s.move pid { s.volume with log := s.volume.log.endCommit } .idle)
          else none

end Group

/-- The blocks logged since the in-memory header was emptied, after one more step. -/
def noteLogged (logged : List UInt32) : Move → List UInt32
  | .logWrite _ blockno _ => logged ++ [blockno]
  | .commit _ .clear => []
  | _ => logged

/-- The blocks handed to `log_write` since the in-memory header was last emptied. -/
def loggedSince (acts : List Move) : List UInt32 := acts.foldl noteLogged []

end Xv6.Fs
