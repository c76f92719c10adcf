import Mathlib.Data.Finset.Card
import Xv6.Model.Fs.Log

/-! # Concurrent file-system operations

Any number of processes bracket their updates by `begin_op` and `end_op`. The steps are the critical
sections under `log.lock`, and the commit that the last operation to end runs with no lock held. An
operation keeps to its reservation: it logs at most `MAXOPBLOCKS` distinct blocks, each as often as it
likes. A panic stops the kernel.
-/

namespace Xv6.Fs

/-- Where a process is: outside of any operation, in one that has logged some blocks, in the commit at
the end of one, or past that commit and about to clear `committing`. -/
inductive Proc where
  | idle
  | operating (logged : Finset UInt32)
  | committing
  | committed
deriving DecidableEq

/-- The in-memory log, the processes, and the panic that stopped the kernel. -/
structure System where
  log : Log
  proc : ℕ → Proc
  panic : Option Panic

inductive Act where
  | beginOp (pid : ℕ)
  | logWrite (pid : ℕ) (blockno : UInt32)
  | endOp (pid : ℕ)
  | commit (pid : ℕ)
  | endCommit (pid : ℕ)
deriving DecidableEq, Repr

namespace System

/-- After `initlog`: nothing is logged and nobody is in an operation. -/
def start (logstart : UInt32) : System := ⟨⟨logstart, 0, false, []⟩, fun _ => .idle, none⟩

/-- Process `pid` goes on with a changed log. -/
def move (s : System) (pid : ℕ) (log : Log) (proc : Proc) : System :=
  { s with log, proc := Function.update s.proc pid proc }

/-- One step of a process. A process that `begin_op` puts to sleep makes no step. -/
def step? (s : System) (act : Act) : Option System :=
  match s.panic with
  | some _ => none
  | none =>
      match act with
      | .beginOp pid =>
          match s.proc pid with
          | .idle => s.log.beginOp?.map fun log => s.move pid log (.operating ∅)
          | _ => none
      | .logWrite pid blockno =>
          match s.proc pid with
          | .operating logged =>
              if (insert blockno logged).card ≤ maxOpBlocks then
                match s.log.logWrite blockno with
                | .error panic => some { s with panic := some panic }
                | .ok (log, _) => some (s.move pid log (.operating (insert blockno logged)))
              else none
          | _ => none
      | .endOp pid =>
          match s.proc pid with
          | .operating _ =>
              match s.log.endOp with
              | .error panic => some { s with panic := some panic }
              | .ok (log, doCommit) => some (s.move pid log (if doCommit then .committing else .idle))
          | _ => none
      | .commit pid =>
          match s.proc pid with
          | .committing => some (s.move pid { s.log with lh := [] } .committed)
          | _ => none
      | .endCommit pid =>
          match s.proc pid with
          | .committed => some (s.move pid s.log.endCommit .idle)
          | _ => none

end System

end Xv6.Fs
