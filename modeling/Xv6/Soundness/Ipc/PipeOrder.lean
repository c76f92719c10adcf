import Xv6.Proofs.Ipc.Pipe

/-! # Pipes deliver in order

In every run the bytes delivered to the readers are the first of those accepted from the writers, and the
buffer holds the others. That a `piperead` of some bytes returns none only at the end of the pipe follows
from what it saw when it left its first loop, since it has held `pi->lock` from there on.
-/

namespace Xv6.Ipc

open Machine

/-- What a process that holds the lock knows of the pipe, from the test that it made. -/
def Pc.Knows (pipe : Pipe) : Pc → Prop
  | .writeBody _ _ _ => pipe.readopen = true
  | .readDoze _ _ => pipe.Empty ∧ pipe.writeopen = true
  | .readCopy _ _ i => i = 0 → ¬ (pipe.Empty ∧ pipe.writeopen = true)
  | .readEnd n v => v = 0 → 0 < n.toInt → pipe.Empty ∧ pipe.writeopen = false
  | _ => True

namespace System

variable {P : Type*} [DecidableEq P] {s s' : System P} {act : Act P}

/-- The buffer holds what was accepted and not delivered. -/
def Fifo (s : System P) : Prop := ∃ queue, s.pipe.Holds queue ∧ s.accepted = s.delivered ++ queue

theorem Fifo.close (fifo : s.Fifo) (p : P) (writable : Bool) : (s.pipeclose p writable).Fifo := by
  cases writable <;> exact fifo

theorem Fifo.step (fifo : s.Fifo) (step : Step s act s') : s'.Fifo := by
  cases step with
  | store p addr n i ch here room =>
    obtain ⟨queue, holds, accepted⟩ := fifo
    exact ⟨queue ++ [ch], holds.store room ch, (congrArg (· ++ [ch]) accepted).trans (List.append_assoc ..)⟩
  | deliver p addr n i ch here some_left same =>
    obtain ⟨queue, holds, accepted⟩ := fifo
    obtain ⟨rest, rfl, taken⟩ := holds.take some_left
    exact ⟨rest, taken, by rw [same, List.append_assoc]; exact accepted⟩
  | close p ok writable => exact fifo.close p writable
  | _ => exact fifo

structure Lawful (s : System P) : Prop where
  locked : s.Locked
  knows : ∀ p, (s.pc p).Knows s.pipe

omit [DecidableEq P] in
theorem Lawful.knows_at {p : P} {pc : Pc} (lawful : s.Lawful) (here : s.pc p = pc) : pc.Knows s.pipe :=
  here ▸ lawful.knows p

theorem Lawful.step (lawful : s.Lawful) (step : Step s act s') : s'.Lawful := by
  refine ⟨lawful.locked.step step, fun p => ?_⟩
  by_cases holds : (s'.pc p).holds = true
  · cases step.turn lawful.locked holds with
    | stays same pipe => exact same ▸ pipe ▸ lawful.knows p
    | advances advance pipe =>
      have known := lawful.knows p
      rw [pipe]
      generalize s.pc p = pc, s'.pc p = pc' at advance known ⊢
      cases advance with
      | readReady addr n ready => exact fun _ => ready
      | readDone addr n i short =>
        intro zero positive
        omega
      | readDry addr n i empty =>
        exact fun zero _ => ⟨empty, Bool.eq_false_iff.mpr fun opened => known (by omega) ⟨empty, opened⟩⟩
      | readFault addr n i v fault =>
        intro zero
        split_ifs at fault <;> omega
      | _ => trivial
    | locksWrite _ _ _ moved | locksRead _ _ moved | stores _ _ _ _ _ moved =>
      rw [moved]
      trivial
    | takes _ _ _ _ moved =>
      rw [moved]
      rintro ⟨⟩
  · cases at_ : s'.pc p <;> first | trivial | exact (holds (by rw [at_]; rfl)).elim

omit [DecidableEq P] in
theorem lawful_pipealloc (data : Vector UInt8 pipesize) (memory : P → UInt64 → UInt8) :
    (pipealloc data memory).Lawful := ⟨fun p => by simp [pipealloc, Pc.holds], fun _ => trivial⟩

/-- The number of bytes a process in `piperead` asked for. -/
def reads? (pc : Pc) : Option Int32 :=
  match pc with
  | .readLock _ n | .readTest _ n | .readDoze _ n | .readAsleep _ n | .readCopy _ n _ | .readEnd n _ => some n
  | _ => none

theorem Lawful.returns_zero (lawful : s.Lawful) {p : P} {n : Int32} {ok : Bool} (inside : reads? (s.pc p) = some n)
    (step : Step s (.step p ok) s') (returned : s'.pc p = .idle) (zero : s'.ret p = 0) (positive : 0 < n.toInt) :
    s'.pipe.Empty ∧ s'.pipe.writeopen = false := by
  cases step with
  | advance q act pc pc' here advance =>
    rcases eq_or_ne p q with rfl | other
    · rw [setPc_pc_self] at returned
      subst returned
      cases advance
    · rw [setPc_pc_of_ne other] at returned
      rw [returned] at inside
      cases inside
  | readEnd p ok n' i here =>
    rw [here] at inside
    obtain rfl : n' = n := Option.some.inj inside
    obtain rfl : i = 0 := leave_ret.symm.trans zero
    exact lawful.knows_at here rfl positive
  | readKilled p ok addr n' here =>
    cases leave_ret.symm.trans zero
  | lockRead | readSleep | deliver => cases setPc_pc_self.symm.trans returned
  -- the other functions
  | lockWrite _ _ _ _ _ here | close _ _ _ here | refuse _ _ _ _ _ here | writeSleep _ _ _ _ _ here
    | store _ _ _ _ _ here | writeEnd _ _ _ here =>
    rw [here] at inside
    cases inside

theorem reachable_fifo {data : Vector UInt8 pipesize} {memory : P → UInt64 → UInt8} {acts : List (Act P)}
    (reached : run? step? (pipealloc data memory) acts = some s) : s.Fifo ∧ s.Lawful := by
  refine run?_history step? (fun _ s => s.Fifo ∧ s.Lawful) ⟨?_, ?_⟩ (fun _ _ _ _ _ inv next => ?_) reached
  · exact ⟨[], Ring.empty (UInt32.toNat_lt _), rfl⟩
  · exact lawful_pipealloc data memory
  · exact ⟨inv.1.step (.of_step? next), inv.2.step (.of_step? next)⟩

/-- The counters are never more than the size of the buffer apart, what was accepted is what was delivered
and then what the buffer holds, and a `piperead` of some bytes returns zero only at the end of the pipe. -/
theorem pipe_fifo (data : Vector UInt8 pipesize) (memory : P → UInt64 → UInt8) (acts : List (Act P))
    (reached : run? step? (pipealloc data memory) acts = some s) :
    (s.pipe.nwrite - s.pipe.nread).toNat ≤ pipesize ∧ s.accepted = s.delivered ++ s.pipe.contents ∧
      ∀ p n ok s', reads? (s.pc p) = some n → 0 < n.toInt → s.step? (.step p ok) = some s' → s'.pc p = .idle →
        s'.ret p = 0 → s'.pipe.Empty ∧ s'.pipe.writeopen = false := by
  obtain ⟨⟨queue, holds, accepted⟩, lawful⟩ := reachable_fifo reached
  refine ⟨?_, ?_, fun p n ok s' inside positive next returned zero => ?_⟩
  · rw [holds.length_eq]
    exact holds.length_le
  · rw [← holds.eq_contents]
    exact accepted
  · exact lawful.returns_zero inside (.of_step? next) returned zero positive

/-- One process writes two bytes, another reads one of them. -/
def oneByte : List (Act Bool) :=
  [.write true 0 2, .step true true, .step true true, .step true true, .step true true, .step true true,
    .step true true, .step true true, .read false 0 1, .step false true, .step false true, .step false true]

theorem oneByte_runs : ∃ s, run? step? (pipealloc (.replicate _ 0) fun _ addr => addr.toUInt8) oneByte = some s ∧
    s.accepted = [0, 1] ∧ s.delivered = [0] := by
  have ran : ((run? step? (pipealloc (.replicate _ 0) fun _ addr => addr.toUInt8) oneByte).map fun s =>
      (s.accepted, s.delivered)) = some ([0, 1], [0]) := by decide +kernel
  obtain ⟨s, reached, same⟩ := Option.map_eq_some_iff.mp ran
  exact ⟨s, reached, congrArg Prod.fst same, congrArg Prod.snd same⟩

theorem pipe_fifo_oneByte : ∃ s : System Bool, s.accepted = [0, 1] ∧ s.delivered = [0] ∧ s.pipe.contents = [1] := by
  obtain ⟨s, reached, accepted, delivered⟩ := oneByte_runs
  have split := (pipe_fifo _ _ _ reached).2.1
  rw [accepted, delivered] at split
  exact ⟨s, accepted, delivered, (List.cons.inj split).2.symm⟩

end System

end Xv6.Ipc
