import Xv6.Machine.Ring
import Xv6.Machine.Run
import Xv6.Model.Ipc.Pipe

/-! # The steps of a pipe

Every step is one of the cases of `Step`, with what the process found in the pipe. Only a process that holds
`pi->lock` stores or takes a byte, and the buffer is a ring between the two counters.
-/

namespace Xv6.Ipc

/-- The process holds `pi->lock` there. -/
def Pc.holds : Pc → Bool
  | .writeTest _ _ _ | .writeBody _ _ _ | .writeEnd _ => true
  | .readTest _ _ | .readDoze _ _ | .readCopy _ _ _ | .readEnd _ _ => true
  | .idle | .writeLock _ _ _ | .writeAsleep _ _ _ | .readLock _ _ | .readAsleep _ _ | .closeLock _ => false

@[simp]
theorem Pc.holds_awake (pc : Pc) : pc.awake.holds = pc.holds := by cases pc <;> rfl

theorem Pc.awake_of_holds {pc : Pc} (holds : pc.holds = true) : pc.awake = pc := by
  cases pc <;> first | rfl | cases holds

@[simp]
theorem Pc.chan?_awake (pc : Pc) : pc.awake.chan? = none := by cases pc <;> rfl

namespace Pipe

open Machine

variable {pi : Pipe} {queue : List UInt8} {ch : UInt8}

/-- The buffer holds the bytes of `queue`, oldest first. -/
def Holds (pi : Pipe) (queue : List UInt8) : Prop :=
  Ring (2 ^ 32) pipesize pi.byte pi.nread.toNat pi.nwrite.toNat queue

namespace Holds

section

variable (holds : pi.Holds queue)
include holds

theorem empty_iff : pi.Empty ↔ queue = [] := by
  rw [← holds.eq_nil_iff (by decide), UInt32.toNat_inj]
  rfl

theorem full_iff : pi.Full ↔ queue.length = pipesize := by
  rw [← holds.length_eq_iff (by decide) le_rfl, Full, ← UInt32.toNat_inj, UInt32.toNat_add]
  rfl

theorem length_eq : (pi.nwrite - pi.nread).toNat = queue.length := by
  have written := holds.next_eq
  have short : queue.length ≤ 512 := holds.length_le
  have read := pi.nread.toNat_lt
  rw [UInt32.toNat_sub, written]
  omega

theorem eq_contents : queue = pi.contents := by
  refine List.ext_getElem (by simp [contents, holds.length_eq]) fun k inside _ => ?_
  rw [← holds.slot_eq k inside]
  simp [contents, byte]

theorem store (room : ¬ pi.Full) (ch : UInt8) : (pi.store ch).Holds (queue ++ [ch]) := by
  have shorter : queue.length < pipesize := lt_of_le_of_ne holds.length_le fun same => room (holds.full_iff.mpr same)
  have pushed := holds.push (by decide) shorter ch
  rw [Holds, Pipe.store, UInt32.toNat_add]
  refine pushed.congr fun k inside => ?_
  simp only [byte, Vector.getElem_set, Function.update_apply, Nat.mod_eq_of_lt inside, eq_comm]

theorem take (some_left : ¬ pi.Empty) : ∃ rest,
    queue = pi.byte pi.nread.toNat :: rest ∧ Holds { pi with nread := pi.nread + 1 } rest := by
  match queue, holds with
  | [], holds => exact (some_left (holds.empty_iff.mpr rfl)).elim
  | ch :: rest, holds =>
    obtain ⟨first, ring⟩ := Ring.pop holds (by decide)
    refine ⟨rest, ?_, ?_⟩
    · rw [← first]
      simp [byte]
    · rw [Holds, UInt32.toNat_add]
      exact ring

end

end Holds

end Pipe

namespace System

variable {P : Type*} [DecidableEq P]

/-- A process goes on without changing anything else. -/
inductive Advance (s : System P) (p : P) : Pc → Pc → Prop
  | write (addr n) : Advance s p .idle (.writeLock addr n 0)
  | read (addr n) : Advance s p .idle (.readLock addr n)
  | close (writable) : Advance s p .idle (.closeLock writable)
  | writeRound (addr : UInt64) (n : Int32) (i : ℕ) : i < n.toInt → s.pipe.readopen = true → s.killed p = false →
      Advance s p (.writeTest addr n i) (.writeBody addr n i)
  | writeDone (addr : UInt64) (n : Int32) (i : ℕ) : n.toInt ≤ i → Advance s p (.writeTest addr n i) (.writeEnd i)
  | writeFault (addr n i) : Advance s p (.writeBody addr n i) (.writeEnd i)
  | readEmpty (addr n) : s.pipe.Empty → s.pipe.writeopen = true → Advance s p (.readTest addr n) (.readDoze addr n)
  | readReady (addr n) : ¬ (s.pipe.Empty ∧ s.pipe.writeopen = true) →
      Advance s p (.readTest addr n) (.readCopy addr n 0)
  | readDone (addr : UInt64) (n : Int32) (i : ℕ) : n.toInt ≤ i → Advance s p (.readCopy addr n i) (.readEnd n i)
  | readDry (addr n i) : s.pipe.Empty → Advance s p (.readCopy addr n i) (.readEnd n i)
  | readFault (addr : UInt64) (n : Int32) (i : ℕ) (v : ℤ) : v = (if i = 0 then -1 else (i : ℤ)) →
      Advance s p (.readCopy addr n i) (.readEnd n v)

/-- What each step does. -/
inductive Step (s : System P) : Act P → System P → Prop
  | advance (p act pc pc') : s.pc p = pc → Advance s p pc pc' → Step s act (s.setPc p pc')
  | compute (p memory) : Step s (.compute p memory) { s with memory := Function.update s.memory p memory }
  | kill (p) : Step s (.kill p) (s.kkill p)
  | lockWrite (p ok addr n i) : s.pc p = .writeLock addr n i → s.lock = none →
      Step s (.step p ok) (s.acquire p (.writeTest addr n i))
  | lockRead (p ok addr n) : s.pc p = .readLock addr n → s.lock = none →
      Step s (.step p ok) (s.acquire p (.readTest addr n))
  | close (p ok writable) : s.pc p = .closeLock writable → s.lock = none → Step s (.step p ok) (s.pipeclose p writable)
  | refuse (p ok addr n i) : s.pc p = .writeTest addr n i → i < n.toInt →
      s.pipe.readopen = false ∨ s.killed p = true → Step s (.step p ok) (s.leave p (-1))
  | readKilled (p ok addr n) : s.pc p = .readTest addr n → Step s (.step p ok) (s.leave p (-1))
  | writeSleep (p ok addr n i) : s.pc p = .writeBody addr n i → s.pipe.Full →
      Step s (.step p ok) ((s.wakeup .nread).sleep p (.writeAsleep addr n i))
  | readSleep (p ok addr n) : s.pc p = .readDoze addr n → Step s (.step p ok) (s.sleep p (.readAsleep addr n))
  | store (p addr n i ch) : s.pc p = .writeBody addr n i → ¬ s.pipe.Full →
      ch = s.memory p (addr + UInt64.ofNat i) → Step s (.step p true)
        { s.setPc p (.writeTest addr n (i + 1)) with pipe := s.pipe.store ch, accepted := s.accepted ++ [ch] }
  | deliver (p addr n i ch) : s.pc p = .readCopy addr n i → ¬ s.pipe.Empty →
      ch = s.pipe.byte s.pipe.nread.toNat → Step s (.step p true)
        { s.setPc p (.readCopy addr n (i + 1)) with
          pipe := { s.pipe with nread := s.pipe.nread + 1 }
          memory := Function.update s.memory p (Function.update (s.memory p) (addr + UInt64.ofNat i) ch)
          delivered := s.delivered ++ [ch] }
  | writeEnd (p ok i) : s.pc p = .writeEnd i → Step s (.step p ok) ((s.wakeup .nread).leave p i)
  | readEnd (p ok n i) : s.pc p = .readEnd n i → Step s (.step p ok) ((s.wakeup .nwrite).leave p i)

variable {s s' : System P} {act : Act P} {p : P} {ok : Bool}

theorem Step.of_writeBody {addr : UInt64} {n : Int32} {i : ℕ} (at_body : s.pc p = .writeBody addr n i) :
    Step s (.step p ok) (s.writeBody p addr n i ok) := by
  unfold writeBody
  split_ifs with full copied
  · exact .writeSleep p ok addr n i at_body full
  · rw [copied]
    exact .store p addr n i _ at_body full rfl
  · exact .advance p _ _ _ at_body (.writeFault addr n i)

theorem Step.of_readCopy {addr : UInt64} {n : Int32} {i : ℕ} (at_copy : s.pc p = .readCopy addr n i) :
    Step s (.step p ok) (s.readCopy p addr n i ok) := by
  unfold readCopy
  split_ifs with more empty copied first
  · exact .advance p _ _ _ at_copy (.readDry addr n i empty)
  · rw [copied]
    exact .deliver p addr n i _ at_copy empty rfl
  · exact .advance p _ _ _ at_copy (.readFault addr n i _ (if_pos first).symm)
  · exact .advance p _ _ _ at_copy (.readFault addr n i _ (if_neg first).symm)
  · exact .advance p _ _ _ at_copy (.readDone addr n i (by omega))

theorem Step.of_next? (next : s.next? p ok = some s') : Step s (.step p ok) s' := by
  unfold next? at next
  split at next
  case h_1 | h_2 | h_3 => cases next
  case h_4 addr n i here =>
    split_ifs at next with free
    cases next
    exact .lockWrite p ok addr n i here free
  case h_5 addr n i here =>
    split_ifs at next with more refused <;> cases next
    · exact .refuse p ok addr n i here more refused
    · rw [not_or, Bool.not_eq_false, Bool.not_eq_true] at refused
      exact .advance p _ _ _ here (.writeRound addr n i more refused.1 refused.2)
    · exact .advance p _ _ _ here (.writeDone addr n i (by omega))
  case h_6 addr n i here =>
    cases next
    exact .of_writeBody here
  case h_7 i here =>
    cases next
    exact .writeEnd p ok i here
  case h_8 addr n here =>
    split_ifs at next with free
    cases next
    exact .lockRead p ok addr n here free
  case h_9 addr n here =>
    split_ifs at next with waits killed <;> cases next
    · exact .readKilled p ok addr n here
    · exact .advance p _ _ _ here (.readEmpty addr n waits.1 waits.2)
    · exact .advance p _ _ _ here (.readReady addr n waits)
  case h_10 addr n here =>
    cases next
    exact .readSleep p ok addr n here
  case h_11 addr n i here =>
    cases next
    exact .of_readCopy here
  case h_12 n i here =>
    cases next
    exact .readEnd p ok n i here
  case h_13 writable here =>
    split_ifs at next with free
    cases next
    exact .close p ok writable here free

theorem Step.of_step? (next : s.step? act = some s') : Step s act s' := by
  cases act with
  | step p ok => exact .of_next? next
  | kill p =>
    cases next
    exact .kill p
  | compute p memory =>
    obtain ⟨-, ⟨⟩⟩ := Option.ite_none_right_eq_some.mp next
    exact .compute p memory
  | write p addr n =>
    obtain ⟨idle, ⟨⟩⟩ := Option.ite_none_right_eq_some.mp next
    exact .advance p _ _ _ idle (.write addr n)
  | read p addr n =>
    obtain ⟨idle, ⟨⟩⟩ := Option.ite_none_right_eq_some.mp next
    exact .advance p _ _ _ idle (.read addr n)
  | close p writable =>
    obtain ⟨idle, ⟨⟩⟩ := Option.ite_none_right_eq_some.mp next
    exact .advance p _ _ _ idle (.close writable)

theorem setPc_pc_self {pc : Pc} : (s.setPc p pc).pc p = pc := Function.update_self ..

theorem setPc_pc_of_ne {pc : Pc} {q : P} (other : q ≠ p) : (s.setPc p pc).pc q = s.pc q :=
  Function.update_of_ne other ..

theorem kkill_pc_of_holds {q : P} (holds : (s.pc q).holds = true) : (s.kkill p).pc q = s.pc q := by
  rcases eq_or_ne q p with rfl | other
  · exact setPc_pc_self.trans (Pc.awake_of_holds holds)
  · exact setPc_pc_of_ne other

theorem leave_ret {value : ℤ} : (s.leave p value).ret p = value := Function.update_self ..

omit [DecidableEq P] in
theorem Advance.holds_eq {pc pc' : Pc} (advance : Advance s p pc pc') : pc'.holds = pc.holds := by cases advance <;> rfl

/-- The processes that have `pi->lock` are its owner. -/
def Locked (s : System P) : Prop := ∀ p, (s.pc p).holds = true ↔ s.lock = some p

namespace Locked

section

variable (locked : Locked s)
include locked

omit [DecidableEq P] in
theorem unique {q : P} (first : (s.pc p).holds = true) (second : (s.pc q).holds = true) : p = q :=
  Option.some.inj (((locked p).mp first).symm.trans ((locked q).mp second))

omit [DecidableEq P] in
theorem nobody (free : s.lock = none) (q : P) : (s.pc q).holds = false := by
  rw [← Bool.not_eq_true, locked q, free]
  exact nofun

theorem setPc {pc : Pc} (same : pc.holds = (s.pc p).holds) : Locked (s.setPc p pc) := by
  intro q
  rcases eq_or_ne q p with rfl | other
  · simpa [System.setPc, same] using locked q
  · simpa [System.setPc, Function.update_of_ne other] using locked q

theorem acquire (free : s.lock = none) {pc : Pc} (holds : pc.holds = true) :
    Locked (s.acquire p pc) := by
  intro q
  rcases eq_or_ne q p with rfl | other
  · simp [System.acquire, System.setPc, holds]
  · simp [System.acquire, System.setPc, Function.update_of_ne other, locked.nobody free q, other.symm]

theorem release (holds : (s.pc p).holds = true) {pc : Pc} (outside : pc.holds = false) :
    Locked (s.sleep p pc) := by
  intro q
  rcases eq_or_ne q p with rfl | other
  · simp [System.sleep, System.setPc, outside]
  · have : (s.pc q).holds ≠ true := fun second => other (locked.unique second holds)
    simp [System.sleep, System.setPc, Function.update_of_ne other, this]

omit [DecidableEq P] in
theorem wakeup (chan : Chan) : Locked (s.wakeup chan) := by
  intro q
  have same : ((s.wakeup chan).pc q).holds = (s.pc q).holds := by
    unfold System.wakeup
    dsimp only
    split_ifs
    · exact Pc.holds_awake _
    · rfl
  rw [same]
  exact locked q

theorem step (step : Step s act s') : Locked s' := by
  cases step with
  | advance p act pc pc' here advance => exact locked.setPc (advance.holds_eq.trans (by rw [here]))
  | compute p memory => exact locked
  | kill p => exact locked.setPc (Pc.holds_awake _)
  | lockWrite _ _ _ _ _ _ free | lockRead _ _ _ _ _ free => exact locked.acquire free rfl
  | close p ok writable here free =>
    refine (locked.wakeup _).setPc ?_
    simp [System.wakeup, here, Pc.chan?, Pc.holds]
  | refuse _ _ _ _ _ here | readKilled _ _ _ _ here | readSleep _ _ _ _ here =>
    exact locked.release (by rw [here]; rfl) rfl
  | writeSleep _ _ _ _ _ here | writeEnd _ _ _ here | readEnd _ _ _ _ here =>
    exact (locked.wakeup _).release (by simp [System.wakeup, here, Pc.chan?, Pc.holds]) rfl
  | store _ _ _ _ _ here | deliver _ _ _ _ _ here => exact locked.setPc (by rw [here]; rfl)

end

end Locked

/-- How the owner of the lock came to where it is, and what became of the pipe meanwhile. -/
inductive Turn (s s' : System P) (q : P) : Prop
  | stays : s'.pc q = s.pc q → s'.pipe = s.pipe → Turn s s' q
  | advances : Advance s q (s.pc q) (s'.pc q) → s'.pipe = s.pipe → Turn s s' q
  | locksWrite (addr n i) : s'.pc q = .writeTest addr n i → s'.pipe = s.pipe → Turn s s' q
  | locksRead (addr n) : s'.pc q = .readTest addr n → s'.pipe = s.pipe → Turn s s' q
  | stores (addr n i ch) : s.pc q = .writeBody addr n i →
      s'.pc q = .writeTest addr n (i + 1) → s'.pipe = s.pipe.store ch → Turn s s' q
  | takes (addr n i) : s.pc q = .readCopy addr n i →
      s'.pc q = .readCopy addr n (i + 1) → s'.pipe = { s.pipe with nread := s.pipe.nread + 1 } → Turn s s' q

theorem Step.turn (locked : s.Locked) (step : Step s act s') {q : P} (holds : (s'.pc q).holds = true) :
    Turn s s' q := by
  have locked' := locked.step step
  have owned := (locked' q).mp holds
  cases step with
  | advance p act pc pc' here advance =>
    rcases eq_or_ne q p with rfl | other
    · exact .advances (by rwa [here, setPc_pc_self]) rfl
    · exact .stays (setPc_pc_of_ne other) rfl
  | compute p memory => exact .stays rfl rfl
  | kill p =>
    rcases eq_or_ne q p with rfl | other
    · have same : (s.kkill q).pc q = (s.pc q).awake := setPc_pc_self
      rw [same, Pc.holds_awake] at holds
      exact .stays (same.trans (Pc.awake_of_holds holds)) rfl
    · exact .stays (setPc_pc_of_ne other) rfl
  | lockWrite p ok addr n i here free =>
    rcases eq_or_ne q p with rfl | other
    · exact .locksWrite addr n i setPc_pc_self rfl
    · exact .stays (setPc_pc_of_ne other) rfl
  | lockRead p ok addr n here free =>
    rcases eq_or_ne q p with rfl | other
    · exact .locksRead addr n setPc_pc_self rfl
    · exact .stays (setPc_pc_of_ne other) rfl
  | close p ok writable here free => cases free.symm.trans owned
  | store p addr n i ch here =>
    obtain rfl : q = p := locked'.unique holds (congrArg Pc.holds setPc_pc_self)
    exact .stores addr n i ch here setPc_pc_self rfl
  | deliver p addr n i ch here =>
    obtain rfl : q = p := locked'.unique holds (congrArg Pc.holds setPc_pc_self)
    exact .takes addr n i here setPc_pc_self rfl
  -- the others release the lock
  | _ => cases owned

end System

end Xv6.Ipc
