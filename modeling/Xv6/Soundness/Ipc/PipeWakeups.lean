import Xv6.Soundness.Ipc.PipeOrder

/-! # Wakeups of a pipe

A process sleeps on `&pi->nread` only while the buffer is empty and on `&pi->nwrite` only while it is full,
or the owner of `pi->lock` still owes it a wakeup. `piperead` never returns without the wakeup it owes.
`pipewrite` does when it finds itself killed after it stored a byte: it returns at once, and a reader that
slept through the store is not woken. This is the only way to lose a wakeup.
-/

namespace Xv6.Ipc

open Machine

/-- A process at this point wakes those who sleep on the channel before it releases the lock, if it is not killed. -/
def Pc.wakes (pipe : Pipe) : Chan → Pc → Prop
  | .nwrite, .readCopy _ _ _ | .nwrite, .readEnd _ _ | .nread, .writeBody _ _ _ | .nread, .writeEnd _ => True
  | .nread, .writeTest _ _ _ => pipe.readopen = true
  | _, _ => False

theorem Pc.holds_of_wakes {pc : Pc} {pipe : Pipe} {chan : Chan} (wakes : pc.wakes pipe chan) : pc.holds = true := by
  cases chan <;> cases pc <;> first | rfl | exact wakes.elim

/-- What a process that goes to sleep on the channel found. -/
def Pipe.Blocks (pi : Pipe) : Chan → Prop
  | .nread => pi.Empty
  | .nwrite => pi.Full

/-- The other end, whose closing wakes those who sleep on the channel. -/
def Pipe.opened (pi : Pipe) : Chan → Bool
  | .nread => pi.writeopen
  | .nwrite => pi.readopen

namespace System

variable {P : Type*} {s s' : System P} {act : Act P} {p q : P} {chan chan' : Chan} {soon : Prop}

def Sleeps (s : System P) (q : P) (chan : Chan) : Prop := (s.pc q).chan? = some chan

instance (s : System P) (q : P) (chan : Chan) : Decidable (s.Sleeps q chan) := inferInstanceAs (Decidable (_ = _))

theorem Sleeps.of_wakeup (sleeps : (s.wakeup chan').Sleeps q chan) : s.Sleeps q chan ∧ chan ≠ chan' := by
  unfold Sleeps wakeup at sleeps
  dsimp only at sleeps
  split_ifs at sleeps with woken
  · rw [Pc.chan?_awake] at sleeps
    cases sleeps
  · exact ⟨sleeps, fun same => woken (same ▸ sleeps)⟩

theorem Advance.chan?_eq_none {pc pc' : Pc} (advance : Advance s p pc pc') : pc'.chan? = none := by
  cases advance <;> rfl

/-- Who sleeps found the buffer empty or full, or is about to be woken. -/
def Waits (s : System P) : Prop :=
  ∀ q chan, s.Sleeps q chan → s.pipe.opened chan = true ∧ (s.pipe.Blocks chan ∨ ∃ p, (s.pc p).wakes s.pipe chan)

/-- When the owner of the lock wakes nobody, the buffer is as the sleeper found it. -/
theorem Waits.blocks (waits : s.Waits) (locked : s.Locked) (holds : (s.pc p).holds = true)
    (other : ¬ (s.pc p).wakes s.pipe chan) (sleeps : s.Sleeps q chan) :
    s.pipe.opened chan = true ∧ (s.pipe.Blocks chan ∨ soon) := by
  obtain ⟨opened, blocks | ⟨r, wakes⟩⟩ := waits q chan sleeps
  · exact ⟨opened, .inl blocks⟩
  · exact (other (locked.unique (Pc.holds_of_wakes wakes) holds ▸ wakes)).elim

theorem Waits.blocks_of_free (waits : s.Waits) (locked : s.Locked) (free : s.lock = none) (sleeps : s.Sleeps q chan) :
    s.pipe.opened chan = true ∧ (s.pipe.Blocks chan ∨ soon) := by
  obtain ⟨opened, blocks | ⟨r, wakes⟩⟩ := waits q chan sleeps
  · exact ⟨opened, .inl blocks⟩
  · cases (locked.nobody free r).symm.trans (Pc.holds_of_wakes wakes)

/-- The writer is killed and about to return, with bytes left to write, and leaves bytes behind that a reader sleeps
for. -/
def Abandons (s : System P) (p : P) : Prop :=
  (∃ addr n i, s.pc p = .writeTest addr n i ∧ i < n.toInt) ∧ s.killed p = true ∧ ¬ s.pipe.Empty ∧ ∃ q, s.Sleeps q .nread

def Spares (s : System P) : Act P → Prop
  | .step p _ => ¬ s.Abandons p
  | _ => True

/-! ## Steps -/

variable [DecidableEq P]

theorem Sleeps.of_setPc {pc : Pc} (sleeps : (s.setPc p pc).Sleeps q chan) (awake : pc.chan? = none) :
    s.Sleeps q chan := by
  rcases eq_or_ne q p with rfl | other
  · rw [Sleeps, setPc_pc_self, awake] at sleeps
    cases sleeps
  · rwa [Sleeps, setPc_pc_of_ne other] at sleeps

theorem Waits.step (waits : s.Waits) (lawful : s.Lawful) (step : Step s act s') (spares : s.Spares act) :
    s'.Waits := by
  intro q chan sleeps
  cases step with
  | advance p act pc pc' here advance =>
    obtain ⟨opened, blocks | ⟨r, wakes⟩⟩ := waits q chan (sleeps.of_setPc advance.chan?_eq_none)
    · exact ⟨opened, .inl blocks⟩
    · refine ⟨opened, .inr ⟨r, ?_⟩⟩
      rcases eq_or_ne r p with rfl | other
      · rw [here] at wakes
        rw [setPc_pc_self]
        cases chan <;> cases advance <;> trivial
      · rwa [setPc_pc_of_ne other]
  | compute p memory => exact waits q chan sleeps
  | kill p =>
    obtain ⟨opened, blocks | ⟨r, wakes⟩⟩ := waits q chan (sleeps.of_setPc (Pc.chan?_awake _))
    · exact ⟨opened, .inl blocks⟩
    · refine ⟨opened, .inr ⟨r, ?_⟩⟩
      rwa [kkill_pc_of_holds (Pc.holds_of_wakes wakes)]
  | lockWrite _ _ _ _ _ _ free | lockRead _ _ _ _ _ free =>
    exact waits.blocks_of_free lawful.locked free (sleeps.of_setPc rfl)
  | close p ok writable here free =>
    obtain ⟨slept, missed⟩ := (Sleeps.of_setPc sleeps rfl).of_wakeup
    cases writable <;> cases chan <;>
      first | exact (missed rfl).elim | exact waits.blocks_of_free lawful.locked free slept
  | refuse p ok addr n i here more refused =>
    have slept := sleeps.of_setPc rfl
    obtain ⟨opened, blocks | ⟨r, wakes⟩⟩ := waits q chan slept
    · exact ⟨opened, .inl blocks⟩
    · -- the read end is open, so the writer returns because it is killed
      obtain rfl : r = p := lawful.locked.unique (Pc.holds_of_wakes wakes) (by rw [here]; rfl)
      rw [here] at wakes
      cases chan with
      | nread =>
        have killed := refused.resolve_left (by rw [show s.pipe.readopen = true from wakes]; decide)
        exact ⟨opened, .inl (by_contra fun stored => spares ⟨⟨addr, n, i, here, more⟩, killed, stored, q, slept⟩)⟩
      | nwrite => exact wakes.elim
  | readKilled p ok addr n here =>
    exact waits.blocks lawful.locked (p := p) (by rw [here]; rfl) (by rw [here]; cases chan <;> exact id)
      (sleeps.of_setPc rfl)
  | writeSleep p ok addr n i here full =>
    cases chan with
    | nread =>
      rcases eq_or_ne q p with rfl | other
      · rw [Sleeps, sleep, setPc_pc_self] at sleeps
        cases sleeps
      · rw [Sleeps, sleep, setPc_pc_of_ne other] at sleeps
        exact ((Sleeps.of_wakeup sleeps).2 rfl).elim
    | nwrite => exact ⟨lawful.knows_at here, .inl full⟩
  | readSleep p ok addr n here =>
    cases chan with
    | nread => exact ⟨(lawful.knows_at here).2, .inl (lawful.knows_at here).1⟩
    | nwrite =>
      rcases eq_or_ne q p with rfl | other
      · rw [Sleeps, sleep, setPc_pc_self] at sleeps
        cases sleeps
      · rw [Sleeps, sleep, setPc_pc_of_ne other] at sleeps
        exact waits.blocks lawful.locked (p := p) (by rw [here]; rfl) (by rw [here]; exact id) sleeps
  | store p addr n i ch here room =>
    have slept : s.Sleeps q chan := Sleeps.of_setPc sleeps rfl
    cases chan with
    | nread =>
      refine ⟨(waits q .nread slept).1, .inr ⟨p, ?_⟩⟩
      rw [setPc_pc_self]
      exact lawful.knows_at here
    | nwrite =>
      exact ((waits.blocks lawful.locked (p := p) (by rw [here]; rfl) (by rw [here]; exact id) slept).2.elim room
        id).elim
  | deliver p addr n i ch here some_left =>
    have slept : s.Sleeps q chan := Sleeps.of_setPc sleeps rfl
    cases chan with
    | nread =>
      exact ((waits.blocks lawful.locked (p := p) (by rw [here]; rfl) (by rw [here]; exact id) slept).2.elim some_left
        id).elim
    | nwrite =>
      refine ⟨(waits q .nwrite slept).1, .inr ⟨p, ?_⟩⟩
      rw [setPc_pc_self]
      trivial
  | writeEnd p ok i here | readEnd p ok n i here =>
    obtain ⟨slept, missed⟩ := (Sleeps.of_setPc sleeps rfl).of_wakeup
    cases chan with
    | nread | nwrite =>
      first
      | exact (missed rfl).elim
      | exact waits.blocks lawful.locked (p := p) (by rw [here]; rfl) (by rw [here]; exact id) slept

/-! ## Runs -/

/-- Nobody sleeps for something that is there. -/
structure NoLostWakeup (s : System P) : Prop where
  reader : ∀ p, s.Sleeps p .nread → s.pipe.Empty ∧ s.pipe.writeopen = true
  writer : ∀ p, s.Sleeps p .nwrite → s.pipe.Full ∧ s.pipe.readopen = true

theorem reachable_waits {data : Vector UInt8 pipesize} {memory : P → UInt64 → UInt8} {acts : List (Act P)}
    (spared : Along step? Spares (pipealloc data memory) acts)
    (reached : run? step? (pipealloc data memory) acts = some s) : s.Lawful ∧ s.Waits := by
  refine run?_along step? spared (fun _ s => s.Lawful ∧ s.Waits) ⟨?_, ?_⟩
    (fun _ _ _ _ inv spares next => ?_) reached
  · exact lawful_pipealloc data memory
  · rintro _ _ ⟨⟩
  · have step := Step.of_step? next
    exact ⟨inv.1.step step, inv.2.step inv.1 step spares⟩

/-- A writer that abandons a reader returns, and the reader sleeps on. -/
theorem Abandons.loses (abandons : s.Abandons p) (ok : Bool) :
    ∃ s', s.step? (.step p ok) = some s' ∧ s'.lock = none ∧ ¬ s'.NoLostWakeup := by
  obtain ⟨⟨addr, n, i, here, more⟩, killed, stored, q, sleeps⟩ := abandons
  refine ⟨s.leave p (-1), by simp [step?, next?, here, more, killed], rfl, fun kept => stored (kept.reader q ?_).1⟩
  have other : q ≠ p := by
    rintro rfl
    rw [Sleeps, here] at sleeps
    cases sleeps
  rwa [Sleeps, leave, setPc_pc_of_ne other]

/-- No wakeup is lost in a run, at any point where `pi->lock` is free, exactly if no killed writer abandons a reader. -/
theorem no_lost_wakeup_iff (data : Vector UInt8 pipesize) (memory : P → UInt64 → UInt8) (acts : List (Act P)) :
    (∀ past s, past <+: acts → run? step? (pipealloc data memory) past = some s → s.lock = none → s.NoLostWakeup) ↔
      Along step? Spares (pipealloc data memory) acts := by
  constructor
  · rintro kept past act rest s rfl reached
    cases act with
    | step p ok =>
      intro abandons
      obtain ⟨s', next, free, lost⟩ := abandons.loses ok
      refine lost (kept (past ++ [.step p ok]) s' ⟨rest, by simp⟩ ((run?_concat _).mpr ⟨s, reached, next⟩) free)
    | _ => trivial
  · rintro spared past s ⟨rest, rfl⟩ reached free
    obtain ⟨lawful, waits⟩ := reachable_waits (Along.left _ spared) reached
    have found {p chan} (sleeps : s.Sleeps p chan) : s.pipe.Blocks chan ∧ s.pipe.opened chan = true :=
      (waits.blocks_of_free lawful.locked free sleeps).symm.imp_left (or_false _).mp
    exact ⟨fun p => found, fun p => found⟩

/-- A reader waits, and a writer of two bytes is killed after the first of them. -/
def killedWriter : List (Act Bool) :=
  [.read false 0 1, .step false true, .step false true, .step false true, .write true 0 2, .step true true,
    .step true true, .step true true, .kill true, .step true true]

theorem killedWriter_loses : ∃ s, run? step? (pipealloc (.replicate _ 0) fun _ _ => 0) killedWriter = some s ∧
    s.lock = none ∧ ¬ s.NoLostWakeup := by
  have ran : ((run? step? (pipealloc (.replicate _ 0) fun _ _ => 0) killedWriter).map fun s =>
      (s.lock, decide (s.Sleeps false .nread), decide s.pipe.Empty)) = some (none, true, false) := by decide +kernel
  obtain ⟨s, reached, same⟩ := Option.map_eq_some_iff.mp ran
  simp only [Prod.mk.injEq, decide_eq_true_eq, decide_eq_false_iff_not] at same
  obtain ⟨free, sleeps, stored⟩ := same
  exact ⟨s, reached, free, fun kept => stored (kept.reader false sleeps).1⟩

end System

end Xv6.Ipc
