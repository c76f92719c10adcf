import Xv6.Soundness.Lighting.Refinement

/-! # Meters under interleaving

The refinement by meters survives the split into steps: whatever the order of the steps, each of
them is a reaction of every meter (`System.step?_shows`). The handler's own sample is never stale,
since no tick falls between its steps; a process's sample may be older than the clock.
-/

namespace Xv6.Lighting

open Machine

namespace Meter

variable {i : Fin numRooms} {s : System} {m : Meter}

/-- A step that applies the policy is an expiry with its sample and limit. -/
theorem follow_of_due {act : Act} {now limit : UInt32} (due : s.due? act = some (now, limit)) :
    m.follow i s act = m.expire now limit := by
  have policy : m.expireDue (s.due? act) = m.expire now limit := by
    rw [due]
    rfl
  cases act with
  | lightingSection | shutoffSection => exact policy
  | _ => cases due

theorem follow_setRoomOccupied (roomid : Int32) : m.follow i s (.setRoomOccupied roomid) =
    if roomIndex? roomid = some i then m.occupy s.kernel.ticks else m := rfl

theorem follow_setRoomEmpty (roomid : Int32) : m.follow i s (.setRoomEmpty roomid) =
    if roomIndex? roomid = some i then m.vacate else m := rfl

end Meter

namespace System

/-- What each step does once the table is initialized. -/
inductive Step (s : System) : Act → System → Prop
  | tick : s.phase = .idle → Step s .tick { s with kernel := Op.tick.apply s.kernel, phase := .ticked }
  | updateUsage : s.phase = .ticked →
      Step s .updateUsage { s with kernel := Op.updateUsage.apply s.kernel, phase := .charged }
  | lightingSample : s.phase = .charged → Step s .lightingSample { s with phase := .sampled s.kernel.ticks }
  | lightingSection {now} : s.phase = .sampled now →
      Step s .lightingSection { s with kernel := s.kernel.shutoffAt now lightingTickTimeout, phase := .idle }
  | shutoffSample {pid timeoutTicks} : s.pending pid = none → Step s (.shutoffSample pid timeoutTicks)
      { s with pending := fun p => if p = pid then some ⟨s.kernel.ticks, timeoutTicks⟩ else s.pending p }
  | shutoffSection {pid sample} : s.pending pid = some sample → Step s (.shutoffSection pid)
      { s with
        kernel := s.kernel.shutoffAt sample.now sample.timeoutTicks
        pending := fun p => if p = pid then none else s.pending p }
  | lightingInit : Step s .lightingInit { s with kernel := Op.lightingInit.apply s.kernel }
  | setRoomOccupied {roomid} :
      Step s (.setRoomOccupied roomid) { s with kernel := (Op.setRoomOccupied roomid).apply s.kernel }
  | setRoomEmpty {roomid} : Step s (.setRoomEmpty roomid) { s with kernel := (Op.setRoomEmpty roomid).apply s.kernel }

theorem due?_lightingSection {s : System} {now : UInt32} (phase : s.phase = .sampled now) :
    s.due? .lightingSection = some (now, shutoffLimit lightingTickTimeout) := by
  rw [due?, phase]

theorem due?_shutoffSection {s : System} {pid : ℕ} {sample : Sample} (flight : s.pending pid = some sample) :
    s.due? (.shutoffSection pid) = some (sample.now, shutoffLimit sample.timeoutTicks) := by
  rw [due?, flight, Option.map_some]

variable {s s' : System} {house : Fin numRooms → Meter} {act : Act}

theorem Step.of_step? (ready : s.kernel.lightingInitialized = 1) (enabled : s.step? act = some s') : Step s act s' := by
  have guard := Kernel.ensureInit_of_initialized ready
  cases act with
  | setRoomOccupied | setRoomEmpty | lightingInit =>
    cases enabled
    constructor
  | _ =>
    simp only [step?, guard] at enabled
    split at enabled <;> cases enabled
    constructor
    assumption

/-- One step of the system is one reaction of every meter. -/
theorem step?_shows (agree : s.kernel.Shows house) (enabled : s.step? act = some s') :
    s'.kernel.Shows (fun i => (house i).follow i s act) := by
  cases Step.of_step? agree.ready enabled with
  | tick => exact Op.apply_shows agree .tick
  | updateUsage => exact Op.apply_shows agree .updateUsage
  | lightingSample | shutoffSample => exact agree
  | @lightingSection now phase =>
    simpa only [Meter.follow_of_due (due?_lightingSection phase)] using
      agree.shutoffAt now lightingTickTimeout
  | @shutoffSection pid sample flight =>
    simpa only [Meter.follow_of_due (due?_shutoffSection flight)] using
      agree.shutoffAt sample.now sample.timeoutTicks
  | lightingInit => exact Op.apply_shows agree .lightingInit
  | @setRoomOccupied roomid => exact Op.apply_shows agree (.setRoomOccupied roomid)
  | @setRoomEmpty roomid => exact Op.apply_shows agree (.setRoomEmpty roomid)

theorem step?_ticks (ready : s.kernel.lightingInitialized = 1) (enabled : s.step? act = some s') :
    s'.kernel.ticks = if act = .tick then s.kernel.ticks + 1 else s.kernel.ticks := by
  cases Step.of_step? ready enabled with
  | updateUsage => exact Op.apply_ticks _ .updateUsage
  | @setRoomOccupied roomid => exact Op.apply_ticks _ (.setRoomOccupied roomid)
  | @setRoomEmpty roomid => exact Op.apply_ticks _ (.setRoomEmpty roomid)
  | _ => rfl

/-- The handler's sample is the current clock: no tick overtakes it. -/
def HandlerFresh (s : System) : Prop := ∀ now, s.phase = .sampled now → now = s.kernel.ticks

theorem HandlerFresh.step? (ready : s.kernel.lightingInitialized = 1) (fresh : s.HandlerFresh)
    (enabled : s.step? act = some s') : s'.HandlerFresh := by
  have clock := step?_ticks ready enabled
  intro now sampled
  cases Step.of_step? ready enabled with
  | tick | updateUsage | lightingSection => cases sampled
  | lightingSample =>
    cases sampled
    rfl
  | _ =>
    rw [clock, if_neg nofun]
    exact fresh now sampled

end System

/-- The step is a successful `set_room_occupied` for room `i`. -/
def Act.occupies (i : Fin numRooms) : Act → Bool
  | .setRoomOccupied roomid => decide (roomIndex? roomid = some i)
  | _ => false

theorem Act.occupies_iff {i : Fin numRooms} {act : Act} :
    act.occupies i = true ↔ ∃ roomid, act = .setRoomOccupied roomid ∧ roomIndex? roomid = some i := by
  cases act <;> simp [Act.occupies]

namespace Meter

variable {i : Fin numRooms} {s : System} {m : Meter} {act : Act} {since : UInt32}

theorem follow_of_occupies (occupies : act.occupies i = true) : m.follow i s act = m.occupy s.kernel.ticks := by
  obtain ⟨roomid, rfl, target⟩ := Act.occupies_iff.mp occupies
  exact if_pos target

/-- Only an occupation lights a lamp or moves its switch-on tick. -/
theorem lamp_of_follow (other : act.occupies i = false) (lit : (m.follow i s act).lamp = .lit since) :
    m.lamp = .lit since := by
  have policy (after : (m.expireDue (s.due? act)).lamp = .lit since) : m.lamp = .lit since := by
    unfold expireDue at after
    split at after
    · exact (lit_expire_iff.mp after).1
    · exact after
  cases act with
  | tick | lightingSample | lightingSection | shutoffSample | shutoffSection => exact policy lit
  | updateUsage => exact m.charge_lamp ▸ lit
  | lightingInit => cases lit
  | setRoomOccupied roomid =>
    have elsewhere : roomIndex? roomid ≠ some i := of_decide_eq_false other
    rwa [follow_setRoomOccupied, if_neg elsewhere] at lit
  | setRoomEmpty roomid =>
    rw [follow_setRoomEmpty] at lit
    split at lit
    · cases lit
    · exact lit

end Meter

end Xv6.Lighting
