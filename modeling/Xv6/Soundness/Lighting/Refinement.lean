import Xv6.Model.Lighting.Interleaving
import Xv6.Proofs.Lighting.Policy

/-! # The lighting module refines five independent meters

Every operation of the kernel acts on the meter of each room separately (`Op.apply_shows`). The
whole-house rule has no counterpart among the meters; the simulation goes through because a lit
meter is attended, so that the rule finds nothing to do.
-/

namespace Xv6.Lighting

open Machine

namespace Meter

theorem room_shows (name : Vector UInt8 roomNameMax) (m : Meter) : (m.room name).Shows m := by
  rcases m with ⟨lamp, usage⟩
  cases lamp <;> rfl

@[simp] theorem charge_lamp (m : Meter) : m.charge.lamp = m.lamp := by
  rcases m with ⟨lamp, usage⟩
  cases lamp <;> rfl

@[simp] theorem expire_usage (now limit : UInt32) (m : Meter) : (m.expire now limit).usage = m.usage := by
  rcases m with ⟨lamp, usage⟩
  cases lamp with
  | dark occupied => rfl
  | lit since =>
    simp only [expire]
    split <;> rfl

/-- A lamp burns on after an expiry exactly when it is too young or has no date. -/
theorem lit_expire_iff {m : Meter} {now limit since : UInt32} :
    (m.expire now limit).lamp = .lit since ↔
      m.lamp = .lit since ∧ (since = 0 ∨ ¬ limit ≤ now - since) := by
  rcases m with ⟨lamp, usage⟩
  cases lamp with
  | dark occupied => simp [expire]
  | lit start =>
    simp only [expire]
    split <;> grind

end Meter

namespace Room.Shows

variable {r : Room} {m : Meter}

section

variable (agree : r.Shows m)
include agree

theorem usage : r.usageTicks = m.usage := by
  rw [agree]
  rcases m with ⟨lamp, usage⟩
  cases lamp <;> rfl

theorem lit_iff : r.Lit ↔ ∃ since, m.lamp = .lit since := by
  rw [agree]
  rcases m with ⟨lamp, usage⟩
  cases lamp with
  | dark occupied => simp [Meter.room, Room.Lit, lightOff, Lighting.lightOn]
  | lit since => simp [Meter.room, Room.Lit]

theorem of_lit {since : UInt32} (lit : m.lamp = .lit since) :
    r.occupied = roomOccupied ∧ r.lightOnSince = since := by
  rw [agree]
  simp only [Meter.room, lit, and_self]

theorem charge : r.countUsage.Shows m.charge := by
  rw [agree]
  rcases m with ⟨lamp, usage⟩
  cases lamp with
  | dark occupied => exact Meter.room_shows r.name ⟨.dark occupied, usage⟩
  | lit since => exact Meter.room_shows r.name ⟨.lit since, usage + 1⟩

theorem expire (now limit : UInt32) :
    (r.maxOnTime now limit).Shows (m.expire now limit) := by
  rw [agree]
  rcases m with ⟨lamp, usage⟩
  cases lamp with
  | dark occupied => exact Meter.room_shows r.name ⟨.dark occupied, usage⟩
  | lit since =>
    have expired : (Meter.room r.name ⟨.lit since, usage⟩).expired now limit ↔
        since ≠ 0 ∧ limit ≤ now - since := by
      simp [Room.expired, Room.Lit, Meter.room, UInt32.pos_iff_ne_zero]
    simp only [Room.maxOnTime, Meter.expire, expired]
    split
    · exact Meter.room_shows r.name ⟨.dark true, usage⟩
    · exact Meter.room_shows r.name ⟨.lit since, usage⟩

theorem occupy (now : UInt32) : (r.occupy now).Shows (m.occupy now) := by
  rw [agree]
  rcases m with ⟨lamp, usage⟩
  cases lamp <;> exact Meter.room_shows r.name ⟨.lit now, usage⟩

theorem vacate : r.vacate.Shows m.vacate := by
  rw [agree]
  rcases m with ⟨lamp, usage⟩
  cases lamp <;> exact Meter.room_shows r.name ⟨.dark false, usage⟩

end

end Room.Shows

theorem resetRoom_shows (source : List UInt8) (r : Room) : (resetRoom source r).Shows .fresh := rfl

namespace Kernel.Shows

variable {k : Kernel} {house : Fin numRooms → Meter}

/-- Meters never let a light burn in an empty room. -/
theorem attended (agree : k.Shows house) : Rooms.Attended k.rooms := by
  intro i lit
  obtain ⟨since, burning⟩ := (agree.rooms i).lit_iff.mp lit
  rw [((agree.rooms i).of_lit burning).1]
  decide

end Kernel.Shows

/-- Initialization leaves fresh meters, whatever the rooms held before. -/
theorem Kernel.lightingInit_shows (k : Kernel) : k.lightingInit.Shows (fun _ => .fresh) where
  ready := rfl
  rooms i := by
    simp only [lightingInit, Vector.get_eq_getElem_val, Vector.getElem_zipWith]
    exact resetRoom_shows _ _

variable {k : Kernel} {house : Fin numRooms → Meter}

/-- The critical section of the policy is one `expire` per meter, whatever clock it has sampled. -/
theorem Kernel.Shows.shutoffAt (agree : k.Shows house) (now : UInt32) (timeoutTicks : Int32) :
    (k.shutoffAt now timeoutTicks).Shows (fun i => (house i).expire now (shutoffLimit timeoutTicks)) where
  ready := agree.ready
  rooms i := by
    simp only [Kernel.shutoffAt, shutoffSection_of_attended _ _ agree.attended, maxOnTimeRule_eq,
      Vector.get_eq_getElem_val, Vector.getElem_map]
    exact (agree.rooms i).expire _ _

theorem Kernel.Shows.autoShutoffImpl (agree : k.Shows house) (timeoutTicks verbose : Int32) :
    (k.autoShutoffImpl timeoutTicks verbose).1.Shows
      (fun i => (house i).expire k.ticks (shutoffLimit timeoutTicks)) := by
  rw [k.autoShutoffImpl_eq_shutoffAt, Kernel.ensureInit_of_initialized agree.ready]
  exact agree.shutoffAt k.ticks timeoutTicks

/-- A call that rewrites one cell of the room array touches no other meter. -/
theorem Kernel.Shows.setRoom (agree : k.Shows house)
    (target : Fin numRooms) {r : Room} {change : Meter → Meter} (replaced : r.Shows (change (house target))) :
    ({ k with rooms := k.rooms.set target r target.isLt } : Kernel).Shows
      (fun i => if some target = some i then change (house i) else house i) where
  ready := agree.ready
  rooms i := by
    simp only [Vector.get_eq_getElem_val, Vector.getElem_set, Option.some.injEq]
    rcases eq_or_ne target i with rfl | distinct
    · simpa using replaced
    · simp only [distinct, Fin.val_ne_of_ne distinct, ↓reduceIte]
      exact agree.rooms i

/-- One operation of the kernel is one step of every meter. -/
theorem Op.apply_shows (agree : k.Shows house) (op : Op) :
    (op.apply k).Shows (fun i => (house i).step i k.ticks op) := by
  cases op with
  | tick => exact ⟨agree.ready, agree.rooms⟩
  | lightingInit => exact k.lightingInit_shows
  | lightingTick => exact agree.autoShutoffImpl lightingTickTimeout 1
  | autoShutoff timeoutTicks => exact agree.autoShutoffImpl timeoutTicks 0
  | updateUsage =>
    refine ⟨Op.apply_initialized agree.ready .updateUsage, fun i => ?_⟩
    have nonzero : k.lightingInitialized ≠ 0 := by rw [agree.ready]; decide
    simp only [Op.apply, Kernel.updateUsage, if_neg nonzero, Vector.get_eq_getElem_val, Vector.getElem_map]
    exact (agree.rooms i).charge
  | setRoomOccupied roomid =>
    simp only [Op.apply, Kernel.setRoomOccupied, Kernel.ensureInit_of_initialized agree.ready,
      Meter.step]
    cases target : roomIndex? roomid with
    | none => simpa using agree
    | some t => exact agree.setRoom t ((agree.rooms t).occupy k.ticks)
  | setRoomEmpty roomid =>
    simp only [Op.apply, Kernel.setRoomEmpty, Kernel.ensureInit_of_initialized agree.ready,
      Meter.step]
    cases target : roomIndex? roomid with
    | none => simpa using agree
    | some t => exact agree.setRoom t (agree.rooms t).vacate

@[simp] theorem Kernel.ensureInit_ticks (k : Kernel) : k.ensureInit.ticks = k.ticks := by
  unfold ensureInit
  split <;> rfl

theorem Op.apply_ticks (k : Kernel) (op : Op) :
    (op.apply k).ticks = if op = .tick then k.ticks + 1 else k.ticks := by
  cases op with
  | tick => rfl
  | lightingInit => rfl
  | lightingTick => simp [Op.apply, Kernel.lightingTick, Kernel.autoShutoffImpl]
  | autoShutoff timeoutTicks => simp [Op.apply, Kernel.autoShutoff, Kernel.autoShutoffImpl]
  | updateUsage =>
    simp only [Op.apply, Kernel.updateUsage, reduceCtorEq, ↓reduceIte]
    split <;> rfl
  | setRoomOccupied roomid =>
    simp only [Op.apply, Kernel.setRoomOccupied, reduceCtorEq, ↓reduceIte]
    split <;> simp
  | setRoomEmpty roomid =>
    simp only [Op.apply, Kernel.setRoomEmpty, reduceCtorEq, ↓reduceIte]
    split <;> simp

/-- Every state reached from initialization shows some meters. -/
theorem reachable_shows (k : Kernel) (ops : List Op) :
    ∃ house, (run Op.apply k.lightingInit ops).Shows house :=
  run_invariant Op.apply (fun state => ∃ house, state.Shows house) ⟨_, k.lightingInit_shows⟩
    (fun _ op ⟨_, agree⟩ => ⟨_, op.apply_shows agree⟩) ops

end Xv6.Lighting
