import Xv6.Soundness.Lighting.Refinement

/-! # The invariant of reachable rooms

From initialization, under any sequence of operations with any arguments, the four mutable fields of
a room stay consistent with each other and with the history: a dark room has no timestamp, a lit
room is occupied and dated by the last successful occupation. The whole-house rule of the shutoff
policy is therefore dead code in every reachable state.
-/

namespace Xv6.Lighting

open Machine

/-- The operation is a `set_room_occupied` that passes the range check for room `i`. -/
def Op.Occupies (i : Fin numRooms) (op : Op) : Prop :=
  ∃ roomid, op = .setRoomOccupied roomid ∧ roomIndex? roomid = some i

/-- `tick` was the clock when room `i` was last occupied successfully. -/
def LastOccupied (k : Kernel) (i : Fin numRooms) (ops : List Op) (tick : UInt32) : Prop :=
  ∃ before op after, ops = before ++ op :: after ∧ op.Occupies i ∧
    (∀ later ∈ after, ¬ later.Occupies i) ∧ tick = (run Op.apply k.lightingInit before).ticks

variable {i : Fin numRooms} {m : Meter} {op : Op}

theorem LastOccupied.concat {k : Kernel} {ops : List Op} {tick : UInt32}
    (last : LastOccupied k i ops tick) (other : ¬ op.Occupies i) :
    LastOccupied k i (ops ++ [op]) tick := by
  obtain ⟨before, occupation, after, rfl, occupies, quiet, dated⟩ := last
  refine ⟨before, occupation, after ++ [op], by simp, occupies, ?_, dated⟩
  intro later member
  rcases List.mem_append.mp member with earlier | newest
  · exact quiet later earlier
  · obtain rfl := List.mem_singleton.mp newest
    exact other

/-- Only an occupation lights a lamp; a lamp that was lit before keeps its date. -/
theorem Meter.lit_of_step {now since : UInt32}
    (lit : (m.step i now op).lamp = .lit since) :
    (op.Occupies i ∧ since = now) ∨ (¬ op.Occupies i ∧ m.lamp = .lit since) := by
  cases op with
  | tick => exact .inr ⟨by simp [Op.Occupies], lit⟩
  | lightingInit => cases lit
  | lightingTick | autoShutoff => exact .inr ⟨by simp [Op.Occupies], (Meter.lit_expire_iff.mp lit).1⟩
  | updateUsage => exact .inr ⟨by simp [Op.Occupies], m.charge_lamp ▸ lit⟩
  | setRoomOccupied roomid =>
    simp only [Meter.step] at lit
    split at lit
    · next target =>
      cases lit
      exact .inl ⟨⟨roomid, rfl, target⟩, rfl⟩
    · next other =>
      refine .inr ⟨?_, lit⟩
      rintro ⟨_, same, target⟩
      cases same
      exact other target
  | setRoomEmpty roomid =>
    simp only [Meter.step] at lit
    split at lit
    · cases lit
    · exact .inr ⟨by simp [Op.Occupies], lit⟩

/-- Every reachable state shows meters whose lit lamps are dated by their last occupation. -/
theorem reachable_dated (k : Kernel) (ops : List Op) :
    ∃ house, (run Op.apply k.lightingInit ops).Shows house ∧
      ∀ i since, (house i).lamp = .lit since → LastOccupied k i ops since := by
  refine run_history Op.apply (fun past state => ∃ house, state.Shows house ∧
    ∀ i since, (house i).lamp = .lit since → LastOccupied k i past since) ?_ ?_ ops
  · exact ⟨_, k.lightingInit_shows, fun i since lit => by cases lit⟩
  · rintro past op ⟨house, agree, dated⟩
    refine ⟨_, op.apply_shows agree, fun i since lit => ?_⟩
    rcases Meter.lit_of_step lit with ⟨occupies, rfl⟩ | ⟨other, burning⟩
    · exact ⟨past, op, [], rfl, occupies, by simp, rfl⟩
    · exact (dated i since burning).concat other

/-- A room's fields agree with each other and with the operations so far. -/
structure Room.Consistent (r : Room) (lastOccupied : UInt32 → Prop) : Prop where
  light : r.lightOn = lightOff ∨ r.lightOn = Lighting.lightOn
  occupancy : r.occupied = roomEmpty ∨ r.occupied = roomOccupied
  dark : r.lightOn = lightOff → r.lightOnSince = 0
  lit : r.lightOn = Lighting.lightOn → r.occupied = roomOccupied ∧ lastOccupied r.lightOnSince

theorem Room.Shows.consistent {r : Room} (agree : r.Shows m)
    {lastOccupied : UInt32 → Prop} (dated : ∀ since, m.lamp = .lit since → lastOccupied since) :
    r.Consistent lastOccupied := by
  rw [agree]
  rcases m with ⟨lamp, usage⟩
  cases lamp with
  | dark occupied =>
    cases occupied with
    | false => exact ⟨.inl rfl, .inl rfl, fun _ => rfl, fun lit => by cases lit⟩
    | true => exact ⟨.inl rfl, .inr rfl, fun _ => rfl, fun lit => by cases lit⟩
  | lit since =>
    have bright : Lighting.lightOn ≠ lightOff := by decide
    exact ⟨.inr rfl, .inr rfl, fun off => absurd off bright, fun _ => ⟨rfl, dated since rfl⟩⟩

/-- In every reachable state all rooms are consistent, an empty house is dark, and the whole-house
rule changes neither a room nor the count that rule 1 has left. -/
theorem reachable_rooms_consistent (k : Kernel) (ops : List Op) :
    (∀ i : Fin numRooms, ((run Op.apply k.lightingInit ops).rooms.get i).Consistent
      (LastOccupied k i ops)) ∧
    (allEmpty (run Op.apply k.lightingInit ops).rooms = true →
      (∀ i : Fin numRooms, ((run Op.apply k.lightingInit ops).rooms.get i).lightOn ≠ lightOn) ∧
      ∀ (now : UInt32) (timeoutTicks : Int32) (rooms : Rooms) (count : ℕ),
        maxOnTimeRule now (shutoffLimit timeoutTicks) (run Op.apply k.lightingInit ops).rooms 0 =
          (rooms, count) → emptyHouseRule rooms count = (rooms, count)) := by
  obtain ⟨house, agree, dated⟩ := reachable_dated k ops
  refine ⟨fun i => (agree.rooms i).consistent (dated i), fun empty => ⟨?_, ?_⟩⟩
  · exact agree.attended.dark empty
  · intro now timeoutTicks rooms count swept
    have ruleOne := shutoffSection_of_attended now (shutoffLimit timeoutTicks) agree.attended
    simpa only [shutoffSection, swept, empty, ↓reduceIte] using ruleOne

end Xv6.Lighting
