import Xv6.Soundness.Lighting.Refinement

/-! # Reading the lights off the history

A light is on exactly when the history says so: some occupation of the room was not followed by
another occupation, a vacation or an initialization, and no clock interrupt or shutoff call since
then found it too old. The one exception is an occupation at a tick value of zero, whose light never
grows old. Ages are counted in clock interrupts; the 32-bit difference the kernel computes agrees
with them because a dated light is turned off long before the clock has wrapped.
-/

namespace Xv6.Lighting

open Machine UInt32 Event

/-- A successful `set_room_occupied` for room `i`. -/
def Event.Occupies (i : Fin numRooms) (event : Event) : Prop :=
  ∃ roomid, event = .call (.setOccupied roomid) ∧ roomIndex? roomid = some i

/-- A successful `set_room_empty` for room `i`. -/
def Event.Vacates (i : Fin numRooms) (event : Event) : Prop :=
  ∃ roomid, event = .call (.setEmpty roomid) ∧ roomIndex? roomid = some i

/-- The number of clock interrupts, which is the number of ticks. -/
def interrupts (events : List Event) : ℕ := events.count .clockintr

/-- `since` are the events after the latest occupation of room `i`, which followed `before`; none of
them vacates the room or initializes the module. -/
structure Hold (i : Fin numRooms) (events before since : List Event) : Prop where
  split : ∃ occupation, events = before ++ occupation :: since ∧ occupation.Occupies i
  quiet : ∀ event ∈ since,
    ¬ event.Occupies i ∧ ¬ event.Vacates i ∧ event ≠ .call .lightingInit

/-- The event applies the on-time rule to a light that is `age` ticks old and finds it too old. The
tick of a clock interrupt counts for the rule that the interrupt applies. -/
def Event.Expires (age : ℕ) : Event → Prop
  | .clockintr => 300 ≤ age + 1
  | .call (.autoShutoff timeoutTicks) =>
      (if 0 < timeoutTicks.toInt then timeoutTicks.toInt.toNat else 100) ≤ age
  | _ => False

/-- Some event since the occupation found the light too old. -/
def TimedOut (since : List Event) : Prop :=
  ∃ first event rest, since = first ++ event :: rest ∧ event.Expires (interrupts first)

@[simp] theorem interrupts_nil : interrupts [] = 0 := rfl

@[simp] theorem interrupts_append (first second : List Event) :
    interrupts (first ++ second) = interrupts first + interrupts second := List.count_append

theorem interrupts_cons (event : Event) (rest : List Event) :
    interrupts (event :: rest) = interrupts rest + if event = .clockintr then 1 else 0 := by
  simp [interrupts, List.count_cons]

variable {i : Fin numRooms} {event : Event} {k : Kernel}

theorem Event.Occupies.ne_clockintr (occupies : event.Occupies i) :
    event ≠ .clockintr := by
  obtain ⟨_, rfl, _⟩ := occupies
  simp

/-- The reaction of the meter in room `i` to one event, at tick `now` before the event. -/
def Meter.react (i : Fin numRooms) (now : UInt32) (m : Meter) : Event → Meter
  | .clockintr => m.charge.expire (now + 1) (shutoffLimit lightingTickTimeout)
  | .call .lightingInit => fresh
  | .call (.roomStatus _ _) => m
  | .call (.setOccupied roomid) => if roomIndex? roomid = some i then m.occupy now else m
  | .call (.setEmpty roomid) => if roomIndex? roomid = some i then m.vacate else m
  | .call (.getUsage _) => m
  | .call (.autoShutoff timeoutTicks) => m.expire now (shutoffLimit timeoutTicks)

/-- One event of the kernel is one reaction of every meter. -/
theorem Kernel.Shows.step {house : Fin numRooms → Meter} (agree : k.Shows house)
    (event : Event) : (k.step event).Shows (fun i => (house i).react i k.ticks event) := by
  rw [k.step_eq_ops agree.ready]
  cases event with
  | clockintr =>
    have ticked := Op.apply_shows agree .tick
    have charged := Op.apply_shows ticked .updateUsage
    have swept := Op.apply_shows charged .lightingTick
    simp only [Op.apply_ticks, reduceCtorEq, ↓reduceIte] at swept
    exact swept
  | call syscall =>
    cases syscall with
    | lightingInit => exact Op.apply_shows agree .lightingInit
    | roomStatus | getUsage => exact agree
    | setOccupied roomid => exact Op.apply_shows agree (.setRoomOccupied roomid)
    | setEmpty roomid => exact Op.apply_shows agree (.setRoomEmpty roomid)
    | autoShutoff timeoutTicks => exact Op.apply_shows agree (.autoShutoff timeoutTicks)

theorem Kernel.step_ticks (ready : k.lightingInitialized = 1) (event : Event) :
    (k.step event).ticks = k.ticks + ofNat (interrupts [event]) := by
  rw [k.step_eq_ops ready]
  cases event with
  | clockintr => simp [ops, Op.apply_ticks, interrupts]
  | call syscall => cases syscall <;> simp [ops, Op.apply_ticks, interrupts]

/-- From initialization on, all states show meters and the clock counts the interrupts. -/
theorem reachable_clock (k : Kernel) (events : List Event) :
    (∃ house, (run Kernel.step k.lightingInit events).Shows house) ∧
      (run Kernel.step k.lightingInit events).ticks = k.ticks + UInt32.ofNat (interrupts events) := by
  refine run_history Kernel.step (fun past state => (∃ house, state.Shows house) ∧
    state.ticks = k.ticks + UInt32.ofNat (interrupts past)) ?_ ?_ events
  · exact ⟨⟨_, k.lightingInit_shows⟩, by simp⟩
  · rintro past event ⟨⟨house, agree⟩, clock⟩
    refine ⟨⟨_, agree.step event⟩, ?_⟩
    rw [Kernel.step_ticks agree.ready, clock, interrupts_append, UInt32.ofNat_add, UInt32.add_assoc]

namespace Hold

variable {i : Fin numRooms} {events before since : List Event} {event : Event}

/-- An occupation starts a new hold and ends every other. -/
theorem concat_of_occupies (occupies : event.Occupies i) :
    Hold i (events ++ [event]) before since ↔ before = events ∧ since = [] := by
  constructor
  · rintro ⟨⟨occupation, split, _⟩, quiet⟩
    rcases concat_eq_append_cons.mp split with ⟨rfl, rfl, _⟩ | ⟨prior, rfl, _⟩
    · exact ⟨rfl, rfl⟩
    · exact absurd occupies (quiet event (by simp)).1
  · rintro ⟨rfl, rfl⟩
    exact ⟨⟨event, rfl, occupies⟩, by simp⟩

theorem concat_of_not_occupies (other : ¬ event.Occupies i) :
    Hold i (events ++ [event]) before since ↔ ∃ prior, since = prior ++ [event] ∧
      Hold i events before prior ∧ ¬ event.Vacates i ∧ event ≠ .call .lightingInit := by
  constructor
  · rintro ⟨⟨occupation, split, occupies⟩, quiet⟩
    rcases concat_eq_append_cons.mp split with ⟨_, _, rfl⟩ | ⟨prior, rfl, rfl⟩
    · exact absurd occupies other
    · have last := quiet event (by simp)
      refine ⟨prior, rfl, ⟨⟨occupation, rfl, occupies⟩, ?_⟩, last.2⟩
      intro earlier member
      exact quiet earlier (by simp [member])
  · rintro ⟨prior, rfl, ⟨⟨occupation, rfl, occupies⟩, quiet⟩, stays⟩
    refine ⟨⟨occupation, by simp, occupies⟩, ?_⟩
    intro item member
    rcases List.mem_append.mp member with earlier | newest
    · exact quiet item earlier
    · obtain rfl := List.mem_singleton.mp newest
      exact ⟨other, stays⟩

theorem interrupts_eq (hold : Hold i events before since) :
    interrupts events = interrupts before + interrupts since := by
  obtain ⟨⟨occupation, rfl, occupies⟩, _⟩ := hold
  rw [interrupts_append, interrupts_cons, if_neg occupies.ne_clockintr, Nat.add_zero]

end Hold

theorem TimedOut.concat_iff {prior : List Event} :
    TimedOut (prior ++ [event]) ↔ TimedOut prior ∨ event.Expires (interrupts prior) := by
  constructor
  · rintro ⟨first, expiring, rest, split, expires⟩
    rcases concat_eq_append_cons.mp split with ⟨_, rfl, rfl⟩ | ⟨others, _, rfl⟩
    · exact .inr expires
    · exact .inl ⟨first, expiring, others, rfl, expires⟩
  · rintro (⟨first, expiring, rest, rfl, expires⟩ | expires)
    · exact ⟨first, expiring, rest ++ [event], by simp, expires⟩
    · exact ⟨prior, event, [], rfl, expires⟩

/-- The three hundredth interrupt after an occupation times it out. -/
theorem interrupts_lt_of_not_timedOut {since : List Event} (fresh : ¬ TimedOut since) :
    interrupts since < 300 := by
  induction since using List.reverseRecOn with
  | nil => simp
  | append_singleton prior event ih =>
    rw [TimedOut.concat_iff, not_or] at fresh
    have bound := ih fresh.1
    by_cases clock : event = .clockintr
    · subst clock
      have young : ¬ 300 ≤ interrupts prior + 1 := fresh.2
      simp only [interrupts_append, interrupts_cons, interrupts_nil, ↓reduceIte]
      omega
    · simpa [interrupts_cons, clock] using bound

/-- The test of rule 1 on the machine's clock, for an event at tick `now`. -/
def Event.expiresAt (now since : UInt32) : Event → Prop
  | .clockintr => shutoffLimit lightingTickTimeout ≤ now + 1 - since
  | .call (.autoShutoff timeoutTicks) => shutoffLimit timeoutTicks ≤ now - since
  | _ => False

/-- For a light younger than the timer's limit the wrapping difference is the age. -/
theorem Event.expiresAt_iff {age : ℕ} (young : age < 300) (since : UInt32) (event : Event) :
    event.expiresAt (since + ofNat age) since ↔ event.Expires age := by
  have small : (ofNat age).toNat = age := by rw [toNat_ofNat', Nat.mod_eq_of_lt (by omega)]
  have next : (ofNat (age + 1)).toNat = age + 1 := by
    rw [toNat_ofNat', Nat.mod_eq_of_lt (by omega)]
  cases event with
  | clockintr =>
    have difference : since + ofNat age + 1 - since = ofNat (age + 1) := by
      rw [ofNat_add]
      grind
    simp only [expiresAt, Expires, difference, le_iff_toNat_le, next, shutoffLimit_lightingTick]
  | call syscall =>
    cases syscall with
    | autoShutoff timeoutTicks =>
      have difference : since + ofNat age - since = ofNat age := by grind
      simp only [expiresAt, Expires, difference, le_iff_toNat_le, small, shutoffLimit_toNat]
    | lightingInit | roomStatus | setOccupied | setEmpty | getUsage => exact Iff.rfl

/-- A reaction to anything but an occupation keeps a lamp lit unless it ends the hold or finds the
lamp too old. -/
theorem Meter.lit_react_iff {m : Meter} {now since : UInt32} (other : ¬ event.Occupies i) :
    (m.react i now event).lamp = .lit since ↔ m.lamp = .lit since ∧ ¬ event.Vacates i ∧
      event ≠ .call .lightingInit ∧ (since = 0 ∨ ¬ event.expiresAt now since) := by
  cases event with
  | clockintr => simp [Meter.react, Meter.lit_expire_iff, Vacates, expiresAt]
  | call syscall =>
    cases syscall with
    | lightingInit => simp [Meter.react, Meter.fresh]
    | roomStatus | getUsage => simp [Meter.react, Vacates, expiresAt]
    | autoShutoff timeoutTicks => simp [Meter.react, Meter.lit_expire_iff, Vacates, expiresAt]
    | setOccupied roomid =>
      have elsewhere : roomIndex? roomid ≠ some i := fun target => other ⟨roomid, rfl, target⟩
      simp [Meter.react, elsewhere, Vacates, expiresAt]
    | setEmpty roomid =>
      by_cases target : roomIndex? roomid = some i
      · simp [Meter.react, target, Meter.vacate, Vacates]
      · simp [Meter.react, target, Vacates, expiresAt]

/-- The lamp of room `i` is lit since a tick exactly when the history holds it since that tick, and
has not timed it out unless the tick is zero. -/
def LitByHistory (start : UInt32) (i : Fin numRooms) (events : List Event) (tick : UInt32) : Prop :=
  ∃ before since, Hold i events before since ∧ tick = start + UInt32.ofNat (interrupts before) ∧
    (tick = 0 ∨ ¬ TimedOut since)

/-- One event extends the history as it extends the lamp. -/
theorem litByHistory_concat {start : UInt32} {events : List Event} {tick : UInt32} (other : ¬ event.Occupies i) :
    LitByHistory start i (events ++ [event]) tick ↔ LitByHistory start i events tick ∧
      ¬ event.Vacates i ∧ event ≠ .call .lightingInit ∧
      (tick = 0 ∨ ¬ event.expiresAt (start + UInt32.ofNat (interrupts events)) tick) := by
  have clock {before since : List Event} (hold : Hold i events before since)
      (dated : tick = start + UInt32.ofNat (interrupts before)) :
      start + UInt32.ofNat (interrupts events) = tick + UInt32.ofNat (interrupts since) := by
    rw [hold.interrupts_eq, UInt32.ofNat_add, dated, UInt32.add_assoc]
  constructor
  · rintro ⟨before, since, hold, dated, young⟩
    obtain ⟨prior, rfl, earlier, stays, running⟩ := (Hold.concat_of_not_occupies other).mp hold
    rw [TimedOut.concat_iff, not_or] at young
    refine ⟨⟨before, prior, earlier, dated, young.imp_right And.left⟩, stays, running, ?_⟩
    rcases young with zero | ⟨fresh, unexpired⟩
    · exact .inl zero
    · rw [clock earlier dated, expiresAt_iff (interrupts_lt_of_not_timedOut fresh)]
      exact .inr unexpired
  · rintro ⟨⟨before, prior, earlier, dated, young⟩, stays, running, unexpired⟩
    refine ⟨before, prior ++ [event], ?_, dated, ?_⟩
    · exact (Hold.concat_of_not_occupies other).mpr ⟨prior, rfl, earlier, stays, running⟩
    · rw [TimedOut.concat_iff, not_or]
      rcases young with zero | fresh
      · exact .inl zero
      · rw [clock earlier dated, expiresAt_iff (interrupts_lt_of_not_timedOut fresh)] at unexpired
        exact unexpired.imp_right fun unexpired => ⟨fresh, unexpired⟩

/-- Every reachable light can be read off the history, whatever the clock was at initialization. -/
theorem lit_iff_litByHistory (k : Kernel) (events : List Event) (i : Fin numRooms) (tick : UInt32) :
    ((run Kernel.step k.lightingInit events).rooms.get i).Lit ∧
        ((run Kernel.step k.lightingInit events).rooms.get i).lightOnSince = tick ↔
      LitByHistory k.ticks i events tick := by
  have lamps : ∃ house, (run Kernel.step k.lightingInit events).Shows house ∧
      ∀ tick, (house i).lamp = .lit tick ↔ LitByHistory k.ticks i events tick := by
    refine run_history Kernel.step (fun past state => ∃ house, state.Shows house ∧
      ∀ tick, (house i).lamp = .lit tick ↔ LitByHistory k.ticks i past tick) ?_ ?_ events
    · refine ⟨_, k.lightingInit_shows, fun tick => ?_⟩
      simp only [Meter.fresh, reduceCtorEq, false_iff]
      rintro ⟨before, since, ⟨⟨occupation, empty, _⟩, _⟩, _⟩
      simp at empty
    · rintro past event ⟨house, agree, lamps⟩
      refine ⟨_, agree.step event, fun tick => ?_⟩
      have clock := (reachable_clock k past).2
      by_cases occupies : event.Occupies i
      · obtain ⟨roomid, rfl, target⟩ := id occupies
        simp only [Meter.react, target, ↓reduceIte, Meter.occupy, Lamp.lit.injEq, LitByHistory,
          Hold.concat_of_occupies occupies]
        constructor
        · rintro rfl
          exact ⟨past, [], ⟨rfl, rfl⟩, clock, .inr (by simp [TimedOut])⟩
        · rintro ⟨before, since, ⟨rfl, rfl⟩, dated, _⟩
          rw [clock, dated]
      · rw [Meter.lit_react_iff occupies, litByHistory_concat occupies, lamps, clock]
  obtain ⟨house, agree, history⟩ := lamps
  rw [← history]
  constructor
  · rintro ⟨lit, dated⟩
    obtain ⟨since, burning⟩ := (agree.rooms i).lit_iff.mp lit
    rw [burning, ← dated, ((agree.rooms i).of_lit burning).2]
  · intro burning
    exact ⟨(agree.rooms i).lit_iff.mpr ⟨tick, burning⟩, ((agree.rooms i).of_lit burning).2⟩

end Xv6.Lighting
