import Xv6.Proofs.Lighting.Policy

/-! # The report of the shutoff policy

`auto_shutoff` reports the lights that it turned off, each once, although both of its loops pass all rooms: the
second loop finds only lights that the first one has left on. What it leaves is stable, so that a second call at the
same tick finds nothing to do. All this is about any state of the rooms, reachable or not, that the call works on:
behind the guard that initializes the module.
-/

namespace Xv6.Lighting

variable {now limit : UInt32} {rooms : Rooms} {room : Room}

/-- The rooms whose light is on in the one state and off in the other. -/
def wentDark (before after : Rooms) : Finset (Fin numRooms) :=
  Finset.univ.filter fun i => (before.get i).Lit ∧ (after.get i).lightOn = lightOff

/-- A rule leaves a room, or it turns its light off. -/
def Room.Dimmed (room after : Room) : Prop := after = room ∨ room.Lit ∧ after = room.extinguish

theorem Room.dimmed_ite {selects : Prop} [Decidable selects] (lit : selects → room.Lit) :
    room.Dimmed (if selects then room.extinguish else room) := by
  split
  · next selected => exact .inr ⟨lit selected, rfl⟩
  · exact .inl rfl

theorem Room.Dimmed.trans {middle after : Room} (first : room.Dimmed middle) (second : middle.Dimmed after) :
    room.Dimmed after := by
  rcases first with rfl | ⟨lit, rfl⟩
  · exact second
  · rcases second with rfl | ⟨still, -⟩
    · exact .inr ⟨lit, rfl⟩
    · exact absurd still room.not_lit_extinguish

theorem Room.Dimmed.off_iff {after : Room} (dimmed : room.Dimmed after) (lit : room.Lit) :
    after.lightOn = lightOff ↔ ¬ after.Lit := by
  rcases dimmed with rfl | ⟨-, rfl⟩
  · have other : after.lightOn = Lighting.lightOn := lit
    exact ⟨fun off => by rw [Room.Lit, off]; decide, fun unlit => absurd other unlit⟩
  · exact ⟨fun _ => room.not_lit_extinguish, fun _ => rfl⟩

theorem Room.dimmed_maxOnTime (now limit : UInt32) (room : Room) : room.Dimmed (room.maxOnTime now limit) :=
  dimmed_ite And.left

theorem Room.dimmed_emptyHouse (room : Room) : room.Dimmed room.emptyHouse := dimmed_ite id

theorem Room.not_lit_emptyHouse (room : Room) : ¬ room.emptyHouse.Lit := by
  unfold Room.emptyHouse
  split
  · exact room.not_lit_extinguish
  · assumption

theorem Room.not_expired_maxOnTime (now limit : UInt32) (room : Room) :
    ¬ (room.maxOnTime now limit).expired now limit := by
  unfold Room.maxOnTime
  split
  · exact fun old => room.not_lit_extinguish old.1
  · assumption

theorem dimmed_shutoffSection (now limit : UInt32) (rooms : Rooms) (i : Fin numRooms) :
    (rooms.get i).Dimmed ((shutoffSection now limit rooms).1.get i) := by
  rw [shutoffSection_getElem]
  split
  · exact (Room.dimmed_maxOnTime ..).trans (Room.dimmed_emptyHouse _)
  · exact Room.dimmed_maxOnTime ..

/-- Which lights are left on: those that are young, in a house that is not empty. -/
theorem lit_shutoffSection_iff (now limit : UInt32) (rooms : Rooms) (i : Fin numRooms) :
    ((shutoffSection now limit rooms).1.get i).Lit ↔
      allEmpty rooms = false ∧ (rooms.get i).Lit ∧ ¬ (rooms.get i).expired now limit := by
  rw [shutoffSection_getElem]
  cases allEmpty rooms with
  | true => simp only [if_true, Room.not_lit_emptyHouse, Bool.true_eq_false, false_and]
  | false => simp only [Bool.false_eq_true, if_false, true_and, Room.lit_maxOnTime_iff]

theorem allEmpty_shutoffSection (now limit : UInt32) (rooms : Rooms) :
    allEmpty (shutoffSection now limit rooms).1 = allEmpty rooms := by
  rw [Bool.eq_iff_iff, allEmpty_iff_getElem, allEmpty_iff_getElem]
  refine forall_congr' fun i => ?_
  rcases dimmed_shutoffSection now limit rooms i with same | ⟨-, same⟩ <;> rw [same]
  rfl

theorem mem_wentDark {i : Fin numRooms} : i ∈ wentDark rooms (shutoffSection now limit rooms).1 ↔
    (rooms.get i).Lit ∧ (allEmpty rooms = true ∨ (rooms.get i).expired now limit) := by
  rw [wentDark, Finset.mem_filter]
  simp only [Finset.mem_univ, true_and, and_congr_right_iff]
  intro lit
  rw [(dimmed_shutoffSection now limit rooms i).off_iff lit, lit_shutoffSection_iff]
  cases allEmpty rooms <;> simp only [lit, true_and, not_not, Bool.true_eq_false, Bool.false_eq_true,
    false_and, false_or, true_or, not_false_eq_true]

/-- Rule 1 counts the expired lights, and rule 2 the others. -/
theorem shutoffSection_count (now limit : UInt32) (rooms : Rooms) :
    (shutoffSection now limit rooms).2 = (wentDark rooms (shutoffSection now limit rooms).1).card := by
  have old : (rooms.toList.countP fun room => decide (room.expired now limit)) =
      (Finset.univ.filter fun i : Fin numRooms => (rooms.get i).expired now limit).card := rooms.countP_toList_eq_card _
  cases empty : allEmpty rooms with
  | false =>
    have count :
        (shutoffSection now limit rooms).2 = rooms.toList.countP fun room => decide (room.expired now limit) := by
      simp [shutoffSection, maxOnTimeRule_eq, empty]
    rw [count, old]
    congr 1
    ext i
    rw [mem_wentDark, Finset.mem_filter, empty]
    simp only [Finset.mem_univ, true_and, Bool.false_eq_true, false_or]
    exact ⟨fun expired => ⟨expired.1, expired⟩, And.right⟩
  | true =>
    have count :
        (shutoffSection now limit rooms).2 = (rooms.toList.countP fun room => decide (room.expired now limit)) +
        (rooms.map (Room.maxOnTime now limit)).toList.countP fun room => decide room.Lit := by
      simp [shutoffSection, maxOnTimeRule_eq, emptyHouseRule_eq, empty]
    rw [count, old, Vector.countP_toList_eq_card, ← Finset.card_union_of_disjoint]
    · congr 1
      ext i
      rw [mem_wentDark, Finset.mem_union, Finset.mem_filter, Finset.mem_filter, empty]
      simp only [Finset.mem_univ, true_and, true_or, and_true, Vector.get_eq_getElem_val, Vector.getElem_map,
        Room.lit_maxOnTime_iff]
      constructor
      · rintro (expired | left)
        · exact expired.1
        · exact left.1
      · intro lit
        by_cases expired : (rooms.get i).expired now limit
        · exact .inl expired
        · exact .inr ⟨lit, expired⟩
    · rw [Finset.disjoint_filter]
      intro i _ expired left
      simp only [Vector.get_eq_getElem_val, Vector.getElem_map, Room.lit_maxOnTime_iff] at left
      exact left.2 expired

/-- The critical section finds nothing to do in what it has left. -/
theorem shutoffSection_settled (now limit : UInt32) (rooms : Rooms) :
    shutoffSection now limit (shutoffSection now limit rooms).1 = ((shutoffSection now limit rooms).1, 0) := by
  have young (i : Fin numRooms) : ¬ ((shutoffSection now limit rooms).1.get i).expired now limit := by
    intro expired
    obtain ⟨busy, -⟩ := (lit_shutoffSection_iff now limit rooms i).mp expired.1
    rw [shutoffSection_getElem, if_neg (by rw [busy]; decide)] at expired
    exact Room.not_expired_maxOnTime now limit _ expired
  have dark (empty : allEmpty rooms = true) (i : Fin numRooms) : ¬ ((shutoffSection now limit rooms).1.get i).Lit := by
    rw [lit_shutoffSection_iff, empty]
    exact fun left => Bool.noConfusion left.1
  generalize kept : allEmpty (shutoffSection now limit rooms).1 = empty
  rw [allEmpty_shutoffSection] at kept
  rw [shutoffSection, maxOnTimeRule_of_young young, allEmpty_shutoffSection, kept]
  cases empty with
  | false => rfl
  | true => exact emptyHouseRule_of_dark (dark kept) 0

theorem Kernel.autoShutoff_eq (k : Kernel) (timeoutTicks : Int32) : k.autoShutoff timeoutTicks =
    ({ k.ensureInit with rooms := (shutoffSection k.ensureInit.ticks (shutoffLimit timeoutTicks)
      k.ensureInit.rooms).1 },
      (shutoffSection k.ensureInit.ticks (shutoffLimit timeoutTicks) k.ensureInit.rooms).2) := rfl

theorem Kernel.ensureInit_of_guarded (k : Kernel) (rooms : Rooms) :
    ({ k.ensureInit with rooms } : Kernel).ensureInit = { k.ensureInit with rooms } := by
  have ready : k.ensureInit.lightingInitialized ≠ 0 := by
    unfold ensureInit
    split
    · exact of_decide_eq_true rfl
    · assumption
  exact if_neg ready

/-- The exact report of `auto_shutoff`, on the rooms `k.ensureInit` that the call works on. -/
theorem Kernel.autoShutoff_report (k : Kernel) (timeoutTicks : Int32) :
    (k.autoShutoff timeoutTicks).2 = (wentDark k.ensureInit.rooms (k.autoShutoff timeoutTicks).1.rooms).card ∧
    (∀ i : Fin numRooms, ((k.autoShutoff timeoutTicks).1.rooms.get i).Lit → (k.ensureInit.rooms.get i).Lit) ∧
    (∀ i : Fin numRooms,
      ((k.autoShutoff timeoutTicks).1.rooms.get i).name = (k.ensureInit.rooms.get i).name ∧
      ((k.autoShutoff timeoutTicks).1.rooms.get i).occupied = (k.ensureInit.rooms.get i).occupied ∧
      ((k.autoShutoff timeoutTicks).1.rooms.get i).usageTicks = (k.ensureInit.rooms.get i).usageTicks) ∧
    (∀ i : Fin numRooms, ((k.autoShutoff timeoutTicks).1.rooms.get i).Lit →
      (((k.autoShutoff timeoutTicks).1.rooms.get i).lightOnSince = 0 ∨
        k.ticks - ((k.autoShutoff timeoutTicks).1.rooms.get i).lightOnSince < shutoffLimit timeoutTicks) ∧
      ∃ j : Fin numRooms, ((k.autoShutoff timeoutTicks).1.rooms.get j).occupied ≠ roomEmpty) ∧
    (k.autoShutoff timeoutTicks).1.autoShutoff timeoutTicks = ((k.autoShutoff timeoutTicks).1, 0) := by
  have clock : k.ensureInit.ticks = k.ticks := by
    unfold ensureInit
    split <;> rfl
  rw [Kernel.autoShutoff_eq, Kernel.autoShutoff_eq, ensureInit_of_guarded]
  dsimp only
  rw [clock]
  generalize shutoffLimit timeoutTicks = limit
  generalize k.ensureInit.rooms = rooms
  have dimmed := dimmed_shutoffSection k.ticks limit rooms
  refine ⟨shutoffSection_count .., fun i left => ((lit_shutoffSection_iff ..).mp left).2.1, fun i => ?_,
    fun i left => ⟨?_, ?_⟩, ?_⟩
  · rcases dimmed i with same | ⟨-, same⟩ <;> rw [same] <;> exact ⟨rfl, rfl, rfl⟩
  · obtain ⟨-, lit, young⟩ := (lit_shutoffSection_iff ..).mp left
    have same : (shutoffSection k.ticks limit rooms).1.get i = rooms.get i := by
      rcases dimmed i with same | ⟨-, same⟩
      · exact same
      · rw [same] at left
        exact absurd left (Room.not_lit_extinguish _)
    rw [same]
    by_contra old
    rw [not_or, UInt32.not_lt] at old
    exact young ⟨lit, UInt32.pos_iff_ne_zero.mpr old.1, old.2⟩
  · obtain ⟨busy, -⟩ := (lit_shutoffSection_iff ..).mp left
    by_contra vacant
    rw [not_exists] at vacant
    rw [← allEmpty_shutoffSection k.ticks limit rooms, (allEmpty_iff_getElem _).mpr fun j =>
      not_not.mp (vacant j)] at busy
    cases busy
  · rw [shutoffSection_settled]

/-- Before the module is initialized the guard turns a light off that is not reported. -/
theorem Kernel.autoShutoff_unreported : ∃ k : Kernel, (k.autoShutoff 0).2 = 0 ∧
    0 ∈ wentDark k.rooms (k.autoShutoff 0).1.rooms := by
  refine ⟨⟨0, 0, Vector.replicate numRooms ⟨Vector.replicate roomNameMax 0, lightOn, roomOccupied, 7, 1⟩⟩, ?_, ?_⟩
  · decide +kernel
  · decide +kernel

end Xv6.Lighting
