import Xv6.Model.Lighting.Rooms

/-! # What one call of the lighting module does

Each loop of the module is a pointwise map of the rooms beside a count. The only coupling between
rooms is the emptiness flag of the shutoff policy, and it has an effect only when a light burns in
an empty room. `Rooms.Attended` excludes that, and under it the whole critical section acts on
each room alone (`shutoffSection_of_attended`).
-/

namespace Xv6.Lighting

/-- Rule 1 restricted to one room. -/
def Room.maxOnTime (now limit : UInt32) (room : Room) : Room :=
  if room.expired now limit then room.extinguish else room

/-- Rule 2 restricted to one room. -/
def Room.emptyHouse (room : Room) : Room :=
  if room.Lit then room.extinguish else room

theorem roomIndex?_eq_some_iff {roomid : Int32} {i : Fin numRooms} :
    roomIndex? roomid = some i ↔ roomid.toInt = i := by
  have zero : (0 : Int32).toInt = 0 := rfl
  have five : (Int32.ofNat numRooms).toInt = 5 := rfl
  have below : i.val < 5 := i.isLt
  unfold roomIndex?
  split
  · next outside =>
    simp only [ge_iff_le, Int32.lt_iff_toInt_lt, Int32.le_iff_toInt_le, zero, five] at outside
    simp only [reduceCtorEq, false_iff]
    omega
  · next inside =>
    simp only [ge_iff_le, Int32.lt_iff_toInt_lt, Int32.le_iff_toInt_le, zero, five, not_or] at inside
    simp only [Option.some.injEq, Fin.ext_iff, Fin.val_ofNat, ← Int32.toNat_toInt, numRooms]
    omega

/-- The limit as a natural number: a positive argument, or the default threshold. -/
theorem shutoffLimit_toNat (timeout : Int32) :
    (shutoffLimit timeout).toNat = if 0 < timeout.toInt then timeout.toInt.toNat else 100 := by
  have zero : (0 : Int32).toInt = 0 := rfl
  unfold shutoffLimit
  by_cases positive : timeout > 0
  · have above : 0 < timeout.toInt := by simpa only [Int32.lt_iff_toInt_lt, zero] using positive
    rw [if_pos positive, if_pos above, Int32.toNat_toUInt32_of_le (Int32.le_of_lt positive)]
    rfl
  · have below : ¬ 0 < timeout.toInt := by simpa only [gt_iff_lt, Int32.lt_iff_toInt_lt, zero] using positive
    rw [if_neg positive, if_neg below]
    rfl

theorem shutoffLimit_lightingTick : (shutoffLimit lightingTickTimeout).toNat = 300 := rfl

theorem allEmpty_iff (rooms : Rooms) :
    allEmpty rooms = true ↔ ∀ room ∈ rooms.toList, room.occupied = roomEmpty := by
  have fold : ∀ (items : List Room) (flag : Bool),
      items.foldl (fun empty room => if room.occupied ≠ roomEmpty then false else empty) flag = true ↔
        flag = true ∧ ∀ room ∈ items, room.occupied = roomEmpty := by
    intro items
    induction items with
    | nil => simp
    | cons room rest ih =>
      intro flag
      rw [List.foldl_cons, ih]
      by_cases empty : room.occupied = roomEmpty <;> simp [empty]
  have listed : allEmpty rooms =
      rooms.toList.foldl (fun empty room => if room.occupied ≠ roomEmpty then false else empty) true := by
    simp only [allEmpty, Vector.foldl_toList]
  rw [listed, fold]
  simp

theorem allEmpty_iff_getElem (rooms : Rooms) :
    allEmpty rooms = true ↔ ∀ i : Fin numRooms, (rooms.get i).occupied = roomEmpty := by
  rw [allEmpty_iff]
  constructor
  · intro empty i
    exact empty _ (by simp)
  · intro empty room member
    obtain ⟨i, bound, rfl⟩ := List.getElem_of_mem member
    simpa using empty ⟨i, by simpa using bound⟩

/-- A loop that turns off the selected lights maps every room and counts the selected ones. -/
theorem sweep_extinguish (selects : Room → Prop) [DecidablePred selects] (rooms : Rooms) (count : ℕ) :
    rooms.sweep (fun count room => if selects room then (room.extinguish, count + 1) else (room, count)) count =
      (rooms.map (fun room => if selects room then room.extinguish else room),
        count + rooms.toList.countP fun room => decide (selects room)) := by
  rw [Vector.sweep_eq _ (fun room => if selects room then room.extinguish else room)]
  · rw [← List.foldl_ite_succ]
    congr 2
    funext count room
    split <;> rfl
  · intro count room
    split <;> rfl

theorem maxOnTimeRule_eq (now limit : UInt32) (rooms : Rooms) (count : ℕ) :
    maxOnTimeRule now limit rooms count = (rooms.map (Room.maxOnTime now limit),
      count + rooms.toList.countP fun room => decide (room.expired now limit)) :=
  sweep_extinguish (Room.expired now limit) rooms count

theorem emptyHouseRule_eq (rooms : Rooms) (count : ℕ) :
    emptyHouseRule rooms count =
      (rooms.map Room.emptyHouse, count + rooms.toList.countP fun room => decide room.Lit) :=
  sweep_extinguish Room.Lit rooms count

/-- Every lit room is occupied. -/
def Rooms.Attended (rooms : Rooms) : Prop :=
  ∀ i : Fin numRooms, (rooms.get i).Lit → (rooms.get i).occupied ≠ roomEmpty

@[simp] theorem Room.maxOnTime_name (now limit : UInt32) (room : Room) :
    (room.maxOnTime now limit).name = room.name := by
  unfold Room.maxOnTime
  split <;> rfl

@[simp] theorem Room.emptyHouse_name (room : Room) : room.emptyHouse.name = room.name := by
  unfold Room.emptyHouse
  split <;> rfl

@[simp] theorem Room.countUsage_name (room : Room) : room.countUsage.name = room.name := by
  unfold Room.countUsage
  split <;> rfl

@[simp] theorem Room.not_lit_extinguish (room : Room) : ¬ room.extinguish.Lit := by
  simp [Room.Lit, Room.extinguish, lightOff, Lighting.lightOn]

theorem Room.lit_maxOnTime_iff (now limit : UInt32) (room : Room) :
    (room.maxOnTime now limit).Lit ↔ room.Lit ∧ ¬ room.expired now limit := by
  unfold Room.maxOnTime
  split <;> simp_all

theorem maxOnTimeRule_off_iff (now limit : UInt32) (rooms : Rooms) (count : ℕ) (i : Fin numRooms) :
    ((rooms.get i).Lit ∧ ¬ ((maxOnTimeRule now limit rooms count).1.get i).Lit) ↔ (rooms.get i).expired now limit := by
  simp only [maxOnTimeRule_eq, Vector.get_eq_getElem_val, Vector.getElem_map, Room.lit_maxOnTime_iff]
  constructor
  · rintro ⟨lit, off⟩
    by_contra young
    exact off ⟨lit, young⟩
  · intro old
    exact ⟨old.1, fun left => left.2 old⟩

theorem Rooms.Attended.dark {rooms : Rooms} (attended : Rooms.Attended rooms)
    (empty : allEmpty rooms = true) (i : Fin numRooms) : ¬ (rooms.get i).Lit :=
  fun lit => attended i lit ((allEmpty_iff_getElem rooms).mp empty i)

theorem sweep_extinguish_of_none {selects : Room → Prop} [DecidablePred selects] {rooms : Rooms}
    (none : ∀ i : Fin numRooms, ¬ selects (rooms.get i)) (count : ℕ) :
    rooms.sweep (fun count room => if selects room then (room.extinguish, count + 1) else (room, count)) count =
      (rooms, count) := by
  rw [sweep_extinguish]
  refine Prod.ext ?_ ?_
  · apply Vector.ext
    intro i bound
    have unselected : ¬ selects rooms[i] := none ⟨i, bound⟩
    simp only [Vector.getElem_map, if_neg unselected]
  · have zero : rooms.toList.countP (fun room => decide (selects room)) = 0 := by
      rw [List.countP_eq_zero]
      intro room member
      obtain ⟨i, bound, rfl⟩ := List.getElem_of_mem member
      simpa using none ⟨i, by simpa using bound⟩
    simp [zero]

theorem emptyHouseRule_of_dark {rooms : Rooms} (dark : ∀ i : Fin numRooms, ¬ (rooms.get i).Lit) (count : ℕ) :
    emptyHouseRule rooms count = (rooms, count) := sweep_extinguish_of_none dark count

theorem maxOnTimeRule_of_young {now limit : UInt32} {rooms : Rooms}
    (young : ∀ i : Fin numRooms, ¬ (rooms.get i).expired now limit) (count : ℕ) :
    maxOnTimeRule now limit rooms count = (rooms, count) := sweep_extinguish_of_none young count

/-- The critical section on any rooms: rule 1 in each of them, then rule 2 if all were empty. -/
theorem shutoffSection_getElem (now limit : UInt32) (rooms : Rooms) (i : Fin numRooms) :
    (shutoffSection now limit rooms).1.get i =
      if allEmpty rooms then ((rooms.get i).maxOnTime now limit).emptyHouse
      else (rooms.get i).maxOnTime now limit := by
  simp only [shutoffSection, maxOnTimeRule_eq]
  split
  · simp only [emptyHouseRule_eq, Vector.get_eq_getElem_val, Vector.getElem_map]
  · simp only [Vector.get_eq_getElem_val, Vector.getElem_map]

/-- In an attended house the emptiness flag has no effect: the critical section is rule 1 alone. -/
theorem shutoffSection_of_attended (now limit : UInt32) {rooms : Rooms} (attended : Rooms.Attended rooms) :
    shutoffSection now limit rooms = maxOnTimeRule now limit rooms 0 := by
  simp only [shutoffSection]
  split
  · next empty =>
    rw [maxOnTimeRule_eq]
    apply emptyHouseRule_of_dark
    intro i lit
    simp only [Vector.get_eq_getElem_val, Vector.getElem_map] at lit
    exact attended.dark empty i ((Room.lit_maxOnTime_iff now limit _).mp lit).1
  · rfl

end Xv6.Lighting
