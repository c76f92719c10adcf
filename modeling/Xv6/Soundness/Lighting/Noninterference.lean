import Xv6.Soundness.Lighting.Refinement

/-! # Erasing calls from a run

Two statements about a run and the run left after some calls are deleted from it. Rooms do not
interfere: the calls for other rooms may be deleted without changing a room. Repeated initialization
does interfere: deleting the calls of `sys_lighting_init` is invisible throughout a run exactly when
each of them was made while every room was dark, empty and unmetered.
-/

namespace Xv6.Lighting

open Machine Kernel

/-- The event is not an occupancy call for another room than `j`. -/
def Event.concerns (j : Fin numRooms) : Event → Bool
  | .call (.setOccupied roomid) => decide (roomid.toInt = j)
  | .call (.setEmpty roomid) => decide (roomid.toInt = j)
  | _ => true

/-- Both kernels read the same clock and show the same meter in room `j`. -/
def AgreeOn (j : Fin numRooms) (k k' : Kernel) : Prop :=
  k.ticks = k'.ticks ∧ ∃ house house', k.Shows house ∧ k'.Shows house' ∧ house j = house' j

namespace AgreeOn

variable {j : Fin numRooms} {k k' : Kernel}

section

variable (agree : AgreeOn j k k')
include agree

theorem apply (op : Op) : AgreeOn j (op.apply k) (op.apply k') := by
  obtain ⟨clock, house, house', first, second, same⟩ := agree
  refine ⟨?_, _, _, op.apply_shows first, op.apply_shows second, ?_⟩
  · simp only [Op.apply_ticks, clock]
  · simp only [same, clock]

theorem run_ops (ops : List Op) :
    AgreeOn j (run Op.apply k ops) (run Op.apply k' ops) := by
  induction ops generalizing k k' with
  | nil => exact agree
  | cons op rest ih => exact ih (agree.apply op)

theorem skip (op : Op) (silent : ∀ now m, Meter.step j now m op = m)
    (timeless : op ≠ .tick) : AgreeOn j (op.apply k) k' := by
  obtain ⟨clock, house, house', first, second, same⟩ := agree
  refine ⟨?_, _, _, op.apply_shows first, second, ?_⟩
  · rw [Op.apply_ticks, if_neg timeless, clock]
  · rw [silent, same]

theorem ready : k.lightingInitialized = 1 ∧ k'.lightingInitialized = 1 := by
  obtain ⟨_, _, _, first, second, _⟩ := agree
  exact ⟨first.ready, second.ready⟩

theorem step (event : Event) :
    AgreeOn j (k.step event) (k'.step event) := by
  rw [k.step_eq_ops agree.ready.1, k'.step_eq_ops agree.ready.2]
  exact agree.run_ops event.ops

theorem step_erased {event : Event} (erased : event.concerns j = false) :
    AgreeOn j (k.step event) k' := by
  rw [k.step_eq_ops agree.ready.1]
  have elsewhere {roomid : Int32} (other : decide (roomid.toInt = j) = false) :
      roomIndex? roomid ≠ some j := by
    intro target
    exact of_decide_eq_false other (roomIndex?_eq_some_iff.mp target)
  cases event with
  | clockintr => cases erased
  | call syscall =>
    cases syscall with
    | setOccupied roomid =>
      refine agree.skip (.setRoomOccupied roomid) (fun now m => ?_) (by simp)
      simp only [Meter.step, elsewhere erased, ↓reduceIte]
    | setEmpty roomid =>
      refine agree.skip (.setRoomEmpty roomid) (fun now m => ?_) (by simp)
      simp only [Meter.step, elsewhere erased, ↓reduceIte]
    | lightingInit | roomStatus | getUsage | autoShutoff => cases erased

theorem fields :
    (k.rooms.get j).lightOn = (k'.rooms.get j).lightOn ∧ (k.rooms.get j).occupied = (k'.rooms.get j).occupied ∧
      (k.rooms.get j).usageTicks = (k'.rooms.get j).usageTicks ∧
      (k.rooms.get j).lightOnSince = (k'.rooms.get j).lightOnSince := by
  obtain ⟨_, house, house', first, second, same⟩ := agree
  rw [first.rooms j, second.rooms j, same]
  generalize house' j = m
  rcases m with ⟨lamp, usage⟩
  cases lamp <;> exact ⟨rfl, rfl, rfl, rfl⟩

end

end AgreeOn

/-- Rooms do not interfere: erasing every occupancy call for another room leaves the final fields
of room `j` as they are. -/
theorem rooms_do_not_interfere (k : Kernel) (events : List Event) (j : Fin numRooms) :
    ((run Kernel.step k.lightingInit events).rooms.get j).lightOn =
        ((run Kernel.step k.lightingInit (events.filter (Event.concerns j))).rooms.get j).lightOn ∧
    ((run Kernel.step k.lightingInit events).rooms.get j).occupied =
        ((run Kernel.step k.lightingInit (events.filter (Event.concerns j))).rooms.get j).occupied ∧
    ((run Kernel.step k.lightingInit events).rooms.get j).usageTicks =
        ((run Kernel.step k.lightingInit (events.filter (Event.concerns j))).rooms.get j).usageTicks ∧
    ((run Kernel.step k.lightingInit events).rooms.get j).lightOnSince =
        ((run Kernel.step k.lightingInit (events.filter (Event.concerns j))).rooms.get j).lightOnSince :=
  AgreeOn.fields <| run_filter Kernel.step Kernel.step (Event.concerns j) (AgreeOn j)
    (fun _ _ event _ agree => agree.step event) (fun _ _ _ erased agree => agree.step_erased erased)
    ⟨rfl, _, _, k.lightingInit_shows, k.lightingInit_shows, rfl⟩ events

/-- The event is a call of `sys_lighting_init`. -/
def Event.isInit : Event → Bool
  | .call .lightingInit => true
  | _ => false

/-- Deleting the initialization calls of a run changes neither the final rooms nor the replies to
the other events. -/
def InitInvisible (events : List Event) : Prop :=
  (run Kernel.step Kernel.boot events).rooms =
      (run Kernel.step Kernel.boot (events.filter fun event => !event.isInit)).rooms ∧
    (Kernel.boot.transcript events).filter (fun entry => !entry.1.isInit) =
      Kernel.boot.transcript (events.filter fun event => !event.isInit)

/-- Every room is dark, empty, unmetered and undated. -/
def Rooms.Baseline (rooms : Rooms) : Prop :=
  ∀ i : Fin numRooms, (rooms.get i).lightOn = lightOff ∧ (rooms.get i).occupied = roomEmpty ∧
    (rooms.get i).usageTicks = 0 ∧ (rooms.get i).lightOnSince = 0

/-- The rooms still carry the display names given at boot. -/
def Rooms.Named (rooms : Rooms) : Prop :=
  ∀ i : Fin numRooms, (rooms.get i).name = (Kernel.boot.rooms.get i).name

theorem Rooms.Named.eq_boot {rooms : Rooms} (named : Rooms.Named rooms)
    (baseline : Rooms.Baseline rooms) : rooms = Kernel.boot.rooms := by
  apply Vector.ext
  intro i bound
  have name := named ⟨i, bound⟩
  obtain ⟨light, occupancy, usage, since⟩ := baseline ⟨i, bound⟩
  have boot : Kernel.boot.rooms[i] = resetRoom names[i] bss.rooms[i] := by
    simp only [Kernel.boot, lightingInit, Vector.getElem_zipWith]
  simp only [Vector.get_eq_getElem_val] at name light occupancy usage since
  rcases room : rooms[i] with ⟨n, l, o, u, s⟩
  simp only [room] at name light occupancy usage since
  subst name light occupancy usage since
  rw [boot]
  rfl

theorem Rooms.boot_baseline : Rooms.Baseline boot.rooms := by
  unfold Rooms.Baseline
  decide +kernel

theorem Rooms.Named.resetRoom_name {rooms : Rooms} (named : Rooms.Named rooms) (i : Fin numRooms) :
    (resetRoom (names.get i) (rooms.get i)).name = (boot.rooms.get i).name := by
  have copied : ∀ i : Fin numRooms,
      copyName (boot.rooms.get i).name 0 (names.get i) = (boot.rooms.get i).name := by decide +kernel
  rw [← copied i, ← named i]
  rfl

private theorem autoShutoffImpl_named {k : Kernel} (ready : k.lightingInitialized = 1)
    (named : Rooms.Named k.rooms) (timeoutTicks verbose : Int32) :
    Rooms.Named (k.autoShutoffImpl timeoutTicks verbose).1.rooms := by
  intro i
  simp only [autoShutoffImpl, ensureInit_of_initialized ready, shutoffSection_getElem]
  split
  · simpa using named i
  · simpa using named i

private theorem set_named {k : Kernel} (named : Rooms.Named k.rooms) (target : Fin numRooms) {r : Room}
    (same : r.name = (k.rooms.get target).name) : Rooms.Named (k.rooms.set target r target.isLt) := by
  intro i
  simp only [Vector.get_eq_getElem_val, Vector.getElem_set]
  split
  · next equal =>
    obtain rfl := Fin.ext equal
    exact same.trans (named target)
  · exact named i

theorem Op.apply_named {k : Kernel} (ready : k.lightingInitialized = 1)
    (named : Rooms.Named k.rooms) (op : Op) : Rooms.Named (op.apply k).rooms := by
  cases op with
  | tick => exact named
  | lightingTick => exact autoShutoffImpl_named ready named _ _
  | autoShutoff timeoutTicks => exact autoShutoffImpl_named ready named timeoutTicks 0
  | lightingInit =>
    intro i
    simp only [Op.apply, Kernel.lightingInit, Vector.get_eq_getElem_val, Vector.getElem_zipWith]
    exact named.resetRoom_name i
  | updateUsage =>
    intro i
    have nonzero : k.lightingInitialized ≠ 0 := by rw [ready]; decide
    simp only [Op.apply, Kernel.updateUsage, if_neg nonzero, Vector.get_eq_getElem_val, Vector.getElem_map,
      Room.countUsage_name]
    exact named i
  | setRoomOccupied roomid =>
    simp only [Op.apply, Kernel.setRoomOccupied, ensureInit_of_initialized ready]
    split
    · exact named
    · exact set_named named _ rfl
  | setRoomEmpty roomid =>
    simp only [Op.apply, Kernel.setRoomEmpty, ensureInit_of_initialized ready]
    split
    · exact named
    · exact set_named named _ rfl

/-- After boot the module stays initialized and the rooms keep their names. -/
theorem booted_named (events : List Event) :
    (run Kernel.step boot events).lightingInitialized = 1 ∧
      Rooms.Named (run Kernel.step boot events).rooms := by
  refine run_invariant Kernel.step
    (fun k => k.lightingInitialized = 1 ∧ Rooms.Named k.rooms) ⟨rfl, fun _ => rfl⟩ ?_ events
  rintro k event ⟨ready, named⟩
  rw [k.step_eq_ops ready]
  exact run_invariant Op.apply (fun k => k.lightingInitialized = 1 ∧ Rooms.Named k.rooms)
    ⟨ready, named⟩ (fun _ op ⟨ready, named⟩ => ⟨op.apply_initialized ready, op.apply_named ready named⟩)
    event.ops

/-- Initialization after boot puts the rooms back to what they were at boot. -/
theorem lightingInit_rooms_eq_boot {k : Kernel} (named : Rooms.Named k.rooms) :
    k.lightingInit.rooms = boot.rooms := by
  apply Rooms.Named.eq_boot
  · intro i
    simp only [lightingInit, Vector.get_eq_getElem_val, Vector.getElem_zipWith]
    exact named.resetRoom_name i
  · intro i
    simp only [lightingInit, Vector.get_eq_getElem_val, Vector.getElem_zipWith]
    exact ⟨rfl, rfl, rfl, rfl⟩

/-- Every initialization call of the run is made in a baseline state. -/
def InitsAtBaseline (events : List Event) : Prop :=
  ∀ past rest, events = past ++ .call .lightingInit :: rest →
    Rooms.Baseline (run Kernel.step Kernel.boot past).rooms

private theorem erase_inits_of_baseline (events : List Event) (baseline : InitsAtBaseline events) :
    run Kernel.step boot events =
        run Kernel.step boot (events.filter fun event => !event.isInit) ∧
      (boot.transcript events).filter (fun entry => !entry.1.isInit) =
        boot.transcript (events.filter fun event => !event.isInit) := by
  induction events using List.reverseRecOn with
  | nil => exact ⟨rfl, rfl⟩
  | append_singleton past event ih =>
    obtain ⟨states, replies⟩ := ih (fun before rest split => baseline before (rest ++ [event]) (by simp [split]))
    simp only [List.filter_append, run_append, transcript_append, states, replies]
    cases init : event.isInit with
    | false => simp [init, transcript]
    | true =>
      obtain rfl : event = .call .lightingInit := by
        unfold Event.isInit at init
        split at init
        · rfl
        · cases init
      obtain ⟨ready, named⟩ := booted_named past
      have rooms := lightingInit_rooms_eq_boot named
      have quiet := named.eq_boot (baseline past [] rfl)
      rw [states] at ready rooms quiet
      have unchanged : (run Kernel.step boot (past.filter fun event => !event.isInit)).lightingInit =
          run Kernel.step boot (past.filter fun event => !event.isInit) := by
        generalize run Kernel.step boot (past.filter fun event => !event.isInit) = k at *
        rcases k with ⟨ticks, initialized, _⟩
        simp only at ready quiet
        subst ready quiet
        exact congrArg (mk ticks 1) rooms
      simpa [init, transcript, Kernel.step, syscall, sysLightingInit] using unchanged

/-- Deleting the initialization calls is invisible at every point of a run exactly when each of
them was made while all rooms were dark, empty, unmetered and undated. -/
theorem initInvisible_iff_baseline (events : List Event) :
    (∀ past rest, events = past ++ rest → InitInvisible past) ↔ InitsAtBaseline events := by
  constructor
  · rintro invisible past rest rfl
    have before := (invisible past _ rfl).1
    have after := (invisible (past ++ [.call .lightingInit]) rest (by simp)).1
    simp only [List.filter_append, List.filter_cons, Event.isInit, List.filter_nil, run_append] at after
    have reset := lightingInit_rooms_eq_boot (booted_named past).2
    have same : (run Kernel.step Kernel.boot past).rooms = Kernel.boot.rooms := by
      rw [before, ← reset]
      exact after.symm
    rw [same]
    exact Rooms.boot_baseline
  · intro baseline past rest split
    have early : InitsAtBaseline past := by
      intro before after inner
      exact baseline before (after ++ rest) (by rw [split, inner]; simp)
    obtain ⟨states, replies⟩ := erase_inits_of_baseline past early
    exact ⟨congrArg Kernel.rooms states, replies⟩

/-- Occupying a room and initializing again is visible: the light goes out. -/
theorem initInvisible_fails : ¬ ∀ events, InitInvisible events := by
  intro invisible
  have rooms := (invisible [.call (.setOccupied 0), .call .lightingInit]).1
  revert rooms
  decide +kernel

end Xv6.Lighting
