import Xv6.ToMathlib.VectorSweep

/-! # The lighting module of the kernel

An executable embedding of `kernel/lighting.c`. C `uint` is `UInt32` with wrapping arithmetic, C
`int` is `Int32`; room fields keep their full integer range, so that a light being on or off is a
fact about reachable states rather than about the type. `Kernel` holds the module's globals
together with `ticks` of `kernel/trap.c`, the only foreign variable the module reads. Every critical
section of `lighting_lock` is one function; the lock itself has no other effect and is not stored.
The shutoff policy is split where the source acquires the lock: the sampled `now` is an argument of
`shutoffSection`, so that later modules may let other steps fall between the two.
-/

namespace Xv6.Lighting

/-- `NUM_ROOMS`. -/
abbrev numRooms : ℕ := 5

/-- `ROOM_NAME_MAX`, the size of a name including its terminator. -/
def roomNameMax : ℕ := 32

/-- `LIGHT_OFF`. -/
def lightOff : Int32 := 0

/-- `LIGHT_ON`. -/
def lightOn : Int32 := 1

/-- `ROOM_EMPTY`. -/
def roomEmpty : Int32 := 0

/-- `ROOM_OCCUPIED`. -/
def roomOccupied : Int32 := 1

/-- `MAX_LIGHT_ON_TICKS`. -/
def maxLightOnTicks : UInt32 := 100

/-- The limit `lighting_tick` passes to the policy. -/
def lightingTickTimeout : Int32 := 300

/-- `struct room`. -/
structure Room where
  name : Vector UInt8 roomNameMax
  lightOn : Int32
  occupied : Int32
  usageTicks : UInt32
  lightOnSince : UInt32
deriving DecidableEq, Repr

/-- `struct roomstat`, the part of a room that user programs may read. -/
structure RoomStat where
  name : Vector UInt8 roomNameMax
  lightOn : Int32
  occupied : Int32
  usageTicks : UInt32
deriving DecidableEq, Repr

abbrev Rooms := Vector Room numRooms

/-- The globals of the lighting module and the clock it reads. -/
structure Kernel where
  ticks : UInt32
  lightingInitialized : Int32
  rooms : Rooms
deriving DecidableEq, Repr

/-- The display names assigned at initialization, as bytes before the terminator. -/
def names : Vector (List UInt8) numRooms :=
  #v["Living Room", "Kitchen", "Bedroom", "Bathroom", "Office"].map
    fun name => name.toList.map Char.toUInt8

/-- The manual name copy: stop at the source's terminator or at the last cell, then terminate. -/
def copyName (name : Vector UInt8 roomNameMax) (j : ℕ) : List UInt8 → Vector UInt8 roomNameMax
  | [] => name.setIfInBounds j 0
  | c :: rest =>
      if c ≠ 0 ∧ j < roomNameMax - 1 then copyName (name.setIfInBounds j c) (j + 1) rest
      else name.setIfInBounds j 0

/-- The body of the initialization loop. -/
def resetRoom (source : List UInt8) (room : Room) : Room where
  name := copyName room.name 0 source
  lightOn := lightOff
  occupied := roomEmpty
  usageTicks := 0
  lightOnSince := 0

/-- `lighting_init`. -/
def Kernel.lightingInit (k : Kernel) : Kernel :=
  { k with
    rooms := Vector.zipWith resetRoom names k.rooms
    lightingInitialized := 1 }

/-- The guard `if (!lighting_initialized) lighting_init();` in front of every entry point. -/
def Kernel.ensureInit (k : Kernel) : Kernel :=
  if k.lightingInitialized = 0 then k.lightingInit else k

/-- The range check shared by all entry points that take a room id. -/
def roomIndex? (roomid : Int32) : Option (Fin numRooms) :=
  if roomid < 0 ∨ roomid ≥ Int32.ofNat numRooms then none else some (Fin.ofNat numRooms roomid.toNatClampNeg)

def Room.stat (room : Room) : RoomStat :=
  ⟨room.name, room.lightOn, room.occupied, room.usageTicks⟩

/-- `room_status` with a non-null buffer: the updated state, the returned code, the filled buffer. -/
def Kernel.roomStatus (k : Kernel) (roomid : Int32) : Kernel × Int32 × Option RoomStat :=
  let k := k.ensureInit
  match roomIndex? roomid with
  | none => (k, -1, none)
  | some i => (k, 0, some (k.rooms.get i).stat)

/-- The critical section of `set_room_occupied`. -/
def Room.occupy (now : UInt32) (room : Room) : Room :=
  { room with occupied := roomOccupied, lightOn := Lighting.lightOn, lightOnSince := now }

/-- The critical section of `set_room_empty`. -/
def Room.vacate (room : Room) : Room :=
  { room with occupied := roomEmpty, lightOn := lightOff, lightOnSince := 0 }

/-- `set_room_occupied`. -/
def Kernel.setRoomOccupied (k : Kernel) (roomid : Int32) : Kernel × Int32 :=
  let k := k.ensureInit
  match roomIndex? roomid with
  | none => (k, -1)
  | some i => ({ k with rooms := k.rooms.set i ((k.rooms.get i).occupy k.ticks) }, 0)

/-- `set_room_empty`. -/
def Kernel.setRoomEmpty (k : Kernel) (roomid : Int32) : Kernel × Int32 :=
  let k := k.ensureInit
  match roomIndex? roomid with
  | none => (k, -1)
  | some i => ({ k with rooms := k.rooms.set i (k.rooms.get i).vacate }, 0)

/-- The test `light_on == LIGHT_ON`. -/
def Room.Lit (room : Room) : Prop := room.lightOn = Lighting.lightOn

instance (room : Room) : Decidable room.Lit := inferInstanceAs (Decidable (_ = _))

/-- The body of the accounting loop. -/
def Room.countUsage (room : Room) : Room :=
  if room.Lit then { room with usageTicks := room.usageTicks + 1 } else room

/-- `update_usage`. Unlike the other entry points it does nothing before initialization. -/
def Kernel.updateUsage (k : Kernel) : Kernel :=
  if k.lightingInitialized = 0 then k else { k with rooms := k.rooms.map Room.countUsage }

/-- `get_room_usage`. -/
def Kernel.getRoomUsage (k : Kernel) (roomid : Int32) : Kernel × UInt32 :=
  let k := k.ensureInit
  match roomIndex? roomid with
  | none => (k, -1)
  | some i => (k, (k.rooms.get i).usageTicks)

/-- `get_total_usage`. -/
def Kernel.getTotalUsage (k : Kernel) : Kernel × UInt32 :=
  let k := k.ensureInit
  (k, k.rooms.foldl (fun total room => total + room.usageTicks) 0)

/-- The first loop of the policy: does any room differ from `ROOM_EMPTY`? -/
def allEmpty (rooms : Rooms) : Bool :=
  rooms.foldl (fun empty room => if room.occupied ≠ roomEmpty then false else empty) true

/-- The threshold the policy derives from its argument. -/
def shutoffLimit (timeoutTicks : Int32) : UInt32 :=
  if timeoutTicks > 0 then timeoutTicks.toUInt32 else maxLightOnTicks

/-- The condition of rule 1. The age is an unsigned difference modulo `2 ^ 32`. -/
def Room.expired (now limit : UInt32) (room : Room) : Prop :=
  room.Lit ∧ room.lightOnSince > 0 ∧ now - room.lightOnSince ≥ limit

instance (now limit : UInt32) (room : Room) : Decidable (room.expired now limit) :=
  inferInstanceAs (Decidable (_ ∧ _ ∧ _))

/-- The assignments both rules make to a light they turn off. -/
def Room.extinguish (room : Room) : Room :=
  { room with lightOn := lightOff, lightOnSince := 0 }

/-- Rule 1, maximum continuous on-time. -/
def maxOnTimeRule (now limit : UInt32) (rooms : Rooms) (count : ℕ) : Rooms × ℕ :=
  rooms.sweep (fun count room =>
    if room.expired now limit then (room.extinguish, count + 1) else (room, count)) count

/-- Rule 2, the whole house is empty. -/
def emptyHouseRule (rooms : Rooms) (count : ℕ) : Rooms × ℕ :=
  rooms.sweep (fun count room =>
    if room.Lit then (room.extinguish, count + 1) else (room, count)) count

/-- The critical section of `auto_shutoff_impl`. Emptiness is read before either rule runs. -/
def shutoffSection (now limit : UInt32) (rooms : Rooms) : Rooms × ℕ :=
  let empty := allEmpty rooms
  let (rooms, count) := maxOnTimeRule now limit rooms 0
  if empty then emptyHouseRule rooms count else (rooms, count)

/-- The console line of `auto_shutoff_impl`. -/
def shutoffMessage (verbose : Int32) (count : ℕ) : Option String :=
  if verbose ≠ 0 ∧ count > 0 then
    some s!"lighting: auto-shutoff saved energy - turned off {count} light(s)\n"
  else none

/-- `auto_shutoff_impl` run without interruption: state, returned count, console output. -/
def Kernel.autoShutoffImpl (k : Kernel) (timeoutTicks verbose : Int32) : Kernel × ℕ × Option String :=
  let k := k.ensureInit
  let (rooms, count) := shutoffSection k.ticks (shutoffLimit timeoutTicks) k.rooms
  ({ k with rooms := rooms }, count, shutoffMessage verbose count)

/-- `lighting_tick`. -/
def Kernel.lightingTick (k : Kernel) : Kernel := (k.autoShutoffImpl lightingTickTimeout 1).1

/-- `auto_shutoff`. -/
def Kernel.autoShutoff (k : Kernel) (timeoutTicks : Int32) : Kernel × ℕ :=
  let (k, count, _) := k.autoShutoffImpl timeoutTicks 0
  (k, count)

/-- The statement `ticks++` of `clockintr`, the only writer of the clock. -/
def Kernel.tick (k : Kernel) : Kernel := { k with ticks := k.ticks + 1 }

/-- `clockintr` on the boot processor, run without interruption. -/
def Kernel.clockintr (k : Kernel) : Kernel := k.tick.updateUsage.lightingTick

/-- Zeroed globals, as the loader leaves them. -/
def Kernel.bss : Kernel where
  ticks := 0
  lightingInitialized := 0
  rooms := Vector.replicate numRooms ⟨Vector.replicate roomNameMax 0, 0, 0, 0, 0⟩

/-- The state after the call of `lighting_init` in `main`. -/
def Kernel.boot : Kernel := Kernel.bss.lightingInit

end Xv6.Lighting
