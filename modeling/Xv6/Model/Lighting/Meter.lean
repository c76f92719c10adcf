import Xv6.Model.Lighting.Events

/-! # One metered lamp

What the lighting module is for, stated for a single room: a lamp that goes on when the room is
occupied, goes off when it is vacated or has burned for too long, and a meter that counts the ticks
it burned. A lit lamp carries its switch-on tick and has no occupancy flag, so a light burning in an
empty room cannot be expressed. There is no whole-house rule and no other room.
-/

namespace Xv6.Lighting

/-- A lamp is dark, in a room that may be occupied or not, or it is lit since some tick. -/
inductive Lamp where
  | dark (occupied : Bool)
  | lit (since : UInt32)
deriving DecidableEq, Repr

/-- A lamp and the ticks it has burned, modulo `2 ^ 32`. -/
structure Meter where
  lamp : Lamp
  usage : UInt32
deriving DecidableEq, Repr

namespace Meter

def fresh : Meter := ⟨.dark false, 0⟩

def occupy (now : UInt32) (m : Meter) : Meter := { m with lamp := .lit now }

def vacate (m : Meter) : Meter := { m with lamp := .dark false }

/-- A burning lamp is charged one tick. -/
def charge (m : Meter) : Meter :=
  match m.lamp with
  | .lit _ => { m with usage := m.usage + 1 }
  | .dark _ => m

/-- A lamp lit at tick zero never expires; any other one does when its age reaches the limit. -/
def expire (now limit : UInt32) (m : Meter) : Meter :=
  match m.lamp with
  | .lit since => if since ≠ 0 ∧ limit ≤ now - since then { m with lamp := .dark true } else m
  | .dark _ => m

/-- The reaction of the meter in room `i` to one operation of the kernel at tick `now`. -/
def step (i : Fin numRooms) (now : UInt32) (m : Meter) : Op → Meter
  | .tick => m
  | .updateUsage => m.charge
  | .lightingTick => m.expire now (shutoffLimit lightingTickTimeout)
  | .lightingInit => fresh
  | .setRoomOccupied roomid => if roomIndex? roomid = some i then m.occupy now else m
  | .setRoomEmpty roomid => if roomIndex? roomid = some i then m.vacate else m
  | .autoShutoff timeoutTicks => m.expire now (shutoffLimit timeoutTicks)

/-- The room a meter stands for, under a display name. -/
def room (name : Vector UInt8 roomNameMax) (m : Meter) : Room :=
  match m.lamp with
  | .dark occupied => ⟨name, lightOff, if occupied then roomOccupied else roomEmpty, m.usage, 0⟩
  | .lit since => ⟨name, lightOn, roomOccupied, m.usage, since⟩

end Meter

/-- The room's fields are those of the meter; its display name is not constrained. -/
def Room.Shows (r : Room) (m : Meter) : Prop := r = m.room r.name

/-- The module is initialized and every room shows a meter. -/
structure Kernel.Shows (k : Kernel) (house : Fin numRooms → Meter) : Prop where
  ready : k.lightingInitialized = 1
  rooms : ∀ i : Fin numRooms, (k.rooms.get i).Shows (house i)

end Xv6.Lighting
