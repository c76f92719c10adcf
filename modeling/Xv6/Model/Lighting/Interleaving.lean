import Xv6.Model.Lighting.Meter

/-! # Interleavings of the lighting module

The policy reads the clock before it takes `lighting_lock`, and the clock interrupt handler is three
calls with nothing held in between. Here both are split into the steps they really consist of, and
the steps of other processes may fall between any two of them. The handler runs on the boot
processor with interrupts off, so its own steps keep their order and no second tick overtakes it;
any number of processes may have sampled the clock and not yet taken the lock.
-/

namespace Xv6.Lighting

/-- How far the clock interrupt handler has come. -/
inductive Phase where
  | idle
  | ticked
  | charged
  | sampled (now : UInt32)
deriving DecidableEq, Repr

/-- A call of `auto_shutoff` that has sampled the clock and not yet taken the lock. -/
structure Sample where
  now : UInt32
  timeoutTicks : Int32
deriving DecidableEq, Repr

/-- The kernel, its interrupt handler, and the calls in flight by process number. -/
structure System where
  kernel : Kernel
  phase : Phase
  pending : ℕ → Option Sample

/-- One step of the handler, of an `auto_shutoff` call, or a call that is a single critical section. -/
inductive Act where
  | tick
  | updateUsage
  | lightingSample
  | lightingSection
  | shutoffSample (pid : ℕ) (timeoutTicks : Int32)
  | shutoffSection (pid : ℕ)
  | setRoomOccupied (roomid : Int32)
  | setRoomEmpty (roomid : Int32)
  | lightingInit
deriving DecidableEq, Repr

/-- The critical section of the policy with a clock value sampled earlier. -/
def Kernel.shutoffAt (k : Kernel) (now : UInt32) (timeoutTicks : Int32) : Kernel :=
  { k with rooms := (shutoffSection now (shutoffLimit timeoutTicks) k.rooms).1 }

/-- Sampling and entering the section at once is the uninterrupted policy. -/
theorem Kernel.autoShutoffImpl_eq_shutoffAt (k : Kernel) (timeoutTicks verbose : Int32) :
    (k.autoShutoffImpl timeoutTicks verbose).1 = k.ensureInit.shutoffAt k.ensureInit.ticks timeoutTicks :=
  rfl

namespace System

/-- The state after initialization, with no handler running and no call in flight. -/
def start (k : Kernel) : System := ⟨k.lightingInit, .idle, fun _ => none⟩

/-- Steps of the handler are enabled in their order; a process enters the section of a call it has
sampled for; all other calls are always enabled. -/
def step? (s : System) : Act → Option System
  | .tick =>
      match s.phase with
      | .idle => some { s with kernel := s.kernel.tick, phase := .ticked }
      | _ => none
  | .updateUsage =>
      match s.phase with
      | .ticked => some { s with kernel := s.kernel.updateUsage, phase := .charged }
      | _ => none
  | .lightingSample =>
      match s.phase with
      | .charged => some { s with kernel := s.kernel.ensureInit, phase := .sampled s.kernel.ensureInit.ticks }
      | _ => none
  | .lightingSection =>
      match s.phase with
      | .sampled now => some { s with kernel := s.kernel.shutoffAt now lightingTickTimeout, phase := .idle }
      | _ => none
  | .shutoffSample pid timeoutTicks =>
      match s.pending pid with
      | none => some { s with
          kernel := s.kernel.ensureInit
          pending := fun p => if p = pid then some ⟨s.kernel.ensureInit.ticks, timeoutTicks⟩ else s.pending p }
      | some _ => none
  | .shutoffSection pid =>
      match s.pending pid with
      | some sample => some { s with
          kernel := s.kernel.shutoffAt sample.now sample.timeoutTicks
          pending := fun p => if p = pid then none else s.pending p }
      | none => none
  | .setRoomOccupied roomid => some { s with kernel := (s.kernel.setRoomOccupied roomid).1 }
  | .setRoomEmpty roomid => some { s with kernel := (s.kernel.setRoomEmpty roomid).1 }
  | .lightingInit => some { s with kernel := s.kernel.lightingInit }

/-- The sampled clock and the limit with which a step is about to apply the policy. -/
def due? (s : System) : Act → Option (UInt32 × UInt32)
  | .lightingSection =>
      match s.phase with
      | .sampled now => some (now, shutoffLimit lightingTickTimeout)
      | _ => none
  | .shutoffSection pid =>
      (s.pending pid).map fun sample => (sample.now, shutoffLimit sample.timeoutTicks)
  | _ => none

end System

/-- An application of the policy, if one is due. -/
def Meter.expireDue (due : Option (UInt32 × UInt32)) (m : Meter) : Meter :=
  match due with
  | some (now, limit) => m.expire now limit
  | none => m

/-- The reaction of the meter in room `i` to one step of the system. -/
def Meter.follow (i : Fin numRooms) (s : System) (m : Meter) (act : Act) : Meter :=
  match act with
  | .updateUsage => m.charge
  | .setRoomOccupied roomid => if roomIndex? roomid = some i then m.occupy s.kernel.ticks else m
  | .setRoomEmpty roomid => if roomIndex? roomid = some i then m.vacate else m
  | .lightingInit => fresh
  | _ => m.expireDue (s.due? act)

end Xv6.Lighting
