import Xv6.Machine.Run
import Xv6.Model.Lighting.Rooms

/-! # Kernel calls, system calls, and clock interrupts

`Op` are the module's mutating entry points and the bare clock increment, in any order and with
any arguments. `Syscall` are the six handlers of `kernel/syslighting.c` with the values user
programs get back; an `Event` is one of them or a whole clock interrupt. An event's effect on the
state is the run of its operations (`step_eq_ops`), so a fact about all runs of operations is a
fact about all runs of events.
-/

namespace Xv6.Lighting

open Machine

/-- The operations that may change the state of the lighting module. -/
inductive Op where
  | tick
  | updateUsage
  | lightingTick
  | lightingInit
  | setRoomOccupied (roomid : Int32)
  | setRoomEmpty (roomid : Int32)
  | autoShutoff (timeoutTicks : Int32)
deriving DecidableEq, Repr

/-- The state after one operation. -/
def Op.apply (k : Kernel) : Op → Kernel
  | .tick => k.tick
  | .updateUsage => k.updateUsage
  | .lightingTick => k.lightingTick
  | .lightingInit => k.lightingInit
  | .setRoomOccupied roomid => (k.setRoomOccupied roomid).1
  | .setRoomEmpty roomid => (k.setRoomEmpty roomid).1
  | .autoShutoff timeoutTicks => (k.autoShutoff timeoutTicks).1

/-- The system calls of the lighting module. The handler of `room_status` copies the filled buffer
to the caller's address; `mapped` tells whether that `copyout` succeeds. -/
inductive Syscall where
  | lightingInit
  | roomStatus (roomid : Int32) (mapped : Bool)
  | setOccupied (roomid : Int32)
  | setEmpty (roomid : Int32)
  | getUsage (roomid : Int32)
  | autoShutoff (timeoutTicks : Int32)
deriving DecidableEq, Repr

/-- What a system call gives back: the value in the return register, and the bytes copied out. -/
structure Reply where
  ret : UInt64
  copied : Option RoomStat
deriving DecidableEq, Repr

/-- An `int` returned through the `uint64` of a handler is sign-extended. -/
def Reply.int (ret : Int32) : Reply := ⟨ret.toInt64.toUInt64, none⟩

/-- A `uint` returned through the `uint64` of a handler is zero-extended. -/
def Reply.uint (ret : UInt32) : Reply := ⟨ret.toUInt64, none⟩

/-- `sys_lighting_init`. -/
def Kernel.sysLightingInit (k : Kernel) : Kernel × Reply := (k.lightingInit, .int 0)

/-- `sys_room_status`. -/
def Kernel.sysRoomStatus (k : Kernel) (roomid : Int32) (mapped : Bool) : Kernel × Reply :=
  let (k, code, filled) := k.roomStatus roomid
  if code < 0 then (k, .int (-1))
  else if mapped then (k, { Reply.int 0 with copied := filled })
  else (k, .int (-1))

/-- `sys_set_occupied`. -/
def Kernel.sysSetOccupied (k : Kernel) (roomid : Int32) : Kernel × Reply :=
  let (k, code) := k.setRoomOccupied roomid
  (k, .int code)

/-- `sys_set_empty`. -/
def Kernel.sysSetEmpty (k : Kernel) (roomid : Int32) : Kernel × Reply :=
  let (k, code) := k.setRoomEmpty roomid
  (k, .int code)

/-- `sys_get_usage`. -/
def Kernel.sysGetUsage (k : Kernel) (roomid : Int32) : Kernel × Reply :=
  if roomid = -1 then
    let (k, total) := k.getTotalUsage
    (k, .uint total)
  else
    let (k, usage) := k.getRoomUsage roomid
    (k, .uint usage)

/-- `sys_auto_shutoff`. -/
def Kernel.sysAutoShutoff (k : Kernel) (timeoutTicks : Int32) : Kernel × Reply :=
  let (k, count) := k.autoShutoff timeoutTicks
  (k, .int (Int32.ofNat count))

/-- The dispatch of the lighting entries of `syscalls[]`. -/
def Kernel.syscall (k : Kernel) : Syscall → Kernel × Reply
  | .lightingInit => k.sysLightingInit
  | .roomStatus roomid mapped => k.sysRoomStatus roomid mapped
  | .setOccupied roomid => k.sysSetOccupied roomid
  | .setEmpty roomid => k.sysSetEmpty roomid
  | .getUsage roomid => k.sysGetUsage roomid
  | .autoShutoff timeoutTicks => k.sysAutoShutoff timeoutTicks

/-- A clock interrupt on the boot processor, or a system call of some process. -/
inductive Event where
  | clockintr
  | call (syscall : Syscall)
deriving DecidableEq, Repr

/-- The state after one event. -/
def Kernel.step (k : Kernel) : Event → Kernel
  | .clockintr => k.clockintr
  | .call syscall => (k.syscall syscall).1

/-- The reply to an event. A clock interrupt replies to nobody. -/
def Kernel.reply? (k : Kernel) : Event → Option Reply
  | .clockintr => none
  | .call syscall => some (k.syscall syscall).2

/-- The events of a run, each with the reply it got. -/
def Kernel.transcript (k : Kernel) : List Event → List (Event × Option Reply)
  | [] => []
  | event :: rest => (event, k.reply? event) :: (k.step event).transcript rest

theorem Kernel.transcript_append (k : Kernel) (first second : List Event) :
    k.transcript (first ++ second) =
      k.transcript first ++ (run Kernel.step k first).transcript second := by
  induction first generalizing k with
  | nil => rfl
  | cons event rest ih => simp only [List.cons_append, transcript, ih, run_cons]

/-- The operations an event consists of, on an initialized module. -/
def Event.ops : Event → List Op
  | .clockintr => [.tick, .updateUsage, .lightingTick]
  | .call .lightingInit => [.lightingInit]
  | .call (.roomStatus _ _) => []
  | .call (.setOccupied roomid) => [.setRoomOccupied roomid]
  | .call (.setEmpty roomid) => [.setRoomEmpty roomid]
  | .call (.getUsage _) => []
  | .call (.autoShutoff timeoutTicks) => [.autoShutoff timeoutTicks]

theorem Kernel.ensureInit_of_initialized {k : Kernel} (ready : k.lightingInitialized = 1) :
    k.ensureInit = k := by
  rw [ensureInit, if_neg (by rw [ready]; decide)]

@[simp] theorem Kernel.lightingInit_ticks (k : Kernel) : k.lightingInit.ticks = k.ticks := rfl

theorem Kernel.roomStatus_fst (k : Kernel) (roomid : Int32) : (k.roomStatus roomid).1 = k.ensureInit := by
  unfold roomStatus
  cases roomIndex? roomid <;> rfl

theorem Kernel.getRoomUsage_fst (k : Kernel) (roomid : Int32) : (k.getRoomUsage roomid).1 = k.ensureInit := by
  unfold getRoomUsage
  cases roomIndex? roomid <;> rfl

/-- On an initialized module an event is the run of its operations. -/
theorem Kernel.step_eq_ops {k : Kernel} (ready : k.lightingInitialized = 1) (event : Event) :
    k.step event = run Op.apply k event.ops := by
  cases event with
  | clockintr => rfl
  | call syscall =>
    cases syscall with
    | lightingInit | setOccupied | setEmpty | autoShutoff => rfl
    | roomStatus roomid mapped =>
      have unchanged : (k.sysRoomStatus roomid mapped).1 = (k.roomStatus roomid).1 := by
        simp only [sysRoomStatus, apply_ite Prod.fst, ite_self]
      exact unchanged.trans ((k.roomStatus_fst roomid).trans (ensureInit_of_initialized ready))
    | getUsage roomid =>
      have unchanged : (k.sysGetUsage roomid).1 = k.ensureInit := by
        unfold sysGetUsage
        split
        · rfl
        · exact k.getRoomUsage_fst roomid
      exact unchanged.trans (ensureInit_of_initialized ready)

theorem Op.apply_initialized {k : Kernel} (ready : k.lightingInitialized = 1) (op : Op) :
    (op.apply k).lightingInitialized = 1 := by
  cases op with
  | tick => exact ready
  | lightingInit => rfl
  | updateUsage =>
    simp only [apply, Kernel.updateUsage]
    split <;> exact ready
  | lightingTick =>
    simpa only [apply, Kernel.lightingTick, Kernel.autoShutoffImpl,
      Kernel.ensureInit_of_initialized ready] using ready
  | autoShutoff timeoutTicks =>
    simpa only [apply, Kernel.autoShutoff, Kernel.autoShutoffImpl,
      Kernel.ensureInit_of_initialized ready] using ready
  | setRoomOccupied roomid =>
    simp only [apply, Kernel.setRoomOccupied, Kernel.ensureInit_of_initialized ready]
    split <;> exact ready
  | setRoomEmpty roomid =>
    simp only [apply, Kernel.setRoomEmpty, Kernel.ensureInit_of_initialized ready]
    split <;> exact ready

end Xv6.Lighting
