import Xv6.Model.Lighting.Interleaving
import Xv6.Model.Printf

/-! # The programs `roomctl` and `energymon`

An embedding of `user/roomctl.c` and of the report of `user/energymon.c`. The output of a program is the list of its
calls of `printf`. `roomctl` runs alone; the report of all rooms reads one room at a time, so that other processes and
the clock may come between two of its calls.
-/

namespace Xv6.Lights

open Lighting
open Printf (Arg)

/-- A call of `printf`. -/
structure Call where
  fmt : String
  args : List Arg
deriving DecidableEq, Repr

/-- An `int` as a variadic argument. -/
def int (n : Int32) : Arg := .word n.toInt64.toUInt64

/-- A `uint` as a variadic argument. -/
def uint (n : UInt32) : Arg := .word n.toUInt64

def str (s : String) : Arg := .str (some (Printf.ascii s))

/-- The name in a filled `struct roomstat`. -/
def name (copied : Option RoomStat) : Arg := .str (copied.map fun rs => rs.name.toList)

/-- The `int` that a system call returns to a user program. -/
def ret (reply : Reply) : Int32 := reply.ret.toUInt32.toInt32

/-- `streq` of both programs. -/
def streq : List UInt8 → List UInt8 → Bool
  | a :: as, b :: bs => if a ≠ 0 ∧ b ≠ 0 ∧ a = b then streq as bs else a = 0 ∧ b = 0
  | as, bs => as.headD 0 = 0 ∧ bs.headD 0 = 0

/-- The loop of `myatoi`. -/
def myatoiLoop (n : Int32) : List UInt8 → Int32
  | [] => n
  | c :: rest => if '0'.toUInt8 ≤ c ∧ c ≤ '9'.toUInt8 then
    myatoiLoop (n * 10 + (Int32.ofNat c.toNat - Int32.ofNat '0'.toNat)) rest else n

/-- `myatoi` of both programs. -/
def myatoi (s : List UInt8) : Int32 := myatoiLoop 0 s

/-- How a program ends. -/
structure Ended where
  kernel : Kernel
  out : List Call
  status : Int32
deriving DecidableEq, Repr

namespace Roomctl

def header : List Call :=
  [⟨"  ID  Room            Light  Occupancy   Usage (ticks)\n", []⟩,
    ⟨"  -------------------------------------------------------\n", []⟩]

/-- `print_room`. -/
def printRoom (id : Int32) (rs : RoomStat) : Call :=
  ⟨"  %d   %s: %s, %s, %u ticks\n", [int id, name (some rs), str (if rs.lightOn = lightOn then "ON" else "OFF"),
    str (if rs.occupied = roomOccupied then "OCCUPIED" else "EMPTY"), uint rs.usageTicks]⟩

/-- The loop of `cmd_list`. -/
def listRooms : List (Fin numRooms) → Kernel → Kernel × List Call
  | [], k => (k, [])
  | i :: rest, k =>
    let id := Int32.ofNat i
    let (k, reply) := k.syscall (.roomStatus id true)
    let line := if ret reply = 0 then reply.copied.toList.map (printRoom id) else []
    let (k, out) := listRooms rest k
    (k, line ++ out)

/-- `cmd_list`. -/
def cmdList (k : Kernel) : Ended :=
  let (k, lines) := listRooms (List.finRange numRooms) k
  ⟨k, [⟨"\n=== Smart Lighting — Room Status ===\n", []⟩] ++ header ++ lines ++
    [⟨"  =====================================================\n\n", []⟩], 0⟩

/-- The report of a room id that the kernel has refused. -/
def invalid (roomid : Int32) : Call :=
  ⟨"roomctl: invalid room id %d  (valid: 0-%d)\n", [int roomid, int (Int32.ofNat (numRooms - 1))]⟩

/-- A command that changes a room and then reads its name. -/
def change (call : Int32 → Syscall) (done : String) (roomid : Int32) (k : Kernel) : Ended :=
  let (k, reply) := k.syscall (call roomid)
  if ret reply < 0 then ⟨k, [invalid roomid], 1⟩
  else
    let (k, reply) := k.syscall (.roomStatus roomid true)
    ⟨k, [⟨done, [name reply.copied]⟩], 0⟩

/-- `cmd_occupied`. -/
def cmdOccupied : Int32 → Kernel → Ended :=
  change .setOccupied "roomctl: room '%s' is now OCCUPIED — light turned ON.\n"

/-- `cmd_empty`. -/
def cmdEmpty : Int32 → Kernel → Ended := change .setEmpty "roomctl: room '%s' is now EMPTY — light turned OFF.\n"

def usage : List Call :=
  [⟨"Usage:\n", []⟩,
    ⟨"  roomctl                    show all room statuses\n", []⟩,
    ⟨"  roomctl list               show all room statuses\n", []⟩,
    ⟨"  roomctl occupied <id>      mark room occupied  (light ON)\n", []⟩,
    ⟨"  roomctl empty    <id>      mark room empty     (light OFF)\n", []⟩,
    ⟨"\nRoom IDs: 0=Living Room  1=Kitchen  2=Bedroom  3=Bathroom  4=Office\n", []⟩]

/-- `main`, with its arguments behind the name of the program. -/
def main (args : List (List UInt8)) (k : Kernel) : Ended :=
  match args with
  | [] => cmdList k
  | verb :: rest =>
    if streq verb (Printf.ascii "list") then cmdList k
    else if streq verb (Printf.ascii "occupied") then
      match rest with
      | [] => ⟨k, ⟨"roomctl: 'occupied' requires a room id\n", []⟩ :: usage, 1⟩
      | id :: _ => cmdOccupied (myatoi id) k
    else if streq verb (Printf.ascii "empty") then
      match rest with
      | [] => ⟨k, ⟨"roomctl: 'empty' requires a room id\n", []⟩ :: usage, 1⟩
      | id :: _ => cmdEmpty (myatoi id) k
    else if streq verb (Printf.ascii "help") ∨ streq verb (Printf.ascii "-h") then ⟨k, usage, 0⟩
    else ⟨k, ⟨"roomctl: unknown command '%s'\n", [.str (some verb)]⟩ :: usage, 1⟩

end Roomctl

namespace Energymon

/-- The report of all rooms between two of its calls: the next room, and the total so far. -/
structure Report where
  i : ℕ
  total : UInt32
  out : List Call
deriving DecidableEq, Repr

def start : Report :=
  ⟨0, 0, [⟨"\n=== Energy Usage Report ===\n", []⟩, ⟨"  ID  Room            Usage (ticks)  Light\n", []⟩,
    ⟨"  ------------------------------------------\n", []⟩]⟩

/-- One round of the loop, with its call of `room_status`. -/
def Report.round (r : Report) (k : Kernel) : Kernel × Report :=
  let id := Int32.ofNat r.i
  let (k, reply) := k.syscall (.roomStatus id true)
  if ret reply = 0 then
    match reply.copied with
    | some rs => (k, ⟨r.i + 1, r.total + rs.usageTicks, r.out ++
        [⟨"  %d   %s: %u ticks (%s)\n", [int id, name (some rs), uint rs.usageTicks,
          str (if rs.lightOn = lightOn then "ON" else "OFF")]⟩]⟩)
    | none => (k, { r with i := r.i + 1 })
  else (k, { r with i := r.i + 1 })

/-- What is printed behind the loop. -/
def Report.finish (r : Report) : List Call := r.out ++
  [⟨"  ------------------------------------------\n", []⟩, ⟨"  TOTAL HOUSE USAGE: %u ticks\n", [uint r.total]⟩,
    ⟨"  ==========================================\n\n", []⟩]

/-- The report among the handler of the clock and the calls of other processes. -/
structure Watch where
  sys : System
  report : Report

/-- A step of the report, or of anything else. -/
inductive Step where
  | read
  | other (act : Act)
deriving DecidableEq, Repr

def Watch.step? (w : Watch) : Step → Option Watch
  | .read =>
    if w.report.i < numRooms then
      let (kernel, report) := w.report.round w.sys.kernel
      some ⟨{ w.sys with kernel }, report⟩
    else none
  | .other act => (w.sys.step? act).map fun sys => { w with sys }

end Energymon

end Xv6.Lights
