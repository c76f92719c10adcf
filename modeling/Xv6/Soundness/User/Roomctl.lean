import Mathlib.Data.List.TakeWhile
import Xv6.Model.User.Lights
import Xv6.Proofs.Lighting.Policy

/-! # Which room `roomctl` acts on

`myatoi` reads the digits at the front of its argument and ignores the rest, in 32 bits. A string without digits is room
0, and so is a numeral of `2 ^ 32`. `roomctl` does what its argument says exactly for the numerals of rooms, and for
the strings whose front is, modulo `2 ^ 32`, no room.
-/

namespace Xv6.Lights

open Lighting Kernel

/-- A decimal digit. -/
def Digit (c : UInt8) : Prop := '0'.toUInt8 ≤ c ∧ c ≤ '9'.toUInt8

instance (c : UInt8) : Decidable (Digit c) := inferInstanceAs (Decidable (_ ∧ _))

/-- A decimal numeral: digits only, and some. -/
def Numeral (s : List UInt8) : Prop := s ≠ [] ∧ ∀ c ∈ s, Digit c

/-- The number that digits denote, behind a number in front of them. -/
def valueFrom (n : ℕ) (s : List UInt8) : ℕ := s.foldl (fun n c => n * 10 + (c.toNat - '0'.toNat)) n

def value (s : List UInt8) : ℕ := valueFrom 0 s

/-- The digits at the front of a string. -/
def front (s : List UInt8) : List UInt8 := s.takeWhile fun c => decide (Digit c)

theorem front_of_numeral {s : List UInt8} (numeral : Numeral s) : front s = s :=
  List.takeWhile_eq_self_iff.mpr fun c listed => decide_eq_true (numeral.2 c listed)

theorem front_bytes (s : List UInt8) : front (Printf.bytes s) = front s := by
  induction s with
  | nil => rfl
  | cons c s ih =>
    rw [Printf.bytes, List.takeWhile_cons]
    by_cases nul : c = 0
    · subst nul
      rfl
    · rw [if_pos (decide_eq_true nul), front, List.takeWhile_cons, front, List.takeWhile_cons]
      split
      · exact congrArg (c :: ·) ih
      · rfl

/-- `myatoi` is the value of the front, in 32 bits. -/
theorem myatoiLoop_eq (n : ℕ) (s : List UInt8) :
    myatoiLoop (Int32.ofNat n) s = Int32.ofNat (valueFrom n (front s)) := by
  induction s generalizing n with
  | nil => rfl
  | cons c s ih =>
    rw [front, List.takeWhile_cons]
    change (if Digit c then _ else _) = _
    by_cases digit : Digit c
    · have low : '0'.toNat ≤ c.toNat := digit.1
      have next : Int32.ofNat n * 10 + (Int32.ofNat c.toNat - Int32.ofNat '0'.toNat) =
          Int32.ofNat (n * 10 + (c.toNat - '0'.toNat)) := by
        rw [Int32.ofNat_add, Int32.ofNat_mul, Int32.ofNat_sub _ _ low]
        rfl
      rw [if_pos digit, next, ih, if_pos (decide_eq_true digit)]
      rfl
    · rw [if_neg digit, if_neg (by rwa [decide_eq_true_eq])]
      rfl

theorem myatoi_eq (s : List UInt8) : myatoi s = Int32.ofNat (value (front s)) := myatoiLoop_eq 0 s

theorem roomIndex?_myatoi {s : List UInt8} {i : Fin numRooms} :
    roomIndex? (myatoi s) = some i ↔ value (front s) % 2 ^ 32 = i := by
  have small : i.val < 5 := i.isLt
  have size : ((Int32.size : ℕ) : ℤ) = 2 ^ 32 := rfl
  rw [roomIndex?_eq_some_iff, myatoi_eq, Int32.toInt_ofNat', Int.bmod_def, size]
  split <;> omega

/-- The two commands that act on a room. -/
inductive Verb where
  | occupied
  | empty
deriving DecidableEq, Repr

def Verb.word : Verb → List UInt8
  | .occupied => Printf.ascii "occupied"
  | .empty => Printf.ascii "empty"

/-- The system call of a command. -/
def Verb.call : Verb → Int32 → Syscall
  | .occupied => .setOccupied
  | .empty => .setEmpty

/-- `roomctl` changes a room only if it is told its number, and reports any other argument without a change. -/
structure ActsAsTold (k : Kernel) (verb : Verb) (s : List UInt8) : Prop where
  changes : ∀ i : Fin numRooms, (Roomctl.main [verb.word, s] k).kernel.rooms.get i ≠ k.rooms.get i →
    Numeral (Printf.bytes s) ∧ value (Printf.bytes s) = i
  reports : ¬ (Numeral (Printf.bytes s) ∧ value (Printf.bytes s) < numRooms) →
    Roomctl.main [verb.word, s] k = ⟨k, [Roomctl.invalid (myatoi s)], 1⟩

theorem main_verb (verb : Verb) (s : List UInt8) (k : Kernel) :
    ∃ done, Roomctl.main [verb.word, s] k = Roomctl.change verb.call done (myatoi s) k := by
  cases verb <;> exact ⟨_, rfl⟩

section Run

variable {k : Kernel} {roomid : Int32} {i : Fin numRooms} {verb : Verb}

section

variable (ready : k.lightingInitialized ≠ 0)
include ready

theorem syscall_refused (missing : roomIndex? roomid = none) :
    k.syscall (verb.call roomid) = (k, .int (-1)) := by
  have guard : k.ensureInit = k := if_neg ready
  cases verb with
  | occupied => simp only [Verb.call, syscall, sysSetOccupied, setRoomOccupied, missing, guard]
  | empty => simp only [Verb.call, syscall, sysSetEmpty, setRoomEmpty, missing, guard]

theorem syscall_taken (found : roomIndex? roomid = some i) :
    ∃ room, k.syscall (verb.call roomid) = ({ k with rooms := k.rooms.set i room i.isLt }, .int 0) := by
  have guard : k.ensureInit = k := if_neg ready
  cases verb with
  | occupied => exact ⟨_, by simp only [Verb.call, syscall, sysSetOccupied, setRoomOccupied, found, guard]; rfl⟩
  | empty => exact ⟨_, by simp only [Verb.call, syscall, sysSetEmpty, setRoomEmpty, found, guard]; rfl⟩

theorem syscall_roomStatus (roomid : Int32) :
    (k.syscall (.roomStatus roomid true)).1 = k := by
  have unchanged : (k.sysRoomStatus roomid true).1 = (k.roomStatus roomid).1 := by
    simp only [sysRoomStatus, apply_ite Prod.fst, ite_self]
  exact unchanged.trans ((k.roomStatus_fst roomid).trans (if_neg ready))

theorem change_refused (missing : roomIndex? roomid = none) (done : String) :
    Roomctl.change verb.call done roomid k = ⟨k, [Roomctl.invalid roomid], 1⟩ := by
  rw [Roomctl.change, syscall_refused ready missing]
  rfl

end

theorem change_taken (verb : Verb) (ready : k.lightingInitialized ≠ 0) (found : roomIndex? roomid = some i)
    (done : String) :
    (Roomctl.change verb.call done roomid k).status = 0 ∧
      ∀ j ≠ i, (Roomctl.change verb.call done roomid k).kernel.rooms.get j = k.rooms.get j := by
  obtain ⟨room, called⟩ : ∃ room, k.syscall (verb.call roomid) = ({ k with rooms := k.rooms.set i room }, .int 0) :=
    syscall_taken ready found
  have accepted : ¬ ret (.int 0) < 0 := by decide
  rw [Roomctl.change, called]
  dsimp only
  rw [if_neg accepted]
  refine ⟨rfl, fun j other => ?_⟩
  dsimp only
  rw [syscall_roomStatus (k := { k with rooms := k.rooms.set i room }) ready]
  exact Vector.getElem_set_ne i.isLt j.isLt fun same => other (Fin.ext same.symm)

end Run

/-- `roomctl` does as it is told exactly if the front of its argument is, in 32 bits, no room, or the argument is the
numeral of a room. -/
theorem actsAsTold_iff (k : Kernel) (ready : k.lightingInitialized ≠ 0) (verb : Verb) (s : List UInt8) :
    ActsAsTold k verb s ↔
      numRooms ≤ value (front s) % 2 ^ 32 ∨ Numeral (Printf.bytes s) ∧ value (Printf.bytes s) < numRooms := by
  obtain ⟨done, ran⟩ := main_verb verb s k
  cases asked : roomIndex? (myatoi s) with
  | none =>
    have run : Roomctl.main [verb.word, s] k = ⟨k, [Roomctl.invalid (myatoi s)], 1⟩ :=
      ran.trans (change_refused ready asked done)
    have outside : numRooms ≤ value (front s) % 2 ^ 32 := by
      by_contra inside
      have found : roomIndex? (myatoi s) = some ⟨value (front s) % 2 ^ 32, not_le.mp inside⟩ :=
        roomIndex?_myatoi.mpr rfl
      rw [asked] at found
      cases found
    refine ⟨fun _ => .inl outside, fun _ => ⟨fun i changed => ?_, fun _ => run⟩⟩
    rw [run] at changed
    exact absurd rfl changed
  | some i =>
    have inside := roomIndex?_myatoi.mp asked
    obtain ⟨status, others⟩ := change_taken verb ready asked done
    rw [← ran] at status others
    constructor
    · intro told
      refine .inr (not_not.mp fun other => ?_)
      rw [told.reports other] at status
      cases status
    · rintro (outside | ⟨numeral, small⟩)
      · rw [inside] at outside
        exact absurd i.isLt (not_lt.mpr outside)
      · refine ⟨fun j changed => ⟨numeral, ?_⟩, fun other => absurd ⟨numeral, small⟩ other⟩
        obtain rfl : j = i := by_contra fun other => changed (others j other)
        rw [← front_bytes, front_of_numeral numeral] at inside
        rwa [Nat.mod_eq_of_lt (lt_trans small (by decide))] at inside

/-- `roomctl occupied 3` does as it is told. -/
theorem actsAsTold_iff_three : ActsAsTold Kernel.boot .occupied (Printf.ascii "3") := by
  refine (actsAsTold_iff Kernel.boot (by decide +kernel) .occupied (Printf.ascii "3")).mpr (.inr ⟨⟨?_, ?_⟩, ?_⟩)
  · decide +kernel
  · decide +kernel
  · decide +kernel

/-- `roomctl occupied abc` turns the light of room 0 on and reports success. -/
theorem occupied_abc : ¬ Numeral (Printf.bytes (Printf.ascii "abc")) ∧
    (Roomctl.main [Verb.occupied.word, Printf.ascii "abc"] Kernel.boot).status = 0 ∧
    ¬ (Kernel.boot.rooms.get 0).Lit ∧
    ((Roomctl.main [Verb.occupied.word, Printf.ascii "abc"] Kernel.boot).kernel.rooms.get 0).Lit := by
  refine ⟨fun numeral => absurd (numeral.2 97 (by decide +kernel)) (by decide), ?_, ?_, ?_⟩
  · decide +kernel
  · decide +kernel
  · decide +kernel

end Xv6.Lights
