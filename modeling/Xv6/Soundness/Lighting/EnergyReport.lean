import Mathlib.Algebra.Order.BigOperators.Group.Finset
import Xv6.Model.User.Lights
import Xv6.Soundness.Lighting.Interleaving
import Xv6.Soundness.Lighting.ShutoffReport
import Xv6.Soundness.Lighting.TotalUsage

/-! # The report of `energymon`

The report of all rooms is five readings at five times, with anything in between. A counter only grows, as long as the
sum of them fits 32 bits, so that each reading is between its counter at the start and at the end, and so is their sum
between the two totals.
-/

namespace Xv6.Lights.Energymon

open Machine Lighting Kernel

/-- The counter of a room as a number. -/
def counter (k : Kernel) (i : Fin numRooms) : ℕ := (k.rooms.get i).usageTicks.toNat

/-- The sum of all counters once the current tick is charged. -/
def chargedSum (k : Kernel) : ℕ := ∑ i, (counter k i + if (k.rooms.get i).Lit then 1 else 0)

/-- No other process initializes the rooms, and a charge keeps the true sum of the counters below `2 ^ 32`. -/
def Allowed (w : Watch) (step : Step) : Prop :=
  step ≠ .other .lightingInit ∧ (step = .other .updateUsage → chargedSum w.sys.kernel < 2 ^ 32)

instance (w : Watch) (step : Step) : Decidable (Allowed w step) := inferInstanceAs (Decidable (_ ∧ (_ → _)))

section Steps

variable {k : Kernel} {s s' : System} {act : Act} {i : Fin numRooms}

theorem counter_shutoffAt (k : Kernel) (now : UInt32) (timeoutTicks : Int32) (i : Fin numRooms) :
    counter (k.shutoffAt now timeoutTicks) i = counter k i := by
  rcases dimmed_shutoffSection now (shutoffLimit timeoutTicks) k.rooms i with same | ⟨-, same⟩ <;>
    rw [counter, shutoffAt, same] <;> rfl

/-- A charge adds one to the counters of the lit rooms, while their sum fits. -/
theorem counter_updateUsage (ready : k.lightingInitialized = 1) (fits : chargedSum k < 2 ^ 32) (i : Fin numRooms) :
    counter k.updateUsage i = counter k i + if (k.rooms.get i).Lit then 1 else 0 := by
  have small : (counter k i + if (k.rooms.get i).Lit then 1 else 0) < 2 ^ 32 :=
    lt_of_le_of_lt (Finset.single_le_sum (f := fun i => counter k i + if (k.rooms.get i).Lit then 1 else 0)
      (fun _ _ => Nat.zero_le _) (Finset.mem_univ i)) fits
  have charged : k.updateUsage.rooms.get i = (k.rooms.get i).countUsage := by
    rw [updateUsage, if_neg (by rw [ready]; decide)]
    simp only [Vector.get_eq_getElem_val, Vector.getElem_map]
  rw [counter, charged, Room.countUsage]
  split
  · next lit =>
    rw [if_pos lit] at small
    rw [UInt32.toNat_add]
    exact Nat.mod_eq_of_lt small
  · rfl

theorem counter_setRoom (k : Kernel) (j : Fin numRooms) {room : Room}
    (same : room.usageTicks = (k.rooms.get j).usageTicks)
    (i : Fin numRooms) : counter { k with rooms := k.rooms.set j room j.isLt } i = counter k i := by
  by_cases here : j = i
  · subst here
    rw [counter, counter, ← same]
    exact congrArg (fun room : Room => room.usageTicks.toNat) (Vector.getElem_set_self j.isLt)
  · have kept : (k.rooms.set j room j.isLt)[i] = k.rooms[i] :=
      Vector.getElem_set_ne j.isLt i.isLt fun same => here (Fin.ext same)
    exact congrArg (fun room : Room => room.usageTicks.toNat) kept

/-- What a step of the handler or of another process does to the counters. -/
theorem counter_step (ready : s.kernel.lightingInitialized = 1) (other : act ≠ .lightingInit)
    (fits : act = .updateUsage → chargedSum s.kernel < 2 ^ 32) (enabled : s.step? act = some s') (i : Fin numRooms) :
    counter s'.kernel i = counter s.kernel i ∨ act = .updateUsage ∧
      counter s'.kernel i = counter s.kernel i + if (s.kernel.rooms.get i).Lit then 1 else 0 := by
  have guard := ensureInit_of_initialized ready
  cases System.Step.of_step? ready enabled with
  | tick | lightingSample | shutoffSample => exact .inl rfl
  | updateUsage => exact .inr ⟨rfl, counter_updateUsage ready (fits rfl) i⟩
  | lightingSection | shutoffSection => exact .inl (counter_shutoffAt ..)
  | lightingInit => exact absurd rfl other
  | setRoomOccupied =>
    refine .inl ?_
    simp only [Op.apply, setRoomOccupied, guard]
    split
    · rfl
    · exact counter_setRoom _ _ (by rfl) i
  | setRoomEmpty =>
    refine .inl ?_
    simp only [Op.apply, setRoomEmpty, guard]
    split
    · rfl
    · exact counter_setRoom _ _ (by rfl) i

theorem ready_step (ready : s.kernel.lightingInitialized = 1) (enabled : s.step? act = some s') :
    s'.kernel.lightingInitialized = 1 := by
  cases System.Step.of_step? ready enabled with
  | tick | lightingSample | lightingSection | shutoffSample | shutoffSection => exact ready
  | _ => exact Op.apply_initialized ready _

end Steps

/-- The rooms that the report has read. -/
def readRooms (i : ℕ) : Finset (Fin numRooms) := Finset.univ.filter fun j => j.val < i

theorem readRooms_succ {i : ℕ} (inside : i < numRooms) : readRooms (i + 1) = insert ⟨i, inside⟩ (readRooms i) := by
  ext j
  simp only [readRooms, Finset.mem_filter, Finset.mem_univ, true_and, Finset.mem_insert, Fin.ext_iff]
  omega

theorem notMem_readRooms {i : ℕ} (inside : i < numRooms) : (⟨i, inside⟩ : Fin numRooms) ∉ readRooms i := by
  simp [readRooms]

theorem readRooms_all : readRooms numRooms = Finset.univ := by
  ext j
  simp [readRooms]

theorem round_eq {k : Kernel} {r : Report} (ready : k.lightingInitialized = 1) (inside : r.i < numRooms) :
    (r.round k).1 = k ∧ (r.round k).2.i = r.i + 1 ∧
      (r.round k).2.total = r.total + (k.rooms.get ⟨r.i, inside⟩).usageTicks := by
  have found : roomIndex? (Int32.ofNat r.i) = some ⟨r.i, inside⟩ := by
    have all : ∀ i : Fin numRooms, roomIndex? (Int32.ofNat i) = some i := by decide
    exact all ⟨r.i, inside⟩
  have called :
      k.syscall (.roomStatus (Int32.ofNat r.i) true) =
      (k, { Reply.int 0 with copied := some (k.rooms.get ⟨r.i, inside⟩).stat }) := by
    simp only [syscall, sysRoomStatus, roomStatus, found, ensureInit_of_initialized ready]
    rfl
  have accepted : ret { Reply.int 0 with copied := some (k.rooms.get ⟨r.i, inside⟩).stat } = 0 := by
    change (0 : Int64).toUInt64.toUInt32.toInt32 = 0
    decide
  rw [Report.round, called]
  dsimp only
  rw [if_pos accepted]
  exact ⟨rfl, rfl, rfl⟩

/-- What holds between two steps: each reading is between the counter at the start and the counter now. -/
structure Bracketed (w₀ w : Watch) : Prop where
  ready : w.sys.kernel.lightingInitialized = 1
  fits : ∑ i, counter w.sys.kernel i < 2 ^ 32
  grown : ∀ i, counter w₀.sys.kernel i ≤ counter w.sys.kernel i
  inside : w.report.i ≤ numRooms
  above : ∑ i ∈ readRooms w.report.i, counter w₀.sys.kernel i ≤ w.report.total.toNat
  below : w.report.total.toNat ≤ ∑ i ∈ readRooms w.report.i, counter w.sys.kernel i

theorem Bracketed.step {w₀ w w' : Watch} {step : Step} (bracketed : Bracketed w₀ w) (allowed : Allowed w step)
    (enabled : w.step? step = some w') : Bracketed w₀ w' := by
  obtain ⟨ready, fits, grown, inside, above, below⟩ := bracketed
  cases step with
  | read =>
    simp only [Watch.step?] at enabled
    split at enabled
    · next more =>
      obtain rfl := Option.some.inj enabled
      obtain ⟨kept, next, total⟩ := round_eq ready more
      have read : counter w.sys.kernel ⟨w.report.i, more⟩ + ∑ i ∈ readRooms w.report.i, counter w.sys.kernel i ≤
          ∑ i, counter w.sys.kernel i := by
        rw [← Finset.sum_insert (notMem_readRooms more)]
        exact Finset.sum_le_univ_sum_of_nonneg fun _ => Nat.zero_le _
      have sum : (w.report.round w.sys.kernel).2.total.toNat =
          w.report.total.toNat + counter w.sys.kernel ⟨w.report.i, more⟩ := by
        rw [total, UInt32.toNat_add]
        refine Nat.mod_eq_of_lt ?_
        change w.report.total.toNat + counter w.sys.kernel ⟨w.report.i, more⟩ < _
        omega
      refine ⟨?_, ?_, ?_, ?_, ?_, ?_⟩
      · dsimp only
        rwa [kept]
      · dsimp only
        rwa [kept]
      · dsimp only
        rwa [kept]
      · dsimp only
        omega
      · dsimp only
        rw [next, readRooms_succ more, Finset.sum_insert (notMem_readRooms more), sum]
        have := grown ⟨w.report.i, more⟩
        omega
      · dsimp only
        rw [next, kept, readRooms_succ more, Finset.sum_insert (notMem_readRooms more), sum]
        omega
    · cases enabled
  | other act =>
    obtain ⟨s', acted, rfl⟩ := Option.map_eq_some_iff.mp enabled
    have known : act ≠ .lightingInit := fun same => allowed.1 (congrArg Step.other same)
    have charge : act = .updateUsage → chargedSum w.sys.kernel < 2 ^ 32 :=
      fun same => allowed.2 (congrArg Step.other same)
    have counters := counter_step ready known charge acted
    have more (i : Fin numRooms) : counter w.sys.kernel i ≤ counter s'.kernel i := by
      rcases counters i with same | ⟨-, charged⟩ <;> omega
    refine ⟨ready_step ready acted, ?_, fun i => (grown i).trans (more i), inside, above,
      below.trans (Finset.sum_le_sum fun i _ => more i)⟩
    dsimp only
    by_cases charging : act = .updateUsage
    · refine lt_of_le_of_lt (Finset.sum_le_sum fun i _ => ?_) (charge charging)
      rcases counters i with same | ⟨-, charged⟩ <;> omega
    · refine lt_of_le_of_lt (Finset.sum_le_sum fun i _ => ?_) fits
      rcases counters i with same | ⟨charges, -⟩
      · exact same.le
      · exact absurd charges charging

theorem total_eq {k : Kernel} (ready : k.lightingInitialized = 1) (fits : ∑ i, counter k i < 2 ^ 32) :
    k.getTotalUsage.2.toNat = ∑ i, counter k i := (getTotalUsage_toNat ready).trans (Nat.mod_eq_of_lt fits)

/-- The total that `energymon` prints is between `get_total_usage` before its first reading and after its last one. -/
theorem report_bracketed (w w' : Watch) (steps : List Step) (ready : w.sys.kernel.lightingInitialized = 1)
    (fresh : w.report = start) (fits : ∑ i, counter w.sys.kernel i < 2 ^ 32) (along : Along Watch.step? Allowed w steps)
    (reached : run? Watch.step? w steps = some w') (finished : w'.report.i = numRooms) :
    ∃ total, ⟨"  TOTAL HOUSE USAGE: %u ticks\n", [uint total]⟩ ∈ w'.report.finish ∧
      w.sys.kernel.getTotalUsage.2 ≤ total ∧ total ≤ w'.sys.kernel.getTotalUsage.2 := by
  have begun : Bracketed w w := by
    refine ⟨ready, fits, fun _ => le_rfl, ?_, ?_, ?_⟩
    · rw [fresh]
      exact Nat.zero_le _
    · rw [fresh]
      exact le_rfl
    · rw [fresh]
      exact Nat.zero_le _
  have ended : Bracketed w w' := run?_along Watch.step? along (fun _ => Bracketed w) begun
    (fun _ _ _ _ bracketed allowed enabled => bracketed.step allowed enabled) reached
  refine ⟨w'.report.total, by simp [Report.finish], ?_, ?_⟩
  · have above := ended.above
    rw [finished, readRooms_all] at above
    rw [UInt32.le_iff_toNat_le, total_eq ready fits]
    exact above
  · have below := ended.below
    rw [finished, readRooms_all] at below
    rw [UInt32.le_iff_toNat_le, total_eq ended.ready ended.fits]
    exact below

/-- A room is lit and charged between the first reading and the others. -/
def litBetween : List Step :=
  [.read, .other (.setRoomOccupied 1), .other .tick, .other .updateUsage, .read, .read, .read, .read]

theorem report_bracketed_litBetween :
    ∃ w' total, run? Watch.step? ⟨System.start Kernel.bss, start⟩ litBetween = some w' ∧
    ⟨"  TOTAL HOUSE USAGE: %u ticks\n", [uint total]⟩ ∈ w'.report.finish ∧
    (System.start Kernel.bss).kernel.getTotalUsage.2 ≤ total ∧ total ≤ w'.sys.kernel.getTotalUsage.2 := by
  have runs : (run? Watch.step? ⟨System.start Kernel.bss, start⟩ litBetween).isSome = true := by decide +kernel
  have last :
      (run? Watch.step? ⟨System.start Kernel.bss, start⟩ litBetween).map (fun w => w.report.i) = some numRooms := by
    decide +kernel
  obtain ⟨w', ran⟩ := Option.isSome_iff_exists.mp runs
  rw [ran] at last
  obtain ⟨total, printed, bounds⟩ :=
    report_bracketed ⟨System.start Kernel.bss, start⟩ w' litBetween rfl rfl (by decide +kernel)
    (by decide +kernel) ran (Option.some.inj last)
  exact ⟨w', total, ran, printed, bounds⟩

end Xv6.Lights.Energymon
