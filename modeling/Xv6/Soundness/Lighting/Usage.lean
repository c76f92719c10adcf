import Mathlib.Algebra.BigOperators.Fin
import Xv6.Soundness.Lighting.History

/-! # The usage counter is the number of lit interrupts

The counter of a room is driven by four operations of the kernel. Its value is nevertheless a
function of the history alone: the number of clock interrupts since the last initialization at which
the room was lit by its history, modulo `2 ^ 32`. An interrupt is charged before it applies the
on-time rule, so the interrupt that turns a light off still counts.
-/

namespace Xv6.Lighting

open Machine List
open scoped Classical

/-- Before an interrupt with this past, the history says that room `i` is lit: there is a latest
occupation, with no vacation, initialization, expiring clock interrupt or expiring shutoff call
after it. -/
def LitAt (i : Fin numRooms) (past : List Event) : Prop :=
  ∃ before since, Hold i past before since ∧ ¬ TimedOut since

/-- The positions of the clock interrupts since the last initialization at which room `i` is lit. -/
noncomputable def litPositions (i : Fin numRooms) (events : List Event) : List ℕ :=
  (List.range events.length).filter fun n => events[n]? = some .clockintr ∧
    (∀ event ∈ events.drop n, event ≠ .call .lightingInit) ∧ LitAt i (events.take n)

/-- How many clock interrupts room `i` was lit at, since the last initialization. -/
noncomputable def litInterrupts (i : Fin numRooms) (events : List Event) : ℕ :=
  (litPositions i events).length

/-- Every successful occupation of the run is made at a nonzero tick value. -/
def Kernel.OccupiedAtNonzero (k : Kernel) (events : List Event) : Prop :=
  ∀ i before occupation after, events = before ++ occupation :: after → occupation.Occupies i →
    (run Kernel.step k.lightingInit before).ticks ≠ 0

/-- One event adds a lit interrupt, clears the count, or leaves it. -/
theorem litInterrupts_concat (i : Fin numRooms) (past : List Event) (event : Event) :
    litInterrupts i (past ++ [event]) = if event = .call .lightingInit then 0 else
      litInterrupts i past + if event = .clockintr ∧ LitAt i past then 1 else 0 := by
  have earlier : ∀ n ∈ range past.length,
      ((past ++ [event])[n]? = some .clockintr ∧
        (∀ item ∈ (past ++ [event]).drop n, item ≠ .call .lightingInit) ∧
        LitAt i ((past ++ [event]).take n)) ↔
      event ≠ .call .lightingInit ∧ past[n]? = some .clockintr ∧
        (∀ item ∈ past.drop n, item ≠ .call .lightingInit) ∧ LitAt i (past.take n) := by
    intro n member
    have bound : n < past.length := mem_range.mp member
    rw [getElem?_append_left bound, drop_append_of_le_length bound.le,
      take_append_of_le_length bound.le]
    simp only [mem_append, mem_singleton, or_imp, forall_and, forall_eq]
    tauto
  have last : ((past ++ [event])[past.length]? = some .clockintr ∧
      (∀ item ∈ (past ++ [event]).drop past.length, item ≠ .call .lightingInit) ∧
      LitAt i ((past ++ [event]).take past.length)) ↔ event = .clockintr ∧ LitAt i past := by
    simp only [getElem?_concat_length, Option.some.injEq, drop_left, mem_singleton,
      forall_eq, take_left]
    constructor
    · rintro ⟨clock, _, lit⟩
      exact ⟨clock, lit⟩
    · rintro ⟨rfl, lit⟩
      exact ⟨rfl, by simp, lit⟩
  unfold litInterrupts litPositions
  rw [length_append, length_singleton, range_succ, filter_append,
    length_append, filter_congr (q := fun n => decide (event ≠ .call .lightingInit ∧
      past[n]? = some .clockintr ∧ (∀ item ∈ past.drop n, item ≠ .call .lightingInit) ∧
      LitAt i (past.take n))) (fun n member => by simp only [earlier n member])]
  simp only [filter_cons, filter_nil, last]
  by_cases init : event = .call .lightingInit
  · simp [init]
  · simp only [init, ne_eq, not_false_eq_true, true_and, ↓reduceIte, Nat.add_left_cancel_iff]
    split <;> simp_all

variable {k : Kernel} {events : List Event}

/-- One event charges a lit room, clears it, or leaves its counter. -/
theorem Kernel.Shows.step_usage {house : Fin numRooms → Meter} (agree : k.Shows house)
    (event : Event) (i : Fin numRooms) :
    ((k.step event).rooms.get i).usageTicks = if event = .call .lightingInit then 0 else
      (k.rooms.get i).usageTicks + if event = .clockintr ∧ (k.rooms.get i).Lit then 1 else 0 := by
  simp only [((agree.step event).rooms i).usage, (agree.rooms i).usage, (agree.rooms i).lit_iff]
  generalize house i = m
  rcases m with ⟨lamp, usage⟩
  cases event with
  | clockintr => cases lamp <;> simp [Meter.react, Meter.charge]
  | call syscall =>
    cases syscall with
    | lightingInit => simp [Meter.react, Meter.fresh]
    | roomStatus | getUsage | autoShutoff => simp [Meter.react]
    | setOccupied roomid =>
      simp only [Meter.react]
      split <;> simp [Meter.occupy]
    | setEmpty roomid =>
      simp only [Meter.react]
      split <;> simp [Meter.vacate]

/-- When no light is dated zero, being lit is being lit by history. -/
theorem lit_iff_litAt (nonzero : k.OccupiedAtNonzero events) (i : Fin numRooms) :
    ((run Kernel.step k.lightingInit events).rooms.get i).Lit ↔ LitAt i events := by
  constructor
  · intro lit
    obtain ⟨before, since, hold, dated, young⟩ := (lit_iff_litByHistory k events i _).mp ⟨lit, rfl⟩
    refine ⟨before, since, hold, young.resolve_left ?_⟩
    obtain ⟨occupation, split, occupies⟩ := hold.split
    rw [dated, ← (reachable_clock k before).2]
    exact nonzero i before occupation since split occupies
  · rintro ⟨before, since, hold, fresh⟩
    exact ((lit_iff_litByHistory k events i _).mpr ⟨before, since, hold, rfl, .inr fresh⟩).1

theorem Kernel.OccupiedAtNonzero.of_append {past rest : List Event}
    (nonzero : k.OccupiedAtNonzero (past ++ rest)) : k.OccupiedAtNonzero past := by
  rintro i before occupation after rfl occupies
  exact nonzero i before occupation (after ++ rest) (by simp) occupies

/-- The counter of every room counts its lit interrupts. -/
theorem usageTicks_eq_litInterrupts (nonzero : k.OccupiedAtNonzero events) (i : Fin numRooms) :
    ((run Kernel.step k.lightingInit events).rooms.get i).usageTicks =
      UInt32.ofNat (litInterrupts i events) := by
  induction events using reverseRecOn with
  | nil =>
    rw [run_nil, (k.lightingInit_shows.rooms i).usage]
    rfl
  | append_singleton past event ih =>
    obtain ⟨⟨house, agree⟩, _⟩ := reachable_clock k past
    have earlier := nonzero.of_append
    rw [run_append, run_cons, run_nil, agree.step_usage, ih earlier, litInterrupts_concat]
    simp only [lit_iff_litAt earlier]
    split
    · rfl
    · split <;> simp [UInt32.ofNat_add]

/-- The loop of `get_total_usage` adds up the counters modulo `2 ^ 32`. -/
theorem Kernel.getTotalUsage_toNat (ready : k.lightingInitialized = 1) :
    k.getTotalUsage.2.toNat = (∑ i : Fin numRooms, (k.rooms.get i).usageTicks.toNat) % 2 ^ 32 := by
  have fold : ∀ (items : List Room) (total : UInt32),
      (items.foldl (fun total room => total + room.usageTicks) total).toNat =
        (total.toNat + (items.map fun room => room.usageTicks.toNat).sum) % 2 ^ 32 := by
    intro items
    induction items with
    | nil => simp
    | cons room rest ih =>
      intro total
      rw [foldl_cons, ih, UInt32.toNat_add, map_cons, sum_cons]
      omega
  have listed : (∑ i : Fin numRooms, (k.rooms.get i).usageTicks.toNat) =
      (k.rooms.toList.map fun room => room.usageTicks.toNat).sum := by
    rw [Fin.sum_univ_def]
    congr 1
    apply ext_getElem
    · simp
    · intro n left right
      simp
  rw [listed, getTotalUsage, ensureInit_of_initialized ready, ← Vector.foldl_toList, fold]
  simp

/-- In every run whose occupations all happen at nonzero tick values, each counter is the number of
lit interrupts modulo `2 ^ 32`, and `get_total_usage` is the sum of these numbers. -/
theorem usage_counts_lit_interrupts (k : Kernel) (events : List Event) (nonzero : k.OccupiedAtNonzero events) :
    (∀ i : Fin numRooms, ((run Kernel.step k.lightingInit events).rooms.get i).usageTicks.toNat =
      litInterrupts i events % 2 ^ 32) ∧
    (run Kernel.step k.lightingInit events).getTotalUsage.2.toNat =
      (∑ i : Fin numRooms, litInterrupts i events) % 2 ^ 32 := by
  have each (i : Fin numRooms) : ((run Kernel.step k.lightingInit events).rooms.get i).usageTicks.toNat =
      litInterrupts i events % 2 ^ 32 := by
    rw [usageTicks_eq_litInterrupts nonzero, UInt32.toNat_ofNat']
  obtain ⟨⟨house, agree⟩, _⟩ := reachable_clock k events
  refine ⟨each, ?_⟩
  rw [Kernel.getTotalUsage_toNat agree.ready, Finset.sum_nat_mod Finset.univ _ (litInterrupts · events)]
  exact congrArg (· % 2 ^ 32) (Finset.sum_congr rfl fun i _ => each i)

/-- The theorem applies to a run from boot that occupies a room at tick 1. -/
theorem usage_counts_lit_interrupts_boot :
    (∀ i : Fin numRooms, ((run Kernel.step Kernel.bss.lightingInit
        [.clockintr, .call (.setOccupied 0), .clockintr]).rooms.get i).usageTicks.toNat =
      litInterrupts i [.clockintr, .call (.setOccupied 0), .clockintr] % 2 ^ 32) ∧
    (run Kernel.step Kernel.bss.lightingInit
        [.clockintr, .call (.setOccupied 0), .clockintr]).getTotalUsage.2.toNat =
      (∑ i : Fin numRooms, litInterrupts i [.clockintr, .call (.setOccupied 0), .clockintr]) % 2 ^ 32 := by
  apply usage_counts_lit_interrupts
  intro i before occupation after split occupies
  match before, split with
  | [], split =>
    obtain ⟨rfl, _⟩ := List.cons.inj split
    exact absurd rfl occupies.ne_clockintr
  | [first], split =>
    obtain ⟨rfl, _⟩ := List.cons.inj split
    decide +kernel
  | [first, second], split =>
    obtain ⟨rfl, _⟩ := List.cons.inj (List.cons.inj (List.cons.inj split).2).2
    exact absurd rfl occupies.ne_clockintr
  | first :: second :: third :: rest, split => simp at split

end Xv6.Lighting
