import Xv6.Soundness.Lighting.Usage

/-! # The total against the rooms

`get_total_usage` adds up five counters of 32 bits in a variable of 32 bits. The total that a user program gets is at
least the usage of every room as long as no single counter carries the sum over a multiple of `2 ^ 32`. A house that
is lit all the time gets there within three years of ticks.
-/

namespace Xv6.Lighting

open Machine

/-- The sum of all counters but one. -/
def Kernel.othersUsage (k : Kernel) (i : Fin numRooms) : ℕ :=
  ∑ j ∈ Finset.univ.erase i, (k.rooms.get j).usageTicks.toNat

theorem Kernel.sum_eq_othersUsage (k : Kernel) (i : Fin numRooms) :
    ∑ j : Fin numRooms, (k.rooms.get j).usageTicks.toNat = k.othersUsage i + (k.rooms.get i).usageTicks.toNat :=
  (Finset.sum_erase_add _ _ (Finset.mem_univ i)).symm

theorem Kernel.sysGetUsage_total {k : Kernel} (ready : k.lightingInitialized = 1) :
    (k.sysGetUsage (-1)).2.ret.toNat = (∑ i : Fin numRooms, (k.rooms.get i).usageTicks.toNat) % 2 ^ 32 := by
  rw [← getTotalUsage_toNat ready]
  rfl

theorem Kernel.sysGetUsage_room {k : Kernel} (ready : k.lightingInitialized = 1) (i : Fin numRooms) :
    (k.sysGetUsage (Int32.ofNat i)).2.ret.toNat = (k.rooms.get i).usageTicks.toNat := by
  have room : Int32.ofNat i ≠ -1 := by
    revert i
    decide
  have found : roomIndex? (Int32.ofNat i) = some i := by
    revert i
    decide
  rw [sysGetUsage, if_neg room, getRoomUsage, found, ensureInit_of_initialized ready]
  rfl

/-- A summand is at most the sum modulo `n`, if it does not carry the others over a multiple of `n`. -/
theorem le_add_mod_iff {a b n : ℕ} (positive : 0 < n) : b ≤ (a + b) % n ↔ a / n = (a + b) / n := by
  have whole := Nat.div_add_mod (a + b) n
  have part := Nat.div_add_mod a n
  have grows : a / n ≤ (a + b) / n := Nat.div_le_div_right (Nat.le_add_right a b)
  constructor
  · intro small
    refine le_antisymm grows ?_
    rw [Nat.le_div_iff_mul_le positive, Nat.mul_comm]
    omega
  · intro same
    rw [← same] at whole
    omega

/-- The house total is at least the usage of each room, exactly where adding the room to the others carries nothing out
of 32 bits. -/
theorem total_dominates_iff_noCarry (k : Kernel) (events : List Event) :
    (∀ i : Fin numRooms, ((run Kernel.step k.lightingInit events).sysGetUsage (Int32.ofNat i)).2.ret ≤
      ((run Kernel.step k.lightingInit events).sysGetUsage (-1)).2.ret) ↔
    ∀ i : Fin numRooms, (run Kernel.step k.lightingInit events).othersUsage i / 2 ^ 32 =
      (∑ j : Fin numRooms, ((run Kernel.step k.lightingInit events).rooms.get j).usageTicks.toNat) / 2 ^ 32 := by
  obtain ⟨⟨house, agree⟩, -⟩ := reachable_clock k events
  generalize run Kernel.step k.lightingInit events = s at agree ⊢
  refine forall_congr' fun i => ?_
  rw [UInt64.le_iff_toNat_le, Kernel.sysGetUsage_room agree.ready, Kernel.sysGetUsage_total agree.ready,
    s.sum_eq_othersUsage i]
  exact le_add_mod_iff (by decide)

/-- Every room is occupied, and the clock ticks. -/
def litTick : List Event :=
  [.call (.setOccupied 0), .call (.setOccupied 1), .call (.setOccupied 2), .call (.setOccupied 3),
  .call (.setOccupied 4), .clockintr]

section LitTick

variable {k : Kernel} {house : Fin numRooms → Meter}

theorem Kernel.Shows.lit_setOccupied (agree : k.Shows house) (roomid : Int32) (i : Fin numRooms) :
    ((k.step (.call (.setOccupied roomid))).rooms.get i).Lit ↔ roomIndex? roomid = some i ∨ (k.rooms.get i).Lit := by
  rw [((agree.step _).rooms i).lit_iff, (agree.rooms i).lit_iff, Meter.react]
  split
  · next here => exact ⟨fun _ => .inl here, fun _ => ⟨_, rfl⟩⟩
  · next elsewhere => simp only [elsewhere, false_or]

theorem Kernel.Shows.usage_setOccupied (agree : k.Shows house) (roomid : Int32) (i : Fin numRooms) :
    ((k.step (.call (.setOccupied roomid))).rooms.get i).usageTicks = (k.rooms.get i).usageTicks := by
  rw [agree.step_usage, if_neg nofun, if_neg (fun charged => nomatch charged.1), UInt32.add_zero]

theorem Kernel.Shows.usage_litTick (agree : k.Shows house) (i : Fin numRooms) :
    ((run Kernel.step k litTick).rooms.get i).usageTicks = (k.rooms.get i).usageTicks + 1 := by
  have one := agree.step (.call (.setOccupied 0))
  have two := one.step (.call (.setOccupied 1))
  have three := two.step (.call (.setOccupied 2))
  have four := three.step (.call (.setOccupied 3))
  have five := four.step (.call (.setOccupied 4))
  have every : roomIndex? 4 = some i ∨ roomIndex? 3 = some i ∨ roomIndex? 2 = some i ∨ roomIndex? 1 = some i ∨
      roomIndex? 0 = some i ∨ (k.rooms.get i).Lit := by
    have some : ∀ i : Fin numRooms, roomIndex? 4 = some i ∨ roomIndex? 3 = some i ∨ roomIndex? 2 = some i ∨
      roomIndex? 1 = some i ∨ roomIndex? 0 = some i := by decide
    rcases some i with here | here | here | here | here <;> simp only [here, true_or, or_true]
  rw [← agree.lit_setOccupied, ← one.lit_setOccupied, ← two.lit_setOccupied, ← three.lit_setOccupied,
    ← four.lit_setOccupied] at every
  simp only [litTick, run_cons, run_nil]
  rw [five.step_usage, if_neg nofun, if_pos ⟨rfl, every⟩, four.usage_setOccupied, three.usage_setOccupied,
    two.usage_setOccupied, one.usage_setOccupied, agree.usage_setOccupied]

end LitTick

/-- After a number of ticks in a lit house every counter is at that number. -/
theorem usage_litTicks (k : Kernel) (n : ℕ) (i : Fin numRooms) :
    ((run Kernel.step k.lightingInit (List.replicate n litTick).flatten).rooms.get i).usageTicks = UInt32.ofNat n := by
  induction n with
  | zero =>
    rw [List.replicate_zero, List.flatten_nil, run_nil, (k.lightingInit_shows.rooms i).usage]
    rfl
  | succ n ih =>
    obtain ⟨⟨house, agree⟩, -⟩ := reachable_clock k (List.replicate n litTick).flatten
    rw [List.replicate_succ', List.flatten_concat, run_append, agree.usage_litTick, ih]
    simp [UInt32.ofNat_add]

/-- A house that is lit for 858993460 ticks has used four ticks in total. -/
theorem total_below_room : ∃ events : List Event,
    ((run Kernel.step Kernel.boot events).sysGetUsage (-1)).2.ret = 4 ∧
    ((run Kernel.step Kernel.boot events).sysGetUsage 0).2.ret = 858993460 := by
  refine ⟨(List.replicate 858993460 litTick).flatten, ?_, ?_⟩
  all_goals
    obtain ⟨⟨house, agree⟩, -⟩ := reachable_clock Kernel.bss (List.replicate 858993460 litTick).flatten
    have counters := usage_litTicks Kernel.bss 858993460
  · rw [← UInt64.toNat_inj, Kernel.boot, Kernel.sysGetUsage_total agree.ready]
    simp only [counters]
    decide
  · have room := Kernel.sysGetUsage_room agree.ready 0
    rw [← UInt64.toNat_inj, Kernel.boot]
    refine room.trans ?_
    rw [counters]
    decide

end Xv6.Lighting
