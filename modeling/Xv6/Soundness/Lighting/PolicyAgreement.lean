import Xv6.Soundness.Lighting.Refinement

/-! # Three entries to one policy

The timer passes its own limit to the shutoff policy and the system call passes the caller's
argument on, so the documented single threshold is not what is applied. In reachable states the
entries agree exactly when no lit, dated light has an age between the smallest and the largest of
the limits involved.
-/

namespace Xv6.Lighting

open Machine

/-- The rooms whose light went from on to off. -/
def turnedOff (before after : Rooms) : Set (Fin numRooms) :=
  { i | (before.get i).Lit ∧ ¬ (after.get i).Lit }

/-- Two calls of `auto_shutoff` and `lighting_tick` turn off the same lights, and the calls report
the same count. -/
def Kernel.OnePolicy (k : Kernel) (t1 t2 : Int32) : Prop :=
  turnedOff k.rooms (k.autoShutoff t1).1.rooms = turnedOff k.rooms (k.autoShutoff t2).1.rooms ∧
    turnedOff k.rooms (k.autoShutoff t1).1.rooms = turnedOff k.rooms k.lightingTick.rooms ∧
    (k.autoShutoff t1).2 = (k.autoShutoff t2).2

/-- The limits that the two calls and the timer put to the policy. -/
def smallestLimit (t1 t2 : Int32) : ℕ :=
  min (min (shutoffLimit t1).toNat (shutoffLimit t2).toNat) (shutoffLimit lightingTickTimeout).toNat

def largestLimit (t1 t2 : Int32) : ℕ :=
  max (max (shutoffLimit t1).toNat (shutoffLimit t2).toNat) (shutoffLimit lightingTickTimeout).toNat

/-- A lit and dated light is old enough for one of the limits and too young for another. -/
def Kernel.Disputed (k : Kernel) (t1 t2 : Int32) (i : Fin numRooms) : Prop :=
  (k.rooms.get i).Lit ∧ (k.rooms.get i).lightOnSince ≠ 0 ∧
    smallestLimit t1 t2 ≤ (k.ticks - (k.rooms.get i).lightOnSince).toNat ∧
    (k.ticks - (k.rooms.get i).lightOnSince).toNat < largestLimit t1 t2

namespace Kernel.Shows

variable {k : Kernel} {house : Fin numRooms → Meter}

/-- On meters the policy turns off the expired lights and counts them. -/
theorem autoShutoffImpl_expired (agree : k.Shows house) (timeoutTicks verbose : Int32) :
    (∀ i, i ∈ turnedOff k.rooms (k.autoShutoffImpl timeoutTicks verbose).1.rooms ↔
      (k.rooms.get i).expired k.ticks (shutoffLimit timeoutTicks)) ∧
    (k.autoShutoffImpl timeoutTicks verbose).2.1 = k.rooms.toList.countP fun room =>
      decide (room.expired k.ticks (shutoffLimit timeoutTicks)) := by
  simp only [Kernel.autoShutoffImpl, Kernel.ensureInit_of_initialized agree.ready,
    shutoffSection_of_attended _ _ agree.attended, turnedOff, Set.mem_ofPred_eq]
  refine ⟨fun i => maxOnTimeRule_off_iff _ _ _ _ i, ?_⟩
  rw [maxOnTimeRule_eq, Nat.zero_add]

theorem onePolicy_iff_expired (agree : k.Shows house) (t1 t2 : Int32) :
    k.OnePolicy t1 t2 ↔ ∀ i : Fin numRooms,
      ((k.rooms.get i).expired k.ticks (shutoffLimit t1) ↔ (k.rooms.get i).expired k.ticks (shutoffLimit t2)) ∧
      ((k.rooms.get i).expired k.ticks (shutoffLimit t1) ↔
        (k.rooms.get i).expired k.ticks (shutoffLimit lightingTickTimeout)) := by
  obtain ⟨off1, count1⟩ := agree.autoShutoffImpl_expired t1 0
  obtain ⟨off2, count2⟩ := agree.autoShutoffImpl_expired t2 0
  obtain ⟨offTick, _⟩ := agree.autoShutoffImpl_expired lightingTickTimeout 1
  constructor
  · rintro ⟨calls, timer, _⟩ i
    rw [← off1 i, ← off2 i, ← offTick i]
    exact ⟨Set.ext_iff.mp calls i, Set.ext_iff.mp timer i⟩
  · intro same
    refine ⟨Set.ext fun i => ?_, Set.ext fun i => ?_, ?_⟩
    · exact (off1 i).trans ((same i).1.trans (off2 i).symm)
    · exact (off1 i).trans ((same i).2.trans (offTick i).symm)
    · refine count1.trans (Eq.trans (List.countP_congr fun room member => ?_) count2.symm)
      obtain ⟨i, bound, rfl⟩ := List.getElem_of_mem member
      simpa using (same ⟨i, by simpa using bound⟩).1

end Kernel.Shows

/-- Agreement on every limit is the absence of a light between the limits. -/
theorem expired_agree_iff (k : Kernel) (t1 t2 : Int32) (i : Fin numRooms) :
    (((k.rooms.get i).expired k.ticks (shutoffLimit t1) ↔ (k.rooms.get i).expired k.ticks (shutoffLimit t2)) ∧
      ((k.rooms.get i).expired k.ticks (shutoffLimit t1) ↔
        (k.rooms.get i).expired k.ticks (shutoffLimit lightingTickTimeout))) ↔ ¬ k.Disputed t1 t2 i := by
  simp only [Room.expired, Kernel.Disputed, smallestLimit, largestLimit, gt_iff_lt, ge_iff_le,
    UInt32.pos_iff_ne_zero, UInt32.le_iff_toNat_le]
  generalize k.rooms.get i = room
  by_cases dated : room.Lit ∧ room.lightOnSince ≠ 0
  · simp only [dated.1, dated.2, true_and, ne_eq, not_false_eq_true]
    omega
  · have undated (test : Prop) : room.Lit ∧ room.lightOnSince ≠ 0 ∧ test ↔ False := by tauto
    simp only [undated, not_false_eq_true, and_self]

/-- In a reachable state at any tick value, the two calls and the timer apply one policy exactly
when no lit and dated light has an age between their limits. -/
theorem onePolicy_iff_undisputed (k : Kernel) (ops : List Op) (now : UInt32) (t1 t2 : Int32) :
    ({ run Op.apply k.lightingInit ops with ticks := now } : Kernel).OnePolicy t1 t2 ↔
      ∀ i, ¬ ({ run Op.apply k.lightingInit ops with ticks := now } : Kernel).Disputed t1 t2 i := by
  obtain ⟨house, agree⟩ := reachable_shows k ops
  have moved : ({ run Op.apply k.lightingInit ops with ticks := now } : Kernel).Shows house :=
    ⟨agree.ready, agree.rooms⟩
  rw [moved.onePolicy_iff_expired]
  exact forall_congr' fun i => expired_agree_iff _ t1 t2 i

/-- A light switched on at tick 1 is turned off by `auto_shutoff(1)` at tick 2, and by neither
`auto_shutoff(0)` nor the timer. -/
theorem onePolicy_fails : ¬ ∀ (k : Kernel) (ops : List Op) (now : UInt32) (t1 t2 : Int32),
    ({ run Op.apply k.lightingInit ops with ticks := now } : Kernel).OnePolicy t1 t2 := by
  intro agreed
  have counts := (agreed .bss [.tick, .setRoomOccupied 0] 2 1 0).2.2
  revert counts
  decide +kernel

end Xv6.Lighting
