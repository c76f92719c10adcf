import Xv6.Soundness.Lighting.History

/-! # The maximum on-time and the zero timestamp

`light_on_since` is both a timestamp and, when it is zero, the mark of a light that is off. A light
switched on while the clock reads zero is therefore never too old. Along every run, started at any
tick value and of any length, this is the only way in which the timer fails to enforce the maximum
on-time.
-/

namespace Xv6.Lighting

open Machine

/-- Room `i` was occupied successfully fewer than 300 clock interrupts ago. -/
def RecentlyOccupied (i : Fin numRooms) (events : List Event) : Prop :=
  ∃ before occupation after, events = before ++ occupation :: after ∧ occupation.Occupies i ∧
    interrupts after < 300

/-- Right after every clock interrupt of the run, only recently occupied rooms are lit. -/
def Kernel.EnforcesOnTime (k : Kernel) (events : List Event) : Prop :=
  ∀ past rest, events = past ++ .clockintr :: rest → ∀ i : Fin numRooms,
    ((run Kernel.step k.lightingInit (past ++ [.clockintr])).rooms.get i).lightOn = lightOn →
      RecentlyOccupied i (past ++ [.clockintr])

/-- Some room is occupied while the clock reads zero, and then neither occupied again nor vacated
nor initialized for 300 clock interrupts. -/
def Kernel.LeftOnAtZero (k : Kernel) (events : List Event) : Prop :=
  ∃ i past rest before since, events = past ++ rest ∧ Hold i past before since ∧
    (run Kernel.step k.lightingInit before).ticks = 0 ∧ 300 ≤ interrupts since

variable {i : Fin numRooms} {events before since : List Event}

/-- No occupation of the room is more recent than the one that holds it. -/
theorem Hold.interrupts_le (hold : Hold i events before since) {first after : List Event} {occupation : Event}
    (split : events = first ++ occupation :: after) (occupies : occupation.Occupies i) :
    interrupts since ≤ interrupts after := by
  obtain ⟨⟨holding, rfl, _⟩, quiet⟩ := hold
  rcases List.append_eq_append_iff.mp split with ⟨gap, rfl, tail⟩ | ⟨gap, rfl, tail⟩
  · cases gap with
    | nil =>
      obtain ⟨_, rfl⟩ := List.cons.inj tail
      exact le_rfl
    | cons head rest =>
      obtain ⟨_, rfl⟩ := List.cons.inj tail
      exact absurd occupies (quiet occupation (by simp)).1
  · cases gap with
    | nil =>
      obtain ⟨_, rfl⟩ := List.cons.inj tail
      exact le_rfl
    | cons head rest =>
      rw [List.cons_append, List.cons.injEq] at tail
      rw [tail.2, interrupts_append, interrupts_cons]
      omega

/-- A hold with an interrupt in it can be cut right after its last interrupt. -/
theorem Hold.cut (hold : Hold i events before since) (positive : 0 < interrupts since) :
    ∃ past rest prior, events = past ++ .clockintr :: rest ∧
      Hold i (past ++ [.clockintr]) before (prior ++ [.clockintr]) ∧
      interrupts (prior ++ [.clockintr]) = interrupts since := by
  induction since using List.reverseRecOn generalizing events with
  | nil => simp at positive
  | append_singleton prior event ih =>
    obtain ⟨⟨occupation, rfl, occupies⟩, quiet⟩ := hold
    have earlier : Hold i (before ++ occupation :: prior) before prior :=
      ⟨⟨occupation, rfl, occupies⟩, fun item member => quiet item (by simp [member])⟩
    by_cases clock : event = .clockintr
    · subst clock
      exact ⟨before ++ occupation :: prior, [], prior, by simp,
        ⟨⟨occupation, by simp, occupies⟩, quiet⟩, rfl⟩
    · have count : interrupts (prior ++ [event]) = interrupts prior := by
        simp [interrupts_cons, clock]
      rw [count] at positive ⊢
      obtain ⟨past, rest, inner, split, hold, same⟩ := ih earlier positive
      refine ⟨past, rest ++ [event], inner, ?_, hold, same⟩
      rw [← List.cons_append, ← List.append_assoc, split]
      simp

/-- A room left on at tick zero is still lit, and not recently occupied, 300 interrupts later. -/
theorem Kernel.LeftOnAtZero.not_enforces {k : Kernel} (left : k.LeftOnAtZero events) : ¬ k.EnforcesOnTime events := by
  obtain ⟨i, past, rest, before, since, rfl, hold, zero, long⟩ := left
  obtain ⟨early, late, prior, rfl, cut, same⟩ := hold.cut (by omega)
  intro enforced
  have clock := (reachable_clock k before).2
  rw [zero] at clock
  have lit := (lit_iff_litByHistory k (early ++ [.clockintr]) i 0).mpr
    ⟨before, prior ++ [.clockintr], cut, clock, .inl rfl⟩
  obtain ⟨first, occupation, after, split, occupies, recent⟩ :=
    enforced early (late ++ rest) (by simp) i lit.1
  have older := cut.interrupts_le split occupies
  omega

/-- The timer enforces the maximum on-time along a run exactly when no room is left on at tick
zero in it. -/
theorem enforcesOnTime_iff (k : Kernel) (events : List Event) :
    k.EnforcesOnTime events ↔ ¬ k.LeftOnAtZero events := by
  constructor
  · intro enforced left
    exact left.not_enforces enforced
  · rintro attended past rest rfl i lit
    obtain ⟨before, since, hold, dated, young⟩ := (lit_iff_litByHistory k _ i _).mp ⟨lit, rfl⟩
    obtain ⟨occupation, split, occupies⟩ := hold.split
    refine ⟨before, occupation, since, split, occupies, ?_⟩
    rcases young with zero | fresh
    · by_contra long
      refine attended ⟨i, past ++ [.clockintr], rest, before, since, by simp, hold, ?_, by omega⟩
      rw [(reachable_clock k before).2, ← dated, zero]
    · exact interrupts_lt_of_not_timedOut fresh

/-- From boot, occupying a room before the first tick leaves its light on for good. -/
theorem enforcesOnTime_fails : ¬ ∀ (k : Kernel) (events : List Event), k.EnforcesOnTime events := by
  intro enforced
  have left : Kernel.bss.LeftOnAtZero (.call (.setOccupied 0) :: List.replicate 300 .clockintr) := by
    refine ⟨0, _, [], [], List.replicate 300 .clockintr, (List.append_nil _).symm, ⟨?_, ?_⟩, rfl, ?_⟩
    · exact ⟨_, rfl, 0, rfl, by decide⟩
    · intro event member
      obtain rfl := List.eq_of_mem_replicate member
      simp [Event.Occupies, Event.Vacates]
    · exact List.count_replicate_self.ge
  exact left.not_enforces (enforced _ _)

end Xv6.Lighting
