import Mathlib.Data.List.DropRight
import Xv6.Soundness.Lighting.Interleaving

/-! # Switching off with a stale clock

`auto_shutoff_impl` samples the clock before it takes the lock. When a tick and then an occupation
fall into that window, the switch-on tick lies ahead of the sample, the unsigned age wraps around,
and the on-time rule turns off a light that has just been switched on. This is the only way in which
it acts too early.
-/

namespace Xv6.Lighting

open Machine

/-- How many clock ticks a history has seen. -/
def ticksIn (acts : List Act) : ℕ := acts.count .tick

/-- The clock ticks since the latest successful occupation of room `i`. -/
def ticksSinceOccupied (i : Fin numRooms) (past : List Act) : ℕ :=
  ticksIn (past.rtakeWhile fun act => !act.occupies i)

/-- No step of the run applies rule 1 so that it turns off a light whose latest occupation is fewer
ticks ago than the limit. -/
def Kernel.NeverPremature (k : Kernel) (acts : List Act) : Prop :=
  ∀ past act rest s now limit, acts = past ++ act :: rest →
    run? System.step? (System.start k) past = some s → s.due? act = some (now, limit) →
    ∀ i : Fin numRooms, (s.kernel.rooms.get i).Lit → ¬ ((maxOnTimeRule now limit s.kernel.rooms 0).1.get i).Lit →
      limit.toNat ≤ ticksSinceOccupied i past

/-- How long ago the light of a room was switched on, and the clock was sampled. -/
def System.age (s : System) (i : Fin numRooms) : ℕ := (s.kernel.ticks - (s.kernel.rooms.get i).lightOnSince).toNat

def System.lag (s : System) (sample : Sample) : ℕ := (s.kernel.ticks - sample.now).toNat

/-- A young light was switched on at a later tick than the sample was taken. The last bound always
holds for samples that are at most `2 ^ 31` ticks old. -/
def System.Overtaken (s : System) (sample : Sample) (i : Fin numRooms) : Prop :=
  (s.kernel.rooms.get i).Lit ∧ (s.kernel.rooms.get i).lightOnSince ≠ 0 ∧
    s.age i < (shutoffLimit sample.timeoutTicks).toNat ∧ s.age i < s.lag sample ∧
    (shutoffLimit sample.timeoutTicks).toNat + (s.lag sample - s.age i) ≤ 2 ^ 32

/-- No call of `auto_shutoff` enters its critical section with an overtaken sample. -/
def Kernel.NoneOvertaken (k : Kernel) (acts : List Act) : Prop :=
  ∀ past pid rest s sample, acts = past ++ .shutoffSection pid :: rest →
    run? System.step? (System.start k) past = some s → s.pending pid = some sample →
    ∀ i : Fin numRooms, ¬ s.Overtaken sample i

theorem ticksSinceOccupied_concat (i : Fin numRooms) (past : List Act) (act : Act) :
    ticksSinceOccupied i (past ++ [act]) = if act.occupies i then 0 else
      ticksSinceOccupied i past + if act = .tick then 1 else 0 := by
  unfold ticksSinceOccupied ticksIn
  rw [List.rtakeWhile_concat]
  cases act.occupies i with
  | true => rfl
  | false => simp [List.count_singleton]

theorem ticksSinceOccupied_le (i : Fin numRooms) (past : List Act) :
    ticksSinceOccupied i past ≤ ticksIn past :=
  (List.rtakeWhile_suffix _ past).sublist.count_le _

variable {s : System} {k : Kernel}

/-- In every reachable state the clock minus a lamp's switch-on tick counts the ticks since the
latest occupation. -/
theorem reachable_ages {acts : List Act}
    (reached : run? System.step? (System.start k) acts = some s) :
    ∃ house, s.kernel.Shows house ∧ s.HandlerFresh ∧ ∀ i since, (house i).lamp = .lit since →
      s.kernel.ticks - since = UInt32.ofNat (ticksSinceOccupied i acts) := by
  refine run?_history System.step? (fun past s => ∃ house, s.kernel.Shows house ∧ s.HandlerFresh ∧
    ∀ i since, (house i).lamp = .lit since →
      s.kernel.ticks - since = UInt32.ofNat (ticksSinceOccupied i past)) ?_ ?_ reached
  · refine ⟨fun _ => .fresh, k.lightingInit_shows, ?_, ?_⟩
    · intro now sampled
      cases sampled
    · intro i since lit
      cases lit
  · rintro past act s next _ ⟨house, agree, fresh, ages⟩ enabled
    have clock := System.step?_ticks agree.ready enabled
    refine ⟨_, System.step?_shows agree enabled, fresh.step? agree.ready enabled, ?_⟩
    intro i since lit
    rw [ticksSinceOccupied_concat]
    cases occupies : act.occupies i with
    | true =>
      obtain ⟨roomid, rfl, _⟩ := Act.occupies_iff.mp occupies
      rw [Meter.follow_of_occupies occupies] at lit
      cases lit
      simp [clock]
    | false =>
      have earlier := ages i since (Meter.lamp_of_follow occupies lit)
      rw [clock]
      by_cases ticked : act = .tick
      · have onward : s.kernel.ticks + 1 - since = s.kernel.ticks - since + 1 := by grind
        simp [ticked, onward, earlier]
      · simp [ticked, earlier]

/-- The age on the sampled clock reaches the limit of a young light only by wrapping around. -/
theorem limit_le_sub_iff {ticks now since limit : UInt32} (young : (ticks - since).toNat < limit.toNat) :
    limit ≤ now - since ↔ (ticks - since).toNat < (ticks - now).toNat ∧
      limit.toNat + ((ticks - now).toNat - (ticks - since).toNat) ≤ 2 ^ 32 := by
  have difference : now - since = (ticks - since) - (ticks - now) := by grind
  have ageBound := (ticks - since).toNat_lt
  have lagBound := (ticks - now).toNat_lt
  rw [difference, UInt32.le_iff_toNat_le, UInt32.toNat_sub]
  omega

/-- A step that applies the policy uses the handler's fresh sample or the sample of a call. -/
theorem System.due?_cases {act : Act} {now limit : UInt32} (fresh : s.HandlerFresh)
    (due : s.due? act = some (now, limit)) :
    now = s.kernel.ticks ∨ ∃ pid sample, act = .shutoffSection pid ∧ s.pending pid = some sample ∧
      now = sample.now ∧ limit = shutoffLimit sample.timeoutTicks := by
  cases act with
  | lightingSection =>
    simp only [due?] at due
    split at due
    · next phase =>
      cases due
      exact .inl (fresh _ phase)
    · cases due
  | shutoffSection pid =>
    obtain ⟨sample, flight, values⟩ := Option.map_eq_some_iff.mp due
    cases values
    exact .inr ⟨pid, sample, rfl, flight, rfl, rfl⟩
  | _ => cases due

/-- In a reachable state with fewer than `2 ^ 32` ticks behind it, the age of a burning light is the
number of ticks since its latest occupation. -/
theorem System.age_eq {past : List Act}
    (reached : run? System.step? (System.start k) past = some s) (short : ticksIn past < 2 ^ 32)
    {i : Fin numRooms} (lit : (s.kernel.rooms.get i).Lit) : s.age i = ticksSinceOccupied i past := by
  obtain ⟨house, agree, _, ages⟩ := reachable_ages reached
  obtain ⟨since, lamp⟩ := (agree.rooms i).lit_iff.mp lit
  have bound := ticksSinceOccupied_le i past
  rw [System.age, ((agree.rooms i).of_lit lamp).2, ages i since lamp, UInt32.toNat_ofNat']
  exact Nat.mod_eq_of_lt (by omega)

/-- In a run of fewer than `2 ^ 32` ticks, the on-time rule never turns off a young light exactly
when no critical section runs with an overtaken sample. -/
theorem neverPremature_iff_noneOvertaken (k : Kernel) (acts : List Act) (short : ticksIn acts < 2 ^ 32) :
    k.NeverPremature acts ↔ k.NoneOvertaken acts := by
  have shorter (past act rest) (split : acts = past ++ act :: rest) : ticksIn past < 2 ^ 32 := by
    have : ticksIn past ≤ ticksIn acts := by
      rw [split]
      exact (List.sublist_append_left past _).count_le _
    omega
  constructor
  · rintro timely past pid rest s sample split reached flight i ⟨lit, dated, young, behind, wraps⟩
    have due := System.due?_shutoffSection flight
    have old := (limit_le_sub_iff young).mpr ⟨behind, wraps⟩
    have off := (maxOnTimeRule_off_iff sample.now (shutoffLimit sample.timeoutTicks) s.kernel.rooms 0 i).mpr
      ⟨lit, UInt32.pos_iff_ne_zero.mpr dated, old⟩
    have late := timely past _ rest s _ _ split reached due i off.1 off.2
    rw [← System.age_eq reached (shorter past _ rest split) lit] at late
    omega
  · intro clear past act rest s now limit split reached due i lit off
    obtain ⟨_, dated, old⟩ := (maxOnTimeRule_off_iff now limit s.kernel.rooms 0 i).mp ⟨lit, off⟩
    rw [← System.age_eq reached (shorter past act rest split) lit]
    by_contra young
    have stale := (limit_le_sub_iff (not_le.mp young)).mp old
    obtain ⟨_, _, fresh, _⟩ := reachable_ages reached
    rcases System.due?_cases fresh due with rfl | ⟨pid, sample, rfl, flight, rfl, rfl⟩
    · simp at stale
    · exact clear past pid rest s sample split reached flight i
        ⟨lit, UInt32.pos_iff_ne_zero.mp dated, not_le.mp young, stale⟩

/-- The theorem applies to a call that is not interrupted. -/
theorem neverPremature_iff_noneOvertaken_boot :
    ticksIn [.tick, .setRoomOccupied 0, .shutoffSample 0 0, .shutoffSection 0] < 2 ^ 32 ∧
    (Kernel.bss.NeverPremature [.tick, .setRoomOccupied 0, .shutoffSample 0 0, .shutoffSection 0] ↔
      Kernel.bss.NoneOvertaken [.tick, .setRoomOccupied 0, .shutoffSample 0 0, .shutoffSection 0]) :=
  ⟨by decide, neverPremature_iff_noneOvertaken _ _ (by decide)⟩

/-- A process samples tick 0 for `auto_shutoff(0)`; a tick passes and another process occupies a room;
then the first one turns the light off in the tick it was switched on. -/
def overtakenCall : List Act := [.shutoffSample 0 0, .tick, .setRoomOccupied 0, .shutoffSection 0]

theorem neverPremature_fails :
    (run? System.step? (System.start .bss) overtakenCall).isSome = true ∧ ticksIn overtakenCall < 2 ^ 32 ∧
      ¬ Kernel.bss.NeverPremature overtakenCall := by
  refine ⟨by decide +kernel, by decide, ?_⟩
  intro timely
  have late := timely [.shutoffSample 0 0, .tick, .setRoomOccupied 0] (.shutoffSection 0) []
    { kernel := (Kernel.bss.lightingInit.ensureInit.tick.setRoomOccupied 0).1
      phase := .ticked
      pending := fun p => if p = 0 then some ⟨0, 0⟩ else none }
    0 (shutoffLimit 0) rfl rfl rfl 0 (by decide +kernel) (by decide +kernel)
  exact absurd late (by decide)

end Xv6.Lighting
