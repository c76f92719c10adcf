import Xv6.Soundness.Lighting.Interleaving

/-! # The energy budget of a switch-on

One switch-on pays for at most 301 charged ticks, wherever it falls between the three steps of a
clock interrupt. The light may go on after the tick and before the charge of the same interrupt,
which adds one to the 300 ticks that the handler lets it burn.
-/

namespace Xv6.Lighting

open Machine

/-- Whether the current tick has been charged already. -/
def Phase.chargedTicks : Phase → ℕ
  | .ticked => 0
  | _ => 1

theorem Phase.chargedTicks_le (phase : Phase) : phase.chargedTicks ≤ 1 := by
  cases phase <;> simp [chargedTicks]

/-- A dark lamp has used at most what its switch-ons pay for. A lit one has used at most what the
earlier switch-ons pay for and the ticks since its own; between two interrupts it is below the limit. -/
def Meter.WithinBudget (s : System) (switchOns : ℕ) (m : Meter) : Prop :=
  match m.lamp with
  | .dark _ => m.usage.toNat ≤ 301 * switchOns
  | .lit since => since ≠ 0 ∧ (s.kernel.ticks - since).toNat ≤ 300 ∧
      (s.phase = .idle → (s.kernel.ticks - since).toNat < 300) ∧
      m.usage.toNat + 301 ≤ 301 * switchOns + (s.kernel.ticks - since).toNat + s.phase.chargedTicks

/-- Every successful occupation of the run is made at a nonzero tick value. -/
def Kernel.SwitchesOnAtNonzero (k : Kernel) (acts : List Act) : Prop :=
  ∀ past act rest s i, acts = past ++ act :: rest → act.occupies i = true →
    run? System.step? (System.start k) past = some s → s.kernel.ticks ≠ 0

theorem Kernel.SwitchesOnAtNonzero.of_append {k : Kernel} {past rest : List Act}
    (nonzero : k.SwitchesOnAtNonzero (past ++ rest)) : k.SwitchesOnAtNonzero past := by
  rintro before act after s i rfl occupies reached
  exact nonzero before act (after ++ rest) s i (by simp) occupies reached

namespace Meter.WithinBudget

variable {s s' : System} {switchOns : ℕ} {m : Meter}

section

variable (within : m.WithinBudget s switchOns)
include within

theorem usage_le : m.usage.toNat ≤ 301 * switchOns := by
  rcases m with ⟨_ | since, usage⟩
  · exact within
  · obtain ⟨_, young, _, spent⟩ := within
    have := s.phase.chargedTicks_le
    simp only at spent ⊢
    omega

theorem darken (occupied : Bool) :
    WithinBudget s' switchOns ⟨.dark occupied, m.usage⟩ :=
  within.usage_le

theorem vacate : m.vacate.WithinBudget s' switchOns :=
  within.darken false

theorem occupy (clock : s'.kernel.ticks = s.kernel.ticks)
    (nonzero : s.kernel.ticks ≠ 0) : (m.occupy s.kernel.ticks).WithinBudget s' (switchOns + 1) := by
  have spent := within.usage_le
  have zero : (s'.kernel.ticks - s.kernel.ticks).toNat = 0 := by simp [clock]
  refine ⟨nonzero, by omega, fun _ => by omega, ?_⟩
  simp only [Meter.occupy]
  omega

theorem tick (idle : s.phase = .idle) :
    m.WithinBudget { s with kernel := s.kernel.tick, phase := .ticked } switchOns := by
  rcases m with ⟨_ | since, usage⟩
  · exact within
  · obtain ⟨nonzero, _, young, spent⟩ := within
    have later : (s.kernel.ticks + 1 - since).toNat = (s.kernel.ticks - since).toNat + 1 := by
      have onward : s.kernel.ticks + 1 - since = s.kernel.ticks - since + 1 := by grind
      have := young idle
      rw [onward, UInt32.toNat_add, UInt32.toNat_one, Nat.mod_eq_of_lt (by omega)]
    have below := young idle
    simp only [idle, Phase.chargedTicks] at spent
    refine ⟨nonzero, ?_, nofun, ?_⟩
    · simp only [Kernel.tick]
      omega
    · simp only [Kernel.tick, Phase.chargedTicks]
      omega

theorem charge (ticked : s.phase = .ticked) (clock : s'.kernel.ticks = s.kernel.ticks) (charged : s'.phase = .charged) :
    m.charge.WithinBudget s' switchOns := by
  rcases m with ⟨_ | since, usage⟩
  · exact within
  · obtain ⟨nonzero, young, _, spent⟩ := within
    have grows : (usage + 1).toNat ≤ usage.toNat + 1 := by
      rw [UInt32.toNat_add, UInt32.toNat_one]
      exact Nat.mod_le _ _
    simp only [ticked, Phase.chargedTicks] at spent
    refine ⟨nonzero, by rwa [clock], by simp [charged], ?_⟩
    simp only [Meter.charge, clock, charged, Phase.chargedTicks]
    omega

theorem keep (clock : s'.kernel.ticks = s.kernel.ticks)
    (phase : s'.phase.chargedTicks = s.phase.chargedTicks) (ending : s'.phase = .idle → s.phase = .idle) :
    m.WithinBudget s' switchOns := by
  rcases m with ⟨_ | since, usage⟩
  · exact within
  · obtain ⟨nonzero, young, idle, spent⟩ := within
    exact ⟨nonzero, by rwa [clock], fun now => by rw [clock]; exact idle (ending now), by rwa [clock, phase]⟩

/-- A critical section of the policy keeps the budget, whatever its sample is. -/
theorem expire (now limit : UInt32) :
    (m.expire now limit).WithinBudget s switchOns := by
  rcases m with ⟨_ | since, usage⟩
  · exact within
  · simp only [Meter.expire]
    split
    · exact within.darken true
    · exact within

/-- The handler's own section ends the interrupt: what it leaves burning is below the limit. -/
theorem lightingSection (clock : s'.kernel.ticks = s.kernel.ticks)
    (phase : s'.phase.chargedTicks = s.phase.chargedTicks) :
    (m.expire s.kernel.ticks (shutoffLimit lightingTickTimeout)).WithinBudget s' switchOns := by
  rcases m with ⟨_ | since, usage⟩
  · exact within
  · simp only [Meter.expire]
    split
    · exact within.darken true
    · next burning =>
      obtain ⟨nonzero, young, _, spent⟩ := within
      have below : (s.kernel.ticks - since).toNat < 300 := by
        by_contra old
        exact burning ⟨nonzero, UInt32.le_iff_toNat_le.mpr (not_lt.mp old)⟩
      exact ⟨nonzero, by rwa [clock], fun _ => by rwa [clock], by rwa [clock, phase]⟩

end

end Meter.WithinBudget

/-- One step of the system keeps every lamp within its budget. -/
theorem Meter.WithinBudget.follow {i : Fin numRooms} {s s' : System} {switchOns : ℕ} {m : Meter} {act : Act}
    (ready : s.kernel.lightingInitialized = 1) (fresh : s.HandlerFresh) (enabled : s.step? act = some s')
    (nonzero : act.occupies i = true → s.kernel.ticks ≠ 0) (within : m.WithinBudget s switchOns) :
    (m.follow i s act).WithinBudget s' (switchOns + if act.occupies i then 1 else 0) := by
  have clock := System.step?_ticks ready enabled
  cases System.Step.of_step? ready enabled with
  | tick idle => exact within.tick idle
  | updateUsage ticked => exact within.charge ticked clock rfl
  | lightingSample charged => exact within.keep rfl (by simp [charged, Phase.chargedTicks]) nofun
  | @lightingSection now sampled =>
    obtain rfl := fresh now sampled
    rw [Meter.follow_of_due (System.due?_lightingSection sampled)]
    exact within.lightingSection rfl (by simp [sampled, Phase.chargedTicks])
  | shutoffSample => exact within.keep rfl rfl id
  | shutoffSection flight =>
    rw [Meter.follow_of_due (System.due?_shutoffSection flight)]
    exact (within.expire _ _).keep rfl rfl id
  | lightingInit => exact Nat.zero_le _
  | @setRoomOccupied roomid =>
    cases occupies : Act.occupies i (.setRoomOccupied roomid) with
    | true =>
      rw [Meter.follow_of_occupies occupies]
      exact within.occupy clock (nonzero occupies)
    | false =>
      have elsewhere : roomIndex? roomid ≠ some i := of_decide_eq_false occupies
      rw [Meter.follow_setRoomOccupied, if_neg elsewhere]
      exact within.keep clock rfl id
  | @setRoomEmpty roomid =>
    change (if roomIndex? roomid = some i then m.vacate else m).WithinBudget _ switchOns
    split
    · exact within.vacate
    · exact within.keep clock rfl id

theorem reachable_withinBudget {k : Kernel} {acts : List Act} {s : System}
    (reached : run? System.step? (System.start k) acts = some s) (nonzero : k.SwitchesOnAtNonzero acts) :
    ∃ house, s.kernel.Shows house ∧ s.HandlerFresh ∧
      ∀ i, (house i).WithinBudget s (acts.countP (Act.occupies i)) := by
  refine run?_history System.step? (fun past s => k.SwitchesOnAtNonzero past → ∃ house,
    s.kernel.Shows house ∧ s.HandlerFresh ∧
      ∀ i, (house i).WithinBudget s (past.countP (Act.occupies i))) ?_ ?_ reached nonzero
  · intro _
    exact ⟨fun _ => .fresh, k.lightingInit_shows, nofun, fun _ => Nat.zero_le _⟩
  · intro past act s next before invariant enabled nonzero
    obtain ⟨house, agree, fresh, within⟩ := invariant nonzero.of_append
    refine ⟨_, System.step?_shows agree enabled, fresh.step? agree.ready enabled, fun i => ?_⟩
    rw [List.countP_append, List.countP_singleton]
    exact (within i).follow agree.ready fresh enabled
      fun occupies => nonzero past act [] s i rfl occupies before

/-- In every reachable state a room has used at most 301 ticks for each of its switch-ons. -/
theorem usage_within_budget (k : Kernel) (acts : List Act) (s : System)
    (reached : run? System.step? (System.start k) acts = some s)
    (nonzero : k.SwitchesOnAtNonzero acts) (i : Fin numRooms) :
    (s.kernel.rooms.get i).usageTicks.toNat ≤ 301 * acts.countP (Act.occupies i) := by
  obtain ⟨house, agree, _, within⟩ := reachable_withinBudget reached nonzero
  rw [(agree.rooms i).usage]
  exact (within i).usage_le

/-- The theorem applies to a switch-on between the tick and the charge of the first interrupt. -/
theorem usage_within_budget_boot :
    ((Kernel.bss.lightingInit.tick.setRoomOccupied 0).1.updateUsage.rooms.get 0).usageTicks.toNat ≤
      301 * [Act.tick, .setRoomOccupied 0, .updateUsage].countP (Act.occupies 0) := by
  refine usage_within_budget .bss [.tick, .setRoomOccupied 0, .updateUsage]
    ⟨(Kernel.bss.lightingInit.tick.setRoomOccupied 0).1.updateUsage, .charged, fun _ => none⟩ rfl ?_ 0
  intro past act rest s i split occupies reached
  match past, split with
  | [], split =>
    obtain ⟨rfl, _⟩ := List.cons.inj split
    cases occupies
  | [first], split =>
    obtain ⟨rfl, _⟩ := List.cons.inj split
    cases reached
    decide +kernel
  | [first, second], split =>
    obtain ⟨rfl, _⟩ := List.cons.inj (List.cons.inj (List.cons.inj split).2).2
    cases occupies
  | first :: second :: third :: tail, split => simp at split

end Xv6.Lighting
