import Mathlib.Data.List.Induction

/-! # Runs of event machines

A total machine consumes any event; a partial machine refuses disabled ones. `run` and `run?` are
the states after a finite list of events. Two induction rules carry every whole-run argument: an
invariant may mention the events consumed so far (`run_history`, `run?_history`), and a relation
between two machines survives the erasure of events that one side does not see (`run_filter`).
-/

namespace Machine

variable {σ τ ε : Type*}

/-- An event of an extended history is the new one, or it was there before. -/
theorem concat_eq_append_cons {past before after : List ε} {event item : ε} :
    past ++ [event] = before ++ item :: after ↔ (after = [] ∧ before = past ∧ item = event) ∨
      ∃ earlier, after = earlier ++ [event] ∧ past = before ++ item :: earlier := by
  constructor
  · intro split
    rcases List.eq_nil_or_concat after with rfl | ⟨earlier, last, rfl⟩
    · obtain ⟨rfl, same⟩ := List.append_inj' split rfl
      exact .inl ⟨rfl, rfl, (List.singleton_inj.mp same).symm⟩
    · rw [List.concat_eq_append, ← List.cons_append, ← List.append_assoc] at split
      obtain ⟨rfl, same⟩ := List.append_inj' split rfl
      obtain rfl := List.singleton_inj.mp same
      exact .inr ⟨earlier, List.concat_eq_append, rfl⟩
  · rintro (⟨rfl, rfl, rfl⟩ | ⟨earlier, rfl, rfl⟩)
    · rfl
    · rw [List.append_assoc, List.cons_append]

section Total
variable (step : σ → ε → σ)

/-- The state after a list of events. -/
def run (source : σ) (events : List ε) : σ := events.foldl step source

@[simp] theorem run_nil (source : σ) : run step source [] = source := rfl

@[simp] theorem run_cons (source : σ) (event : ε) (rest : List ε) :
    run step source (event :: rest) = run step (step source event) rest := rfl

@[simp] theorem run_append (source : σ) (first second : List ε) :
    run step source (first ++ second) = run step (run step source first) second :=
  List.foldl_append

/-- An invariant over the consumed events and the state they lead to. -/
theorem run_history {source : σ} (inv : List ε → σ → Prop) (initial : inv [] source)
    (extend : ∀ past event, inv past (run step source past) →
      inv (past ++ [event]) (step (run step source past) event)) (events : List ε) :
    inv events (run step source events) := by
  induction events using List.reverseRecOn with
  | nil => exact initial
  | append_singleton past event ih =>
    rw [run_append]
    exact extend past event ih

/-- A state invariant kept by every event holds after every run. -/
theorem run_invariant {source : σ} (inv : σ → Prop) (initial : inv source)
    (preserved : ∀ state event, inv state → inv (step state event)) (events : List ε) :
    inv (run step source events) :=
  run_history step (fun _ state => inv state) initial (fun _ event => preserved _ event) events

/-- Related machines stay related when the second one skips the events it does not keep. -/
theorem run_filter (other : τ → ε → τ) (keep : ε → Bool) (related : σ → τ → Prop)
    (both : ∀ s t event, keep event = true → related s t → related (step s event) (other t event))
    (skip : ∀ s t event, keep event = false → related s t → related (step s event) t)
    {s : σ} {t : τ} (initial : related s t) (events : List ε) :
    related (run step s events) (run other t (events.filter keep)) := by
  induction events generalizing s t with
  | nil => exact initial
  | cons event rest ih =>
    cases kept : keep event with
    | true => simpa [kept] using ih (both s t event kept initial)
    | false => simpa [kept] using ih (skip s t event kept initial)

end Total

section Partial
variable (step? : σ → ε → Option σ)

/-- The state after a list of events, if all of them are enabled in turn. -/
def run? (source : σ) (events : List ε) : Option σ := events.foldlM step? source

variable {source target : σ} {first second events : List ε}

theorem run?_append :
    run? step? source (first ++ second) = some target ↔
      ∃ middle, run? step? source first = some middle ∧ run? step? middle second = some target := by
  simp [run?, Option.bind_eq_some_iff]

/-- The last event of a run is enabled in the state its past leads to. -/
theorem run?_concat {past : List ε} {event : ε} :
    run? step? source (past ++ [event]) = some target ↔
      ∃ middle, run? step? source past = some middle ∧ step? middle event = some target := by
  simp [run?, Option.bind_eq_some_iff]

theorem run?_history (inv : List ε → σ → Prop) (initial : inv [] source)
    (extend : ∀ past event middle next, run? step? source past = some middle → inv past middle →
      step? middle event = some next → inv (past ++ [event]) next)
    (reached : run? step? source events = some target) : inv events target := by
  induction events using List.reverseRecOn generalizing target with
  | nil =>
    cases reached
    exact initial
  | append_singleton past event ih =>
    obtain ⟨middle, before, last⟩ := (run?_concat step?).mp reached
    exact extend past event middle target before (ih before) last

/-- Every event of a run is one that `allowed` permits in the state that consumes it. -/
def Along (allowed : σ → ε → Prop) (source : σ) (events : List ε) : Prop :=
  ∀ past event rest middle, events = past ++ event :: rest → run? step? source past = some middle →
    allowed middle event

theorem Along.left {allowed : σ → ε → Prop}
    (along : Along step? allowed source (first ++ second)) : Along step? allowed source first :=
  fun past event rest middle split =>
    along past event (rest ++ second) middle (by rw [split, List.append_assoc, List.cons_append])

theorem along_cons {allowed : σ → ε → Prop} {event : ε} :
    Along step? allowed source (event :: events) ↔
      allowed source event ∧ ∀ next, step? source event = some next → Along step? allowed next events := by
  constructor
  · refine fun along => ⟨along [] event events source rfl rfl, fun next first past later rest middle split before => ?_⟩
    refine along (event :: past) later rest middle (by rw [split, List.cons_append]) ?_
    rw [run?, List.foldlM_cons, first]
    exact before
  · rintro ⟨here, after⟩ (_ | ⟨first, past⟩) last rest middle split before
    · cases split
      cases before
      exact here
    · obtain ⟨rfl, later⟩ := List.cons.inj split
      rw [run?, List.foldlM_cons] at before
      obtain ⟨next, enabled, before⟩ := Option.bind_eq_some_iff.mp before
      exact after next enabled past last rest middle later before

instance decidableAlong {allowed : σ → ε → Prop} [∀ s event, Decidable (allowed s event)] :
    (source : σ) → (events : List ε) → Decidable (Along step? allowed source events)
  | _, [] => isTrue fun past event rest _ split => by simp at split
  | source, event :: events =>
    have (next : σ) : Decidable (Along step? allowed next events) := decidableAlong next events
    decidable_of_iff (allowed source event ∧ ∀ next ∈ step? source event, Along step? allowed next events)
      (along_cons step?).symm

/-- An invariant over the consumed events that the permitted ones keep. -/
theorem run?_along {allowed : σ → ε → Prop}
    (along : Along step? allowed source events) (inv : List ε → σ → Prop) (initial : inv [] source)
    (extend : ∀ past event middle next, inv past middle → allowed middle event →
      step? middle event = some next → inv (past ++ [event]) next)
    (reached : run? step? source events = some target) : inv events target := by
  refine run?_history step? (fun past state => ∀ rest, events = past ++ rest → inv past state) (fun _ _ => initial)
    (fun past event middle next before ih last rest split => ?_) reached [] (List.append_nil _).symm
  rw [List.append_assoc] at split
  exact extend past event middle next (ih _ split) (along past event rest middle split before) last

end Partial

end Machine
