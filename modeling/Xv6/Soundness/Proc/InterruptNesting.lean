import Mathlib.Data.Set.Card
import Xv6.Model.Proc.Spinlock

/-! # Interrupts are off while a lock is held

`noff` and `intena` belong to a CPU, the locks and the interrupt state that they stand for to a thread. A thread changes
its CPU inside `sched` only, with `p->lock` and no other lock, and carries its `intena` over; so a CPU counts the locks
of the thread that runs there, and `intena` is what that thread found when it took its first lock.
-/

namespace Xv6.Spinlock

open Function (update update_self update_of_ne update_apply)

/-- A CPU counts some locks, and is not interrupted while there are any. -/
structure Counts {L : Type} (k : Cpu) (locks : Set L) : Prop where
  finite : locks.Finite
  count : k.noff = locks.ncard
  off : locks.Nonempty → k.sie = false

section Cpu

variable {L : Type} {k : Cpu} {locks : Set L} {lk : L}

theorem Counts.push (counts : Counts k locks) (new : lk ∉ locks) : Counts (pushOff k) (insert lk locks) where
  finite := counts.finite.insert lk
  count := by
    rw [Set.ncard_insert_of_notMem new counts.finite, pushOff, counts.count]
    rfl
  off _ := rfl

/-- `pop_off` does not panic, and the last lock brings back what `intena` has. -/
theorem Counts.pop (counts : Counts k locks) (has : lk ∈ locks) : ∃ k', popOff k = .ok k' ∧ Counts k' (locks \ {lk}) ∧
    k'.intena = k.intena ∧ (locks \ {lk} = ∅ → k'.sie = k.intena) := by
  have off := counts.off ⟨lk, has⟩
  have fewer := Set.ncard_sdiff_singleton_add_one has counts.finite
  have count := counts.count
  have finite := counts.finite.subset (Set.sdiff_subset (t := {lk}))
  have fits : k.noff - 1 = (locks \ {lk}).ncard := by omega
  rw [popOff, if_neg (by simp [off]), if_neg (by omega)]
  refine ⟨_, rfl, ?_⟩
  by_cases last : k.noff - 1 = 0 ∧ k.intena = true
  · have none : locks \ {lk} = ∅ := (Set.ncard_eq_zero finite).mp (by omega)
    rw [if_pos last]
    exact ⟨⟨finite, fits, fun some => absurd none some.ne_empty⟩, rfl, fun _ => last.2.symm⟩
  · rw [if_neg last]
    refine ⟨⟨finite, fits, fun _ => off⟩, rfl, fun none => ?_⟩
    rw [none, Set.ncard_empty] at fits
    have quiet : ¬k.intena = true := fun on => last ⟨fits, on⟩
    exact off.trans (Bool.eq_false_iff.mpr quiet).symm

end Cpu

variable {C L P : Type} [DecidableEq C] [DecidableEq L] [DecidableEq P] {plock : P → L} {s s' : State C L P}
  {c c' : C} {lk : L}
  {e : Event L P} {first : P → Option Bool}

/-- The locks of the thread that runs on a CPU. -/
def held (s : State C L P) (c : C) : Set L := {lk | holding s c lk}

/-- How threads and schedulers call these functions. A scheduler resumes a thread that is not running. -/
inductive Permitted (plock : P → L) (s : State C L P) (c : C) : Event L P → Prop
  | acquire {lk : L} (new : lk ∉ held s c) : Permitted plock s c (.acquire lk)
  | release {lk : L} (has : lk ∈ held s c) : Permitted plock s c (.release lk)
  | sched {p : P} (self : s.proc c = some p) (only : held s c = {plock p}) : Permitted plock s c (.sched p)
  | resume {p : P} (idle : s.proc c = none) (only : held s c = {plock p}) (stopped : ∀ c', s.proc c' ≠ some p) :
    Permitted plock s c (.resume p)
  | interrupts {on : Bool} (free : held s c = ∅) : Permitted plock s c (.interrupts on)

open Classical in
/-- Whether interrupts were on when a thread took the first one of the locks that it holds. -/
noncomputable def noted (s : State C L P) (c : C) (e : Event L P) (first : P → Option Bool) :
    P → Option Bool := fun p =>
  if (∃ lk, e = .acquire lk) ∧ s.proc c = some p ∧ held s c = ∅ then some (s.cpu c).sie else first p

/-- The states of all runs, from one in which every CPU is in its scheduler. -/
inductive Reachable (plock : P → L) : State C L P → (P → Option Bool) → Prop
  | boot {s : State C L P} (unlocked : ∀ lk, (s.lock lk).locked = false) (zero : ∀ c, (s.cpu c).noff = 0) (idle : ∀ c,
    s.proc c = none) :
      Reachable plock s fun _ => none
  | step {s s' : State C L P} {first : P → Option Bool} {c : C} {e : Event L P} (before : Reachable plock s first)
      (permitted : Permitted plock s c e) (done : step plock c e s = .ok s') : Reachable plock s' (noted s c e first)

/-- What a step does on its own CPU. -/
def Effect (s : State C L P) (c : C) (s' : State C L P) : Event L P → Prop
  | .acquire lk => s'.cpu c = pushOff (s.cpu c) ∧ held s' c = insert lk (held s c) ∧ s'.proc = s.proc ∧
    s'.saved = s.saved
  | .release lk => popOff (s.cpu c) = .ok (s'.cpu c) ∧ held s' c = held s c \ {lk} ∧ s'.proc = s.proc ∧
    s'.saved = s.saved
  | .sched p => s'.cpu c = s.cpu c ∧ held s' c = held s c ∧ s'.proc = Function.update s.proc c none ∧
      s'.saved = Function.update s.saved p (some (s.cpu c).intena)
  | .resume p => s'.cpu c = { s.cpu c with intena := (s.saved p).getD (s.cpu c).intena } ∧ held s' c = held s c ∧
      s'.proc = Function.update s.proc c (some p) ∧ s'.saved = s.saved
  | .interrupts on => s'.cpu c = { s.cpu c with sie := on } ∧ held s' c = held s c ∧ s'.proc = s.proc ∧
    s'.saved = s.saved

omit [DecidableEq P] in
theorem held_update (l : Lock C) (cpu : C → Cpu) : held { s with cpu, lock := update s.lock lk l } c =
    {lk' | if lk' = lk then l.locked = true ∧ l.cpu = some c else lk' ∈ held s c} := by
  ext lk'
  by_cases same : lk' = lk <;> simp [held, holding, same]

/-- A permitted call does not panic. It changes the fields and the locks of no other CPU. -/
theorem step_effect (counts : Counts (s.cpu c) (held s c)) (permitted : Permitted plock s c e) :
    step plock c e s = .error .spins ∨ ∃ s', step plock c e s = .ok s' ∧ Effect s c s' e ∧
      ∀ c' ≠ c, s'.cpu c' = s.cpu c' ∧ held s' c' = held s c' := by
  cases permitted with
  | @acquire lk new =>
    have fresh : ¬holding { s with cpu := update s.cpu c (pushOff (s.cpu c)) } c lk = true := new
    dsimp only [step, acquire]
    rw [if_neg fresh]
    by_cases taken : (s.lock lk).locked = true
    · exact .inl (if_pos taken)
    · refine .inr ⟨_, if_neg taken, ⟨update_self .., ?_, rfl, rfl⟩, fun c' other => ⟨update_of_ne other .., ?_⟩⟩
      all_goals
        rw [held_update]
        ext lk'
        by_cases same : lk' = lk
      · simp [same]
      · simp [same]
      · simp [same, other.symm, held, holding, taken]
      · simp [same]
  | @release lk has =>
    obtain ⟨k, popped, -⟩ := counts.pop has
    have holds : holding s c lk = true := has
    have returns : release c lk s = .ok { s with lock := update s.lock lk ⟨false, none⟩, cpu := update s.cpu c k } := by
      rw [release, if_neg (by simp [holds]), popped]
      rfl
    refine .inr ⟨_, returns, ⟨?_, ?_, rfl, rfl⟩, fun c' other => ⟨update_of_ne other .., ?_⟩⟩
    · simpa using popped
    all_goals
      rw [held_update]
      ext lk'
      by_cases same : lk' = lk
    · simp [same]
    · simp [same]
    · have owner : (s.lock lk).cpu = some c := by simpa [holding] using (Bool.and_eq_true_iff.mp holds).2
      simp [same, held, holding, owner, other.symm]
    · simp [same]
  | @sched p self only =>
    have holds : holding s c (plock p) = true := only.ge rfl
    have one : (s.cpu c).noff = 1 := by rw [counts.count, only, Set.ncard_singleton]; rfl
    refine .inr ⟨{ s with saved := update s.saved p (some (s.cpu c).intena), proc := update s.proc c none }, ?_,
      ⟨rfl, rfl, rfl, rfl⟩, fun c' _ => ⟨rfl, rfl⟩⟩
    rw [step, sched, if_neg (by simp [holds]), if_neg (by simp [one]), if_neg (by simp [counts.off ⟨plock p, holds⟩])]
    rfl
  | resume | interrupts =>
    exact .inr ⟨_, rfl, ⟨update_self .., rfl, rfl, rfl⟩, fun c' other => ⟨update_of_ne other .., rfl⟩⟩

omit [DecidableEq L] in
theorem Counts.step (counts : Counts (s.cpu c) (held s c)) (permitted : Permitted plock s c e)
    (effect : Effect s c s' e) :
    Counts (s'.cpu c) (held s' c) := by
  cases permitted with
  | acquire new =>
    obtain ⟨cpu, locks, -⟩ := effect
    rw [cpu, locks]
    exact counts.push new
  | release has =>
    obtain ⟨popped, locks, -⟩ := effect
    obtain ⟨k, popped', fewer, -⟩ := counts.pop has
    obtain rfl := Except.ok.inj (popped.symm.trans popped')
    rw [locks]
    exact fewer
  | sched =>
    obtain ⟨cpu, locks, -⟩ := effect
    rw [cpu, locks]
    exact counts
  | resume =>
    obtain ⟨cpu, locks, -⟩ := effect
    rw [cpu, locks]
    exact ⟨counts.finite, counts.count, counts.off⟩
  | interrupts free =>
    obtain ⟨cpu, locks, -⟩ := effect
    rw [cpu, locks]
    exact ⟨counts.finite, counts.count, fun some => absurd free some.ne_empty⟩

/-- Where a thread keeps the interrupt state that it has noted. -/
structure Keeps (s : State C L P) (first : P → Option Bool) : Prop where
  alone : ∀ c c' p, s.proc c = some p → s.proc c' = some p → c = c'
  here : ∀ c p v, s.proc c = some p → (held s c).Nonempty → first p = some v → (s.cpu c).intena = v
  away : ∀ p v, (∀ c, s.proc c ≠ some p) → first p = some v → s.saved p = some v

omit [DecidableEq L] [DecidableEq P] in
theorem Keeps.stay {first' : P → Option Bool} (keeps : Keeps s first) (proc : s'.proc = s.proc)
    (saved : s'.saved = s.saved)
    (frame : ∀ c' ≠ c, s'.cpu c' = s.cpu c' ∧ held s' c' = held s c') (others : ∀ p, s.proc c ≠ some p →
      first' p = first p)
    (self : ∀ p v, s.proc c = some p → (held s' c).Nonempty → first' p = some v → (s'.cpu c).intena = v) :
    Keeps s' first' := by
  refine ⟨by rw [proc]; exact keeps.alone, fun c' p v runs some notes => ?_, fun p v away notes => ?_⟩
  · rw [proc] at runs
    by_cases here : c' = c
    · subst here
      exact self p v runs some notes
    · rw [others p fun same => here (keeps.alone c' c p runs same)] at notes
      rw [(frame c' here).2] at some
      rw [(frame c' here).1]
      exact keeps.here c' p v runs some notes
  · rw [proc] at away
    rw [others p (away c)] at notes
    rw [saved]
    exact keeps.away p v away notes

omit [DecidableEq L] in
theorem noted_of_ne (other : ∀ lk, e ≠ .acquire lk) : noted s c e first = first :=
  funext fun _ => if_neg fun ⟨⟨lk, same⟩, _⟩ => other lk same

omit [DecidableEq L] in
theorem noted_elsewhere {p : P} (other : s.proc c ≠ some p) : noted s c e first p = first p :=
  if_neg fun all => other all.2.1

omit [DecidableEq L] in
theorem Keeps.step (counts : Counts (s.cpu c) (held s c)) (keeps : Keeps s first) (permitted : Permitted plock s c e)
    (effect : Effect s c s' e) (frame : ∀ c' ≠ c, s'.cpu c' = s.cpu c' ∧ held s' c' = held s c') :
    Keeps s' (noted s c e first) := by
  have others (p : P) (other : s.proc c ≠ some p) : noted s c e first p = first p := noted_elsewhere other
  cases permitted with
  | @acquire lk new =>
    obtain ⟨cpu, locks, proc, saved⟩ := effect
    refine keeps.stay proc saved frame others fun p v runs _ notes => ?_
    rw [cpu, pushOff]
    by_cases none : held s c = ∅
    · rw [noted, if_pos ⟨⟨lk, rfl⟩, runs, none⟩] at notes
      rw [if_pos (by rw [counts.count, none, Set.ncard_empty]; rfl)]
      exact Option.some.inj notes
    · have busy : (held s c).Nonempty := Set.nonempty_iff_ne_empty.mpr none
      have positive := (Set.ncard_pos counts.finite).mpr busy
      rw [noted, if_neg fun all => none all.2.2] at notes
      rw [if_neg (by rw [counts.count]; omega)]
      exact keeps.here c p v runs busy notes
  | @release lk has =>
    obtain ⟨popped, locks, proc, saved⟩ := effect
    obtain ⟨k, popped', -, intena, -⟩ := counts.pop has
    obtain rfl := Except.ok.inj (popped.symm.trans popped')
    rw [noted_of_ne nofun]
    refine keeps.stay proc saved frame (fun _ _ => rfl) fun p v runs _ notes => ?_
    rw [intena]
    exact keeps.here c p v runs ⟨lk, has⟩ notes
  | interrupts free =>
    obtain ⟨cpu, locks, proc, saved⟩ := effect
    rw [noted_of_ne nofun]
    refine keeps.stay proc saved frame (fun _ _ => rfl) fun p v _ some _ => ?_
    rw [locks, free] at some
    exact absurd some Set.not_nonempty_empty
  | @sched p runs only =>
    obtain ⟨cpu, locks, proc, saved⟩ := effect
    rw [noted_of_ne nofun]
    have stays {c' : C} {q : P} : s'.proc c' = some q ↔ c' ≠ c ∧ s.proc c' = some q := by
      rw [proc]
      by_cases here : c' = c <;> simp [here]
    refine ⟨fun c' c'' q there there' => ?_, fun c' q v there some notes => ?_, fun q v away notes => ?_⟩
    · exact keeps.alone c' c'' q (stays.mp there).2 (stays.mp there').2
    · obtain ⟨moved, there⟩ := stays.mp there
      rw [(frame c' moved).2] at some
      rw [(frame c' moved).1]
      exact keeps.here c' q v there some notes
    · rw [saved]
      by_cases same : q = p
      · subst same
        rw [update_self, keeps.here c q v runs (by rw [only]; exact Set.singleton_nonempty _) notes]
      · rw [update_of_ne same]
        refine keeps.away q v (fun c' there => away c' (stays.mpr ⟨fun here => same ?_, there⟩)) notes
        exact Option.some.inj (there.symm.trans (here ▸ runs))
  | @resume p idle only stopped =>
    obtain ⟨cpu, locks, proc, saved⟩ := effect
    rw [noted_of_ne nofun]
    have stays {c' : C} {q : P} : s'.proc c' = some q ↔ c' = c ∧ q = p ∨ s.proc c' = some q := by
      rw [proc]
      by_cases here : c' = c <;> simp [here, idle, eq_comm]
    refine ⟨fun c' c'' q there there' => ?_, fun c' q v there some notes => ?_, fun q v away notes => ?_⟩
    · rcases stays.mp there with ⟨rfl, rfl⟩ | there <;> rcases stays.mp there' with ⟨rfl, same⟩ | there'
      · rfl
      · exact absurd there' (stopped c'')
      · exact absurd (same ▸ there) (stopped c')
      · exact keeps.alone c' c'' q there there'
    · rcases stays.mp there with ⟨rfl, rfl⟩ | there
      · simp [cpu, keeps.away q v stopped notes]
      · have moved : c' ≠ c := fun here => by simp [here, idle] at there
        rw [(frame c' moved).2] at some
        rw [(frame c' moved).1]
        exact keeps.here c' q v there some notes
    · rw [saved]
      exact keeps.away q v (fun c' there => away c' (stays.mpr (.inr there))) notes

theorem Reachable.invariant (reached : Reachable plock s first) :
    (∀ c, Counts (s.cpu c) (held s c)) ∧ Keeps s first := by
  induction reached with
  | @boot s unlocked zero idle =>
    refine ⟨fun c => ?_, fun c c' p runs => ?_, fun _ _ _ _ _ => nofun, fun _ _ _ => nofun⟩
    · have none : held s c = ∅ := Set.eq_empty_of_forall_notMem fun lk has => by simp [held, holding, unlocked] at has
      rw [none]
      refine ⟨Set.finite_empty, ?_, fun some => absurd some Set.not_nonempty_empty⟩
      rw [zero, Set.ncard_empty]
      rfl
    · simp [idle] at runs
  | @step s s' first c e before permitted done ih =>
    obtain spins | ⟨s'', done', effect, frame⟩ := step_effect (ih.1 c) permitted
    · cases spins.symm.trans done
    · obtain rfl := Except.ok.inj (done'.symm.trans done)
      refine ⟨fun c' => ?_, ih.2.step (ih.1 c) permitted effect frame⟩
      by_cases here : c' = c
      · subst here
        exact (ih.1 c').step permitted effect
      · rw [(frame c' here).1, (frame c' here).2]
        exact ih.1 c'

/-- In every run, a CPU counts the locks of its thread, and is not interrupted while there are any. No call panics. When
a thread gives its last lock back, interrupts are as they were when it took the first one, whichever CPU that was on. -/
theorem interrupt_nesting (reached : Reachable plock s first) (c : C) :
    (held s c).Finite ∧ (s.cpu c).noff = (held s c).ncard ∧ ((held s c).Nonempty → (s.cpu c).sie = false) ∧
    ∀ e, Permitted plock s c e → (∀ stop, step plock c e s = .error stop → stop = .spins) ∧
      ∀ lk s', e = .release lk → step plock c e s = .ok s' → held s' c = ∅ → ∀ p v, s.proc c = some p →
      first p = some v →
        (s'.cpu c).sie = v := by
  obtain ⟨counts, keeps⟩ := reached.invariant
  refine ⟨(counts c).finite, (counts c).count, (counts c).off, fun e permitted => ⟨fun stop stopped => ?_, ?_⟩⟩
  · obtain spins | ⟨s', done, -⟩ := step_effect (counts c) permitted
    · exact Except.error.inj (stopped.symm.trans spins)
    · cases stopped.symm.trans done
  · rintro lk s' rfl done none p v runs notes
    have has : lk ∈ held s c := by
      cases permitted
      assumption
    obtain spins | ⟨s'', done', ⟨popped, locks, -⟩, -⟩ := step_effect (counts c) (.release has)
    · cases spins.symm.trans done
    · obtain rfl := Except.ok.inj (done'.symm.trans done)
      obtain ⟨k, popped', -, -, last⟩ := (counts c).pop has
      obtain rfl := Except.ok.inj (popped.symm.trans popped')
      rw [last (locks ▸ none), keeps.here c p v runs ⟨lk, has⟩ notes]

/-- A thread takes another lock with interrupts on, takes its own and gives the other one back. It goes to sleep, and is
resumed by a CPU that has them off: there they are on once it has given its own lock back. -/
theorem interrupt_nesting_migrates : ∃ (s s' : State Bool Bool Unit) (first : _), Reachable (fun _ => false) s first ∧
    (s.proc true = some () ∧ (s.cpu true).sie = false) ∧ step (fun _ => false) true (.release false) s = .ok s' ∧
    (s'.cpu true).sie = true := by
  have none {s : State Bool Bool Unit} {c : Bool} (own : holding s c false = false) (other : holding s c true = false) :
      held s c = ∅ := Set.eq_empty_of_forall_notMem fun lk has => by cases lk <;> simp_all [held]
  have one {s : State Bool Bool Unit} {c : Bool} (own : holding s c false = true) (other : holding s c true = false) :
      held s c = {false} := Set.ext fun lk => by cases lk <;> simp_all [held]
  have booted :
      Reachable (fun _ => false) (⟨fun _ => ⟨0, false, true⟩, fun _ => ⟨false, .none⟩, fun _ => .none, fun _ => .none⟩ :
    State Bool Bool Unit) _ := .boot (fun _ => rfl) (fun _ => rfl) fun _ => rfl
  have started := (booted.step (c := false) (e := .acquire false) (.acquire nofun) rfl).step (c := false)
    (.resume (p := ()) rfl (one rfl rfl) nofun) rfl
  have running := started.step (c := false) (e := .release false) (.release rfl) rfl
  have nested :=
    ((running.step (c := false) (e := .acquire true) (.acquire nofun) rfl).step (c := false) (e := .acquire false)
    (.acquire nofun) rfl).step (c := false) (e := .release true) (.release rfl) rfl
  have asleep :=
    (nested.step (c := false) (.sched (p := ()) rfl (one rfl rfl)) rfl).step (c := false) (e := .release false)
    (.release rfl) rfl
  have elsewhere := (asleep.step (c := true) (e := .interrupts false) (.interrupts (none rfl rfl)) rfl).step (c := true)
    (e := .acquire false) (.acquire nofun) rfl
  have resumed := elsewhere.step (c := true) (.resume (p := ()) rfl (one rfl rfl) (by decide)) rfl
  have last :=
    ((interrupt_nesting resumed true).2.2.2 (.release false) (.release rfl)).2 false _ rfl rfl
    (none rfl rfl) () true rfl
  refine ⟨_, _, _, resumed, ⟨rfl, rfl⟩, rfl, last ?_⟩
  rw [noted_of_ne nofun, noted_elsewhere, noted_of_ne nofun, noted_of_ne nofun, noted_of_ne nofun, noted_of_ne nofun]
  · refine (if_neg fun all => ?_).trans (if_pos ⟨⟨true, rfl⟩, rfl, none rfl rfl⟩)
    exact Set.eq_empty_iff_forall_notMem.mp all.2.2 true rfl
  · decide

end Xv6.Spinlock
