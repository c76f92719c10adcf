import Mathlib.Data.List.FinRange

/-! # Total correctness of programs with state and exceptions

`Ensures m s post fails` says what a program does from one state: it returns with `post`, or it fails in
a way that `fails` allows. With no failure allowed it says that the program returns. The rules follow
the constructs of `do` notation; a caller cites the rule of each program it calls.
-/

namespace Machine

universe u

variable {σ α β : Type u} {ε : Type*}

def Ensures (m : StateT σ (Except ε) α) (s : σ) (post : α → σ → Prop) (fails : ε → Prop) : Prop :=
  match m.run s with
  | .ok (a, s') => post a s'
  | .error e => fails e

namespace Ensures

variable {m : StateT σ (Except ε) α} {f : α → StateT σ (Except ε) β} {s : σ} {mid post : α → σ → Prop}
  {final : β → σ → Prop} {fails : ε → Prop}

variable {a : α} {e : ε} {g : σ → σ} {s' : σ} {n : ℕ}

theorem pure (done : post a s) : Ensures (Pure.pure a) s post fails := done

theorem throw (allowed : fails e) : Ensures (throwThe ε e : StateT σ (Except ε) α) s post fails := allowed

theorem modify {post : PUnit → σ → Prop} (done : post ⟨⟩ (g s)) :
    Ensures (modify g : StateT σ (Except ε) PUnit) s post fails := done

theorem modifyGet {g : σ → α × σ} (done : post (g s).1 (g s).2) :
    Ensures (modifyGet g : StateT σ (Except ε) α) s post fails := done

theorem pure_bind (rest : Ensures (f a) s final fails) : Ensures (Pure.pure a >>= f) s final fails := rest

theorem get_bind {f : σ → StateT σ (Except ε) β} (rest : Ensures (f s) s final fails) :
    Ensures (get >>= f) s final fails := rest

theorem modify_bind {f : PUnit → StateT σ (Except ε) β} (rest : Ensures (f ⟨⟩) (g s) final fails) :
    Ensures (MonadStateOf.modifyGet (fun s => (PUnit.unit, g s)) >>= f) s final fails := rest

theorem bind (first : Ensures m s mid fails) (rest : ∀ a s', mid a s' → Ensures (f a) s' final fails) :
    Ensures (m >>= f) s final fails := by
  unfold Ensures at first ⊢
  rw [StateT.run_bind]
  cases ran : m.run s with
  | error e =>
    rw [ran] at first
    exact first
  | ok result =>
    rw [ran] at first
    exact rest _ _ first

theorem run_bind (ran : m.run s = .ok (a, s')) (rest : Ensures (f a) s' final fails) :
    Ensures (m >>= f) s final fails := by
  unfold Ensures at rest ⊢
  rw [StateT.run_bind, ran]
  exact rest

/-- What is left of a program once its first part has run. -/
theorem of_bind (ran : m.run s = .ok (a, s')) (whole : Ensures (m >>= f) s final fails) :
    Ensures (f a) s' final fails := by
  unfold Ensures at whole ⊢
  rwa [StateT.run_bind, ran] at whole

theorem of_run (first : Ensures m s mid fails) (ran : m.run s = .ok (a, s')) : mid a s' := by
  unfold Ensures at first
  rwa [ran] at first

theorem of_error (first : Ensures m s mid fails) (ran : m.run s = .error e) : fails e := by
  unfold Ensures at first
  rwa [ran] at first

theorem of_runs (ok : ∀ a s', m.run s = .ok (a, s') → post a s') (error : ∀ e, m.run s = .error e → fails e) :
    Ensures m s post fails := by
  unfold Ensures
  cases ran : m.run s with
  | error e => exact error e ran
  | ok result => exact ok _ _ ran

theorem mono (first : Ensures m s mid fails) (weaker : ∀ a s', mid a s' → post a s') : Ensures m s post fails :=
  .of_runs (fun a s' ran => weaker a s' (first.of_run ran)) fun _ => first.of_error

theorem and (first : Ensures m s mid fails) (second : Ensures m s post fun _ => True) :
    Ensures m s (fun a s' => mid a s' ∧ post a s') fails :=
  .of_runs (fun _ _ ran => ⟨first.of_run ran, second.of_run ran⟩) fun _ => first.of_error

theorem allow {fails' : ε → Prop} (first : Ensures m s mid fails) (weaker : ∀ e, fails e → fails' e) :
    Ensures m s mid fails' :=
  .of_runs (fun _ _ => first.of_run) fun e ran => weaker e (first.of_error ran)

theorem always : Ensures m s (fun _ _ => True) fun _ => True := .of_runs (fun _ _ _ => trivial) fun _ _ => trivial

/-- A program that never fails fits wherever failures are allowed. -/
theorem lift (first : Ensures m s mid fun _ => False) : Ensures m s mid fails := first.allow fun _ => False.elim

theorem ite {c : Prop} [Decidable c] {m₁ m₂ : StateT σ (Except ε) α} (pos : c → Ensures m₁ s post fails)
    (neg : ¬ c → Ensures m₂ s post fails) : Ensures (if c then m₁ else m₂) s post fails := by
  split
  · next h => exact pos h
  · next h => exact neg h

/-- A loop over an index, with an invariant that counts the rounds done. -/
theorem forM_range {body : ℕ → StateT σ (Except ε) PUnit} (inv : ℕ → σ → Prop) (start : inv 0 s)
    (step : ∀ j < n, ∀ s, inv j s → Ensures (body j) s (fun _ s' => inv (j + 1) s') fails) :
    Ensures ((List.range n).forM body) s (fun _ s' => inv n s') fails := by
  induction n with
  | zero => exact .pure start
  | succ n ih =>
    simp only [List.range_succ, List.forM_eq_forM, List.forM_append, List.forM_cons, List.forM_nil] at ih ⊢
    refine (ih fun j small => step j (Nat.lt_succ_of_lt small)).bind fun _ s' reached => ?_
    exact (step n (Nat.lt_succ_self n) s' reached).bind fun _ _ done => .pure done

theorem forM_finRange {indices : List (Fin n)} (all : indices = List.finRange n)
    {body : Fin n → StateT σ (Except ε) PUnit} (inv : ℕ → σ → Prop) (start : inv 0 s)
    (step : ∀ j : Fin n, ∀ s, inv j s → Ensures (body j) s (fun _ s' => inv (j + 1) s') fails) :
    Ensures (indices.forM body) s (fun _ s' => inv n s') fails := by
  subst all
  induction n with
  | zero => exact .pure start
  | succ n ih =>
    simp only [List.finRange_succ_last, List.forM_eq_forM, List.forM_append, List.forM_map, List.forM_cons,
      List.forM_nil] at ih ⊢
    refine (ih fun j s => step j.castSucc s).bind fun _ s' reached => ?_
    exact (step (Fin.last n) s' reached).bind fun _ _ done => .pure done

/-- A program for each item of a list, with an invariant on the items that are left. -/
theorem forM_rest {ι : Type*} {items : List ι} {body : ι → StateT σ (Except ε) PUnit} (inv : List ι → σ → Prop)
    (start : inv items s) (step : ∀ x rest s, inv (x :: rest) s → Ensures (body x) s (fun _ s' => inv rest s') fails) :
    Ensures (items.forM body) s (fun _ s' => inv [] s') fails := by
  simp only [List.forM_eq_forM]
  induction items generalizing s with
  | nil => exact .pure start
  | cons x rest ih =>
    rw [List.forM_cons]
    exact (step x rest s start).bind fun _ s' kept => ih kept

theorem forM_list {ι : Type*} {body : ι → StateT σ (Except ε) PUnit} (inv : σ → Prop) (start : inv s)
    (step : ∀ x s, inv s → Ensures (body x) s (fun _ s' => inv s') fails) (items : List ι) :
    Ensures (items.forM body) s (fun _ s' => inv s') fails :=
  .forM_rest (fun _ => inv) start fun x _ => step x

theorem exists_run (first : Ensures m s mid fun _ => False) : ∃ a s', m.run s = .ok (a, s') ∧ mid a s' := by
  cases ran : m.run s with
  | error e => exact (first.of_error ran).elim
  | ok result => exact ⟨_, _, rfl, first.of_run ran⟩

theorem run_eq (first : Ensures m s (fun b t => b = a ∧ t = s') fun _ => False) : m.run s = .ok (a, s') := by
  obtain ⟨_, _, ran, rfl, rfl⟩ := first.exists_run
  exact ran

end Ensures

end Machine
