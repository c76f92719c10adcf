import Xv6.Machine.Ensures

/-! # Recursive descent

A syntax is a type of trees with the tokens that each tree stands for. `Reads` says that a tree is the only
one at the front of some tokens, given what may follow it, and `Refuses` that there is none. A parser
recognises a syntax when it returns the value of the tree that it reads, and fails only where there is none;
the errors of its fuel are not failures of this kind. The rules follow the constructs of a parser: they make
its correctness, with the uniqueness of the tree, a consequence of what each of its parts looks ahead to.
-/

namespace Machine

universe u

variable {τ T U V : Type*} {yield : T → List τ} {yield' : U → List τ} {follow follow' : List τ → Prop}
  {ts mid rest : List τ}

structure Reads (yield : T → List τ) (follow : List τ → Prop) (ts : List τ) (t : T) (rest : List τ) : Prop where
  split : ts = yield t ++ rest
  only : ∀ t' rest', ts = yield t' ++ rest' → follow rest' → t' = t ∧ rest' = rest

def Refuses (yield : T → List τ) (follow : List τ → Prop) (ts : List τ) : Prop :=
  ∀ t rest, ts = yield t ++ rest → ¬ follow rest

namespace Reads

variable {t : T} {u : U}

theorem length_le (reads : Reads yield follow ts t rest) : rest.length ≤ ts.length := by
  rw [reads.split, List.length_append]
  exact Nat.le_add_left ..

theorem nothing : Reads (fun _ : Unit => []) follow ts () ts :=
  ⟨rfl, fun _ _ same _ => ⟨rfl, same.symm⟩⟩

theorem cons (reads : Reads yield follow ts t rest) (k : τ) : Reads (fun t => k :: yield t) follow (k :: ts) t rest :=
  ⟨by rw [reads.split]; rfl, fun t' rest' same allowed => reads.only t' rest' (List.cons.inj same).2 allowed⟩

/-- One syntax after the other, if what starts the second may follow the first. -/
theorem seq (first : Reads yield follow ts t mid) (second : Reads yield' follow' mid u rest)
    (compatible : ∀ u' r, follow' r → follow (yield' u' ++ r)) :
    Reads (fun p : T × U => yield p.1 ++ yield' p.2) follow' ts (t, u) rest := by
  refine ⟨by rw [first.split, second.split, List.append_assoc], fun p r same allowed => ?_⟩
  rw [List.append_assoc] at same
  obtain ⟨left, middle⟩ := first.only _ _ same (compatible _ _ allowed)
  obtain ⟨right, last⟩ := second.only _ _ middle.symm allowed
  exact ⟨Prod.ext left right, last⟩

theorem weaken (reads : Reads yield follow ts t rest) (le : ∀ r, follow' r → follow r) :
    Reads yield follow' ts t rest :=
  ⟨reads.split, fun t' rest' same allowed => reads.only t' rest' same (le rest' allowed)⟩

/-- Trees in another form, which are all there are at the front of these tokens. -/
theorem map (reads : Reads yield follow ts t rest) (form : T → U) (same : ∀ t, yield' (form t) = yield t)
    (cover : ∀ u r, ts = yield' u ++ r → follow r → ∃ t, u = form t) : Reads yield' follow ts (form t) rest := by
  refine ⟨by rw [same, reads.split], fun u r split allowed => ?_⟩
  obtain ⟨t', rfl⟩ := cover u r split allowed
  rw [same] at split
  obtain ⟨rfl, rfl⟩ := reads.only t' r split allowed
  exact ⟨rfl, rfl⟩

end Reads

namespace Refuses

theorem cons (refuses : Refuses yield follow ts) (k : τ) : Refuses (fun t => k :: yield t) follow (k :: ts) :=
  fun t rest same => refuses t rest (List.cons.inj same).2

theorem first (refuses : Refuses yield follow ts) (compatible : ∀ u' r, follow' r → follow (yield' u' ++ r)) :
    Refuses (fun p : T × U => yield p.1 ++ yield' p.2) follow' ts := by
  intro p r same allowed
  rw [List.append_assoc] at same
  exact refuses _ _ same (compatible _ _ allowed)

theorem second {t : T} (reads : Reads yield follow ts t mid) (refuses : Refuses yield' follow' mid)
    (compatible : ∀ u' r, follow' r → follow (yield' u' ++ r)) :
    Refuses (fun p : T × U => yield p.1 ++ yield' p.2) follow' ts := by
  intro p r same allowed
  rw [List.append_assoc] at same
  obtain ⟨-, middle⟩ := reads.only _ _ same (compatible _ _ allowed)
  exact refuses _ _ middle.symm allowed

theorem weaken (refuses : Refuses yield follow ts) (le : ∀ r, follow' r → follow r) : Refuses yield follow' ts :=
  fun t rest same allowed => refuses t rest same (le rest allowed)

theorem map (refuses : Refuses yield follow ts) (form : T → U) (same : ∀ t, yield' (form t) = yield t)
    (cover : ∀ u r, ts = yield' u ++ r → follow r → ∃ t, u = form t) : Refuses yield' follow ts := by
  intro u r split allowed
  obtain ⟨t, rfl⟩ := cover u r split allowed
  rw [same] at split
  exact refuses t r split allowed

end Refuses

section Parser

variable {σ γ δ : Type u} {ε : Type*} (At : σ → List τ → Prop) (fuelOut : ε → Prop)

/-- In front of the tokens `ts` the parser returns the value of the tree there, or fails for want of one. -/
def Recognises (m : StateT σ (Except ε) γ) (ts : List τ) (yield : T → List τ) (value : T → γ)
    (follow : List τ → Prop) : Prop :=
  ∀ s, At s ts → Ensures m s (fun c s' => ∃ t rest, Reads yield follow ts t rest ∧ c = value t ∧ At s' rest)
    fun e => ¬ fuelOut e ∧ Refuses yield follow ts

variable {At fuelOut} {m : StateT σ (Except ε) γ} {k : γ → StateT σ (Except ε) δ} {value : T → γ} {value' : U → γ}

namespace Recognises

theorem pure {c : γ} : Recognises At fuelOut (pure c) ts (fun _ : Unit => []) (fun _ => c) follow :=
  fun _ here => .pure ⟨(), ts, .nothing, rfl, here⟩

theorem throw {e : ε} (proper : ¬ fuelOut e) (refuses : Refuses yield follow ts) :
    Recognises At fuelOut (throwThe ε e) ts yield value follow :=
  fun _ _ => .throw ⟨proper, refuses⟩

section

variable (first : Recognises At fuelOut m ts yield value follow)
include first

theorem seq {value' : T × U → δ} (compatible : ∀ u' r, follow' r → follow (yield' u' ++ r))
    (second : ∀ t mid, Reads yield follow ts t mid →
      Recognises At fuelOut (k (value t)) mid yield' (fun u => value' (t, u)) follow') :
    Recognises At fuelOut (m >>= k) ts (fun p : T × U => yield p.1 ++ yield' p.2) value' follow' := by
  intro s here
  refine ((first s here).allow fun e failed => ⟨failed.1, failed.2.first compatible⟩).bind ?_
  rintro _ s₁ ⟨t, mid, reads, rfl, there⟩
  refine ((second t mid reads s₁ there).allow fun e failed => ⟨failed.1, .second reads failed.2 compatible⟩).mono ?_
  rintro _ s₂ ⟨u, rest, reads', rfl, last⟩
  exact ⟨(t, u), rest, reads.seq reads' compatible, rfl, last⟩

theorem map (form : T → U) (same : ∀ t, yield' (form t) = yield t)
    (values : ∀ t, value' (form t) = value t) (cover : ∀ u r, ts = yield' u ++ r → follow r → ∃ t, u = form t) :
    Recognises At fuelOut m ts yield' value' follow := by
  intro s here
  refine ((first s here).allow fun e failed => ⟨failed.1, failed.2.map form same cover⟩).mono ?_
  rintro _ s' ⟨t, rest, reads, rfl, there⟩
  exact ⟨form t, rest, reads.map form same cover, (values t).symm, there⟩

theorem bind_pure {g : γ → δ} :
    Recognises At fuelOut (m >>= fun c => Pure.pure (g c)) ts yield (fun t => g (value t)) follow := by
  intro s here
  refine (first s here).bind ?_
  rintro _ s' ⟨t, rest, reads, rfl, there⟩
  exact .pure ⟨t, rest, reads, rfl, there⟩

theorem weaken (le : ∀ r, follow' r → follow r) :
    Recognises At fuelOut m ts yield value follow' := by
  intro s here
  refine ((first s here).allow fun e failed => ⟨failed.1, failed.2.weaken le⟩).mono ?_
  rintro _ s' ⟨t, rest, reads, rfl, there⟩
  exact ⟨t, rest, reads.weaken le, rfl, there⟩

end

end Recognises

end Parser

end Machine
