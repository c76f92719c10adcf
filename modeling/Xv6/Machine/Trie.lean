import Mathlib.Data.List.Induction

/-! # Search trees in a memory

`child x i` is the node that entry `i` of node `x` refers to, and `node? child root path` the node at the
end of a path of entries. No sharing up to a depth means that different paths lead to different nodes; then
what a write to one node changes is seen along the paths through that node only.
-/

namespace Machine

variable {α ι : Type*} {child child' : α → ι → Option α} {root a b : α} {path other : List ι} {depth : ℕ}

/-- The node at the end of a path from the root. -/
def node? (child : α → ι → Option α) (root : α) (path : List ι) : Option α := path.foldlM child root

@[simp] theorem node?_nil : node? child root [] = some root := rfl

theorem node?_concat (i : ι) : node? child root (path ++ [i]) = (node? child root path).bind (child · i) := by
  rw [node?, List.foldlM_append]
  simp [node?]

theorem node?_cons (i : ι) : node? child root (i :: path) = (child root i).bind (node? child · path) := by
  rw [node?, List.foldlM_cons]
  rfl

theorem node?_congr (same : ∀ p x, p.length < path.length → node? child root p = some x → child' x = child x) :
    node? child' root path = node? child root path := by
  induction path using List.reverseRecOn with
  | nil => rfl
  | append_singleton path i ih =>
    rw [List.length_append, List.length_singleton] at same
    rw [node?_concat, node?_concat, ih fun p x shorter => same p x (by omega)]
    cases found : node? child root path with
    | none => rfl
    | some x => rw [Option.bind_some, Option.bind_some, same path x (Nat.lt_succ_self _) found]

/-- Different paths lead to different nodes. -/
def Unshared (child : α → ι → Option α) (root : α) (depth : ℕ) : Prop :=
  ∀ p q x, p.length ≤ depth → q.length ≤ depth → node? child root p = some x → node? child root q = some x → p = q

/-- A node in the last layer can be changed without moving any node. -/
theorem Unshared.node?_bottom (tree : Unshared child root depth) (short : path.length = depth)
    (found : node? child root path = some a) (same : ∀ x, x ≠ a → child' x = child x) (bound : other.length ≤ depth) :
    node? child' root other = node? child root other := by
  refine node?_congr fun p x shorter there => same x ?_
  rintro rfl
  have := tree p path x (by omega) (Nat.le_of_eq short) there found
  rw [this, short] at shorter
  omega

/-- A fresh node without children is attached where there was none: only its own path is new. -/
theorem Unshared.node?_attach [DecidableEq ι] (tree : Unshared child root depth) {i : ι} (short : path.length ≤ depth)
    (found : node? child root path = some a) (vacant : child a i = none) (entry : child' a i = some b)
    (others : ∀ j, j ≠ i → child' a j = child a j) (empty : ∀ j, child' b j = none)
    (same : ∀ x, x ≠ a → x ≠ b → child' x = child x)
    (fresh : ∀ p, p.length ≤ depth → node? child root p ≠ some b) (bound : other.length ≤ depth + 1) :
    node? child' root other = if other = path ++ [i] then some b else node? child root other := by
  induction other using List.reverseRecOn with
  | nil => simp
  | append_singleton p j ih =>
    rw [List.length_append, List.length_singleton] at bound
    have apart (differ : p ≠ path) : p ++ [j] ≠ path ++ [i] := fun eq => differ (List.append_inj' eq rfl).1
    rw [node?_concat, node?_concat, ih (by omega)]
    by_cases new : p = path ++ [i]
    · -- below the new node there is nothing, and there was nothing before
      have before : node? child root p = none := by rw [new, node?_concat, found, Option.bind_some, vacant]
      rw [if_pos new, if_neg (apart fun eq => by simp [eq] at new), before, Option.bind_some, empty, Option.bind_none]
    rw [if_neg new]
    cases at_p : node? child root p with
    | none =>
      rw [if_neg (apart fun eq => by cases at_p.symm.trans (eq ▸ found))]
      rfl
    | some x =>
      have not_fresh : x ≠ b := by
        rintro rfl
        exact fresh p (by omega) at_p
      rw [Option.bind_some, Option.bind_some]
      by_cases here : x = a
      · subst here
        obtain rfl := tree p path x (by omega) short at_p found
        by_cases same_entry : j = i
        · rw [same_entry, entry, if_pos rfl]
        · rw [others j same_entry, if_neg fun eq => same_entry (by simpa using eq)]
      · rw [same x here not_fresh, if_neg (apart fun eq => here (Option.some.inj (at_p.symm.trans (eq ▸ found))))]

theorem Unshared.attach [DecidableEq ι] (tree : Unshared child root depth)
    (fresh : ∀ p, p.length ≤ depth → node? child root p ≠ some b)
    (nodes : ∀ p, p.length ≤ depth → node? child' root p = if p = other then some b else node? child root p) :
    Unshared child' root depth := by
  intro p q x first second at_p at_q
  rw [nodes p first] at at_p
  rw [nodes q second] at at_q
  split_ifs at at_p at_q with new new' new'
  · rw [new, new']
  · cases at_p
    exact (fresh q second at_q).elim
  · cases at_q
    exact (fresh p first at_p).elim
  · exact tree p q x first second at_p at_q

end Machine
