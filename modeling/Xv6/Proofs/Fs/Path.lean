import Xv6.Model.Fs.Path
import Xv6.Proofs.Fs.Incore
import Xv6.Proofs.Fs.Tree

/-! # Walks along paths

`skipelem` finds the components of a path one after another. The loop of `namex` holds one reference at a time
and no lock between its rounds, so it ends with the inode that the components lead to, and with no other
reference.
-/

namespace Xv6.Fs

open Machine Image Op List
open Itable (ninode)
open Mkfs (rootino)

section Elements

variable {path name rest elem s : List UInt8} {c : UInt8}

theorem takeWhile_dropWhile_slash (path : List UInt8) :
    (path.dropWhile (· == slash)).takeWhile (· ≠ 0) = (path.takeWhile (· ≠ 0)).dropWhile (· == slash) := by
  induction path with
  | nil => rfl
  | cons c path ih =>
    by_cases here : c = slash
    · subst here
      rw [dropWhile_cons_of_pos (by simp), ih, takeWhile_cons_of_pos (by decide), dropWhile_cons_of_pos (by simp)]
    · rw [dropWhile_cons_of_neg (by simpa using here)]
      by_cases ended : c = 0
      · subst ended
        rw [takeWhile_cons_of_neg (by simp)]
        rfl
      · rw [takeWhile_cons_of_pos (by simpa using ended), dropWhile_cons_of_neg (by simpa using here)]

theorem components_dropWhile (path : List UInt8) : components (path.dropWhile (· == slash)) = components path := by
  rw [components, components, takeWhile_dropWhile_slash, words_dropWhile]

theorem components_of_ended (ended : path.headD 0 = 0) : components path = [] := by
  cases path with
  | nil => rfl
  | cons c path =>
    obtain rfl : c = 0 := ended
    rfl

theorem components_elem (plain : slash ∉ elem) (nonzero : 0 ∉ elem) (some : elem ≠ [])
    (ends : rest.headD 0 = 0 ∨ rest.headD 0 = slash) :
    components (elem ++ rest) = elem.take dirsiz :: components (rest.dropWhile (· == slash)) := by
  have front : (elem ++ rest).takeWhile (· ≠ 0) = elem ++ rest.takeWhile (· ≠ 0) := by
    refine takeWhile_append_of_pos fun c mem => decide_eq_true ?_
    rintro rfl
    exact nonzero mem
  rw [components_dropWhile, components, components, front]
  rcases ends with ended | more
  · have nothing : rest.takeWhile (· ≠ 0) = [] := by
      cases rest with
      | nil => rfl
      | cons c rest =>
        obtain rfl : c = 0 := ended
        rfl
    rw [nothing, append_nil, words_eq_singleton plain some]
    rfl
  · cases rest with
    | nil => exact absurd more (by decide)
    | cons c rest =>
      obtain rfl : c = slash := more
      rw [takeWhile_cons_of_pos (by decide), words_append_sep plain some, words_sep_cons]
      rfl

theorem headD_dropWhile_slash (s : List UInt8) : (s.dropWhile (· == slash)).headD 0 ≠ slash := by
  induction s with
  | nil => decide
  | cons c s ih =>
    by_cases here : c = slash
    · rwa [dropWhile_cons_of_pos (by simpa using here)]
    · rw [dropWhile_cons_of_neg (by simpa using here)]
      exact here

theorem split_elem (s : List UInt8) : ∃ elem rest, s.takeWhile (fun c => c ≠ slash ∧ c ≠ 0) = elem ∧
    s.dropWhile (fun c => c ≠ slash ∧ c ≠ 0) = rest ∧ s = elem ++ rest ∧ slash ∉ elem ∧ 0 ∉ elem ∧
    (rest.headD 0 = 0 ∨ rest.headD 0 = slash) := by
  refine ⟨_, _, rfl, rfl, takeWhile_append_dropWhile.symm, fun mem => ?_, fun mem => ?_, ?_⟩
  · simpa using mem_takeWhile_imp mem
  · simpa using mem_takeWhile_imp mem
  · induction s with
    | nil => exact .inl rfl
    | cons c s ih =>
      by_cases here : c ≠ slash ∧ c ≠ 0
      · rwa [dropWhile_cons_of_pos (by simpa using here)]
      · rw [dropWhile_cons_of_neg (by simpa using here)]
        change c = 0 ∨ c = slash
        tauto

theorem components_eq_nil (plain : path.headD 0 ≠ slash) : components path = [] ↔ path.headD 0 = 0 := by
  refine ⟨fun none => ?_, components_of_ended⟩
  by_contra more
  obtain ⟨elem, rest, -, -, split, noSlash, noNul, ends⟩ := split_elem path
  have some : elem ≠ [] := by
    rintro rfl
    rw [split, nil_append] at plain more
    exact ends.elim more plain
  rw [split, components_elem noSlash noNul some ends] at none
  cases none

/-- What one call of `skipelem` does. -/
inductive Skipped (path : List UInt8) : Option (List UInt8 × List UInt8) → Prop where
  | nothing : components path = [] → Skipped path none
  | element (elem rest name : List UInt8) : components path = elem :: components rest → cstring name = elem →
      rest.length < path.length → (rest.headD 0 = 0 ↔ components rest = []) →
      Skipped path (some (rest, name))

theorem key_cstring (name : List UInt8) : key (cstring name) = key name := by
  rw [key, key, cstring, strncpy_takeWhile, strncpy_take]

theorem cstring_append_nul (plain : 0 ∉ elem) (short : elem.length < dirsiz) (u : List UInt8) :
    cstring (elem ++ 0 :: u) = elem := by
  rw [cstring, take_append, take_of_length_le short.le, takeWhile_append_of_pos]
  · obtain ⟨n, more⟩ : ∃ n, dirsiz - elem.length = n + 1 := ⟨dirsiz - elem.length - 1, by omega⟩
    rw [more, take_succ_cons, takeWhile_cons_of_neg (by simp), append_nil]
  · intro c mem
    refine decide_eq_true ?_
    rintro rfl
    exact plain mem

theorem cstring_of_plain (plain : 0 ∉ elem) : cstring (elem.take dirsiz) = elem.take dirsiz := by
  rw [cstring, take_take, min_self, takeWhile_eq_self_iff]
  intro c mem
  refine decide_eq_true ?_
  rintro rfl
  exact plain (mem_of_mem_take mem)

theorem skipelem_skipped (path name : List UInt8) : Skipped path (skipelem path name) := by
  have plain := headD_dropWhile_slash path
  have whole := components_dropWhile path
  have shorter := (dropWhile_suffix (· == slash) (l := path)).length_le
  unfold skipelem
  dsimp only
  generalize path.dropWhile (· == slash) = s at plain whole shorter ⊢
  split
  · next ended =>
    refine .nothing ?_
    rw [← whole]
    exact components_of_ended ended
  · next more =>
    obtain ⟨elem, rest, taken, dropped, split, noSlash, noNul, ends⟩ := split_elem s
    have some : elem ≠ [] := by
      rintro rfl
      rw [split, nil_append] at plain more
      exact ends.elim more plain
    have length := congrArg List.length split
    have behind := (dropWhile_suffix (· == slash) (l := rest)).length_le
    have positive := length_pos_iff.mpr some
    rw [length_append] at length
    rw [taken, dropped]
    refine .element (elem.take dirsiz) _ _ ?_ ?_ (by omega) (components_eq_nil (headD_dropWhile_slash rest)).symm
    · rw [← whole, split, components_elem noSlash noNul some ends]
    · split
      · exact cstring_of_plain noNul
      · next short => rw [cstring_append_nul noNul (by omega), take_of_length_le (by omega)]

theorem elements_eq {n : ℕ} (path name : List UInt8) (enough : path.length ≤ n) :
    elements n path name = components path := by
  induction n generalizing path name with
  | zero =>
    obtain rfl := length_eq_zero_iff.mp (Nat.le_zero.mp enough)
    rfl
  | succ n ih =>
    rw [elements]
    have skipped := skipelem_skipped path name
    cases call : skipelem path name with
    | none =>
      rw [call] at skipped
      cases skipped with
      | nothing none => exact none.symm
    | some r =>
      rw [call] at skipped
      cases skipped with
      | element elem rest name' parts stored shorter _ =>
        rw [parts, ← ih rest name' (by omega), ← stored]

end Elements

namespace Image

variable {im : Image} {i v : ℕ} {name : List UInt8} {names : List (List UInt8)}

theorem resolve_cons (dir : (im.inode i).type = tDir) :
    im.resolve (name :: names) i = ((im.directory i).lookup (key name)).bind fun inum => im.resolve names inum.toNat :=
  if_pos dir

theorem resolve_of_not_dir (other : (im.inode i).type ≠ tDir) : im.resolve (name :: names) i = none := if_neg other

/-- The directory that all components but the last lead to. -/
def parent (im : Image) (names : List (List UInt8)) (i : ℕ) : Option ℕ :=
  if names = [] then none else (im.resolve names.dropLast i).filter fun d => (im.inode d).type = tDir

/-- What a walk is for. -/
def target (im : Image) : (parent : Bool) → List (List UInt8) → ℕ → Option ℕ
  | false => im.resolve
  | true => im.parent

theorem target_of_not_dir (other : (im.inode i).type ≠ tDir) (parent : Bool) :
    im.target parent (name :: names) i = none := by
  cases parent with
  | false => exact resolve_of_not_dir other
  | true =>
    cases names with
    | nil | cons => simp [target, Image.parent, resolve, other]

theorem target_last (dir : (im.inode i).type = tDir) : im.target true [name] i = some i := by
  simp [target, parent, resolve, dir]

/-- One more step of a walk, where it is not the end. -/
theorem target_cons {parent : Bool} (dir : (im.inode i).type = tDir) (more : parent = true → names ≠ []) :
    im.target parent (name :: names) i =
      ((im.directory i).lookup (key name)).bind fun inum => im.target parent names inum.toNat := by
  cases parent with
  | false => exact resolve_cons dir
  | true =>
    cases names with
    | nil => exact absurd rfl (more rfl)
    | cons next names =>
      rw [target, Image.parent, if_neg (cons_ne_nil _ _), dropLast_cons_cons, resolve_cons dir]
      cases (im.directory i).lookup (key name) with
      | none => rfl
      | some v => rw [Option.bind_some, Option.bind_some, Image.parent, if_neg (cons_ne_nil _ _)]

/-- A directory on the way is no inode at all. -/
def Dangling (im : Image) (names : List (List UInt8)) (i : ℕ) : Prop :=
  ∃ front name back d, names = front ++ name :: back ∧ im.resolve front i = some d ∧ (im.inode d).type = 0

theorem Dangling.cons {inum : UInt16} (dangling : im.Dangling names inum.toNat) (dir : (im.inode i).type = tDir)
    (found : (im.directory i).lookup (key name) = some inum) : im.Dangling (name :: names) i := by
  obtain ⟨front, next, back, d, rfl, walked, free⟩ := dangling
  refine ⟨name :: front, next, back, d, rfl, ?_, free⟩
  rw [resolve_cons dir, found, Option.bind_some, walked]

end Image

namespace Kern

variable {sb : Superblock} {base : Fin ninode → Incore} {own : Multiset (Fin ninode)} {h : Finset (Fin ninode)}
  {k k' : Kernel}
  {p q : Fin ninode} {name : List UInt8}

/-- The table has an entry for every inode without links. -/
def Anchored (base : Fin ninode → Incore) (im : Image) : Prop :=
  ∀ i, Orphan im i → ∃ p, 0 < (base p).ref ∧ (base p).inum = i

/-- All entries of the table are in use, but one perhaps. -/
def Crowded (base : Fin ninode → Incore) : Prop := ∃ p, ∀ q ≠ p, 0 < (base q).ref

theorem crowded_of_full (owns : Owns sb base {p} h k) (full : ∀ q, 0 < (k.table q).ref) : Crowded base := by
  refine ⟨p, fun q other => ?_⟩
  have used := full q
  rw [owns.ref, Multiset.count_singleton, if_neg other] at used
  exact used

section

variable (owns : Owns sb base own h k)
include owns

/-- A reference that a call has taken is never the last one of an inode without links. -/
theorem linked_of_anchored (mine : p ∈ own) (anchored : Anchored base (sb.image k.store.disk))
    (last : (k.table p).ref = 1) (valid : (k.table p).valid = true) : (k.table p).din.nlink ≠ 0 := by
  intro unlinked
  have used := owns.pos_of_mem mine
  have loaded := owns.current p used valid
  have inode := loaded.current
  rw [Incore.inode_inum, Incore.inode_toDinode] at inode
  have orphan : Orphan (sb.image k.store.disk) (k.table p).inum := by
    rw [Orphan, inode]
    exact ⟨loaded.live, unlinked⟩
  obtain ⟨q, before, same⟩ := anchored _ orphan
  obtain rfl := owns.unique q p (owns.pos_of_base before) used ((owns.inum q before).trans same)
  have count := owns.ref q
  have := Multiset.count_pos.mpr mine
  omega

/-- A lock and a reference are given back, and nothing is freed. -/
theorem iunlockput_anchored (mine : p ∈ own) (locked : p ∈ h) (anchored : Anchored base (sb.image k.store.disk)) :
    Ensures (iunlockput sb p) k (fun _ k' => k'.store = k.store ∧ Owns sb base (own.erase p) (h.erase p) k' ∧
      ∀ q, (k'.table q).inum = (k.table q).inum) fun _ => False := by
  refine (iunlockput_ensures owns mine locked fun last =>
    linked_of_anchored owns mine anchored last (owns.held p locked).2).mono ?_
  rintro - k' ⟨store, owns', self, others⟩
  refine ⟨store, owns', fun q => ?_⟩
  by_cases here : q = p
  · rw [here, self]
  · rw [others q here]

theorem din_of_held (mine : p ∈ h) : (k.table p).din = (sb.image k.store.disk).inode (k.table p).inum :=
  (owns.loaded mine).current.symm

theorem dirlookup_ensures (mine : p ∈ h) (tidy : Tidy sb (sb.image k.store.disk))
    (dir : (k.table p).din.type = tDir) (name : List UInt8) :
    Ensures (dirlookup sb p name) k (fun r k' => k'.store = k.store ∧ Steady k k' ∧
      (r = none ∧ ((sb.image k.store.disk).directory (k.table p).inum).lookup (key name) = none ∧
      Owns sb base own h k' ∨
        ∃ q j inum, r = some (q, direntSize * j) ∧ j < (sb.image k.store.disk).entries (k.table p).inum ∧
          ((sb.image k.store.disk).directory (k.table p).inum).slot j = some (key name, inum) ∧
          ((sb.image k.store.disk).directory (k.table p).inum).lookup (key name) = some inum ∧
          (k'.table q).inum = inum.toNat ∧ Owns sb base (q ::ₘ own) h k'))
      fun e => e = .igetNoInodes ∧ ∀ q, 0 < (k.table q).ref := by
  have loaded := owns.loaded mine
  have din := din_of_held owns mine
  have type : ((sb.image k.store.disk).inode (k.table p).inum).type = tDir := by rw [← din, dir]
  have size := tidy.whole _ type
  rw [← din] at size
  refine ((onInode_ensures owns mine (dirlookup_map tidy.consistent loaded name) ?_).allow ?_).bind ?_
  · rintro ip a s' ⟨rfl, rfl, -⟩
    exact ⟨rfl, loaded, fun _ _ => rfl⟩
  · rintro e ⟨f, rfl, ⟨-, other⟩ | ⟨-, odd⟩⟩
    · exact absurd dir other
    · exact absurd size odd
  rintro r k₁ ⟨ip, ⟨store, same, value, place⟩, owns₁, self, others⟩
  have table : k₁.table = k.table := by
    funext q
    by_cases here : q = p
    · subst here
      have : ip = (k.table q).inode := same
      rw [self, this]
      rfl
    · exact others q here
  have store' : k₁.store = k.store := store
  dsimp only at value place
  rw [Incore.inode_inum] at value place
  cases r with
  | none => exact .pure ⟨store', fun q _ => by rw [Counted, table], .inl ⟨rfl, value.symm, owns₁⟩⟩
  | some found =>
    obtain ⟨off, inum⟩ := found
    obtain ⟨j, inside, rfl, slot⟩ := place off inum rfl
    have known : inum.toNat < sb.ninodes := by
      have here := (Dirent.binding_eq_some.mp slot).2.2
      rw [← here]
      exact tidy.listed _ type j inside
    refine ((iget_ensures owns₁ known).allow ?_).bind ?_
    · rintro e ⟨rfl, full⟩
      rw [table] at full
      exact ⟨rfl, full⟩
    · rintro q k₂ ⟨store₂, owns₂, num, others₂, counted⟩
      refine .pure ⟨store₂.trans store', fun x used => ?_, .inr ⟨q, j, inum, rfl, inside, slot, value.symm, num, owns₂⟩⟩
      rw [← table] at used ⊢
      by_cases here : x = q
      · subst here
        exact counted used
      · rw [Counted, others₂ x here]

end

/-- How a walk ends. -/
inductive Walked (sb : Superblock) (base : Fin ninode → Incore) (im : Image) (parent : Bool)
    (names : List (List UInt8)) (i : ℕ) :
    Option (Fin ninode) × List UInt8 → Kernel → Prop where
  | missing (name : List UInt8) (k' : Kernel) : im.target parent names i = none → Owns sb base 0 ∅ k' →
      Walked sb base im parent names i (none, name) k'
  | reached (q : Fin ninode) (name : List UInt8) (k' : Kernel) : im.target parent names i = some (k'.table q).inum →
      (parent = true → names.getLast? = some (cstring name) ∧ (im.inode (k'.table q).inum).type = tDir) →
      Owns sb base {q} ∅ k' → Walked sb base im parent names i (some q, name) k'

/-- How a walk stops the kernel. -/
def Lost (base : Fin ninode → Incore) (im : Image) (names : List (List UInt8)) (i : ℕ) (e : Stop) : Prop :=
  e = .igetNoInodes ∧ Crowded base ∨ e = .fault .ilockNoType ∧ im.Dangling names i

theorem Walked.cons {im : Image} {parent : Bool} {names : List (List UInt8)} {i : ℕ} {inum : UInt16}
    {r : Option (Fin ninode) × List UInt8}
    (walked : Walked sb base im parent names inum.toNat r k') (dir : (im.inode i).type = tDir)
    (more : parent = true → names ≠ [])
    (found : (im.directory i).lookup (key name) = some inum) : Walked sb base im parent (name :: names) i r k' := by
  have step : im.target parent (name :: names) i = im.target parent names inum.toNat := by
    rw [target_cons dir more, found, Option.bind_some]
  cases walked with
  | missing _ _ absent owns => exact .missing _ _ (step.trans absent) owns
  | reached q _ _ there last owns =>
    refine .reached q _ _ (step.trans there) (fun up => ?_) owns
    obtain ⟨next, names, rfl⟩ := exists_cons_of_ne_nil (more up)
    rw [getLast?_cons_cons]
    exact last up

theorem iunlockput_first (owns : Owns sb base (p ::ₘ own) (insert p ∅) k)
    (anchored : Anchored base (sb.image k.store.disk)) :
    Ensures (iunlockput sb p) k (fun _ k' => k'.store = k.store ∧ Owns sb base own ∅ k' ∧
      ∀ q, (k'.table q).inum = (k.table q).inum) fun _ => False := by
  refine (iunlockput_anchored owns (Multiset.mem_cons_self ..) (Finset.mem_insert_self ..) anchored).mono ?_
  rintro - k' ⟨store, owns', inums⟩
  rw [Multiset.erase_cons_head, Finset.erase_insert (Finset.notMem_empty p)] at owns'
  exact ⟨store, owns', inums⟩

theorem namexLoop_ensures (parent : Bool) {fuel : ℕ} {path : List UInt8} (name : List UInt8)
    (enough : path.length < fuel)
    (tidy : Tidy sb (sb.image k.store.disk)) (anchored : Anchored base (sb.image k.store.disk))
    (owns : Owns sb base {p} ∅ k) :
    Ensures (namexLoop sb parent fuel path name p) k
      (fun r k' => k'.store = k.store ∧
        Walked sb base (sb.image k.store.disk) parent (components path) (k.table p).inum r k')
      (Lost base (sb.image k.store.disk) (components path) (k.table p).inum) := by
  induction fuel generalizing path name p k with
  | zero => exact absurd enough (Nat.not_lt_zero _)
  | succ fuel ih =>
    have mine : p ∈ ({p} : Multiset (Fin ninode)) := Multiset.mem_singleton_self p
    have skipped := skipelem_skipped path name
    rw [namexLoop]
    cases call : skipelem path name with
    | none =>
      rw [call] at skipped
      obtain ⟨none⟩ := skipped
      rw [none]
      refine .ite (fun up => ?_) fun down => ?_
      · refine ((iput_spare owns mine (absurd · (Finset.notMem_empty p))
          (linked_of_anchored owns mine anchored)).lift).bind ?_
        rintro - k₁ ⟨store, owns₁, -, -⟩
        rw [Multiset.erase_singleton] at owns₁
        rw [up]
        exact .pure ⟨store, .missing _ _ rfl owns₁⟩
      · rw [Bool.not_eq_true] at down
        rw [down]
        exact .pure ⟨rfl, .reached p _ _ rfl (fun up => by cases up) owns⟩
    | some r =>
      rw [call] at skipped
      obtain _ | ⟨elem, rest, name, parts, stored, shorter, ended⟩ := skipped
      rw [parts]
      dsimp only
      have used := owns.pos_of_mem mine
      refine ((ilock_ensures owns used (Finset.notMem_empty p)).allow ?_).bind ?_
      · rintro e ⟨rfl, free⟩
        exact .inr ⟨rfl, [], elem, components rest, _, rfl, rfl, free⟩
      rintro - k₁ ⟨store₁, owns₁, inum₁, ref₁, others₁⟩
      have held : p ∈ insert p (∅ : Finset (Fin ninode)) := Finset.mem_insert_self ..
      have din := din_of_held owns₁ held
      rw [store₁, inum₁] at din
      refine entry_bind (.ite (fun other => ?_) fun dir => ?_)
      · -- a file cannot be searched
        rw [din] at other
        refine (iunlockput_first owns₁ (by rwa [store₁])).lift.bind ?_
        rintro - k₂ ⟨store₂, owns₂, -⟩
        exact .pure ⟨store₂.trans store₁, .missing _ _ (target_of_not_dir other parent) owns₂⟩
      have isDir := not_not.mp dir
      rw [din] at isDir
      refine .ite (fun last => ?_) fun more => ?_
      · -- the directory of the last component
        refine (iunlock_ensures owns₁ held).lift.bind ?_
        rintro - k₂ ⟨store₂, owns₂, self₂, -⟩
        rw [Finset.erase_insert (Finset.notMem_empty p)] at owns₂
        have inum₂ : (k₂.table p).inum = (k.table p).inum := by rw [self₂, ← inum₁]
        rw [ended.mp last.2, last.1]
        refine .pure ⟨store₂.trans store₁, .reached p _ _ ?_ (fun _ => ⟨?_, ?_⟩) owns₂⟩
        · rw [target_last isDir, inum₂]
        · rw [stored]
          rfl
        · rwa [inum₂]
      have goes : parent = true → components rest ≠ [] := fun up none => more ⟨up, ended.mpr none⟩
      have tidy₁ : Tidy sb (sb.image k₁.store.disk) := by rwa [store₁]
      refine ((dirlookup_ensures owns₁ held tidy₁ (not_not.mp dir) name).allow ?_).bind ?_
      · rintro e ⟨rfl, full⟩
        exact .inl ⟨rfl, crowded_of_full owns₁ full⟩
      rintro r k₂ ⟨store₂, steady, outcome⟩
      have store : k₂.store = k.store := store₂.trans store₁
      rw [store₁, inum₁] at outcome
      have sameKey : key name = key elem := by rw [← stored, key_cstring]
      rcases outcome with ⟨rfl, absent, owns₂⟩ | ⟨next, j, inum, rfl, -, -, found, num, owns₂⟩
      · refine (iunlockput_first owns₂ (by rwa [store])).lift.bind ?_
        rintro - k₃ ⟨store₃, owns₃, -⟩
        refine .pure ⟨store₃.trans store, .missing _ _ ?_ owns₃⟩
        rw [target_cons isDir goes, ← sameKey, absent, Option.bind_none]
      · rw [sameKey] at found
        have swapped : Owns sb base (p ::ₘ {next}) (insert p ∅) k₂ := by
          have : next ::ₘ ({p} : Multiset (Fin ninode)) = p ::ₘ {next} := Multiset.pair_comm next p
          rwa [this] at owns₂
        refine (iunlockput_first swapped (by rwa [store])).lift.bind ?_
        rintro - k₃ ⟨unmoved, owns₃, inums⟩
        have store₃ : k₃.store = k.store := unmoved.trans store
        have inum₃ : (k₃.table next).inum = inum.toNat := (inums next).trans num
        have tidy₃ : Tidy sb (sb.image k₃.store.disk) := by rwa [store₃]
        have anchored₃ : Anchored base (sb.image k₃.store.disk) := by rwa [store₃]
        have recursive := ih name (Nat.lt_of_lt_of_le shorter (Nat.le_of_lt_succ enough)) tidy₃ anchored₃ owns₃
        rw [inum₃, store₃] at recursive
        refine (recursive.allow ?_).mono ?_
        · rintro e (full | ⟨rfl, dangling⟩)
          · exact .inl full
          · exact .inr ⟨rfl, dangling.cons isDir found⟩
        · rintro r k₄ ⟨store₄, walked⟩
          exact ⟨store₄, walked.cons isDir goes found⟩

/-- The file system between two calls: nothing is locked, every reference is to an allocated inode, and inodes without
links are in the table. -/
structure Quiet (sb : Superblock) (k : Kernel) : Prop where
  tidy : Tidy sb (sb.image k.store.disk)
  idle : Idle sb k
  live : ∀ p, 0 < (k.table p).ref → ((sb.image k.store.disk).inode (k.table p).inum).type ≠ 0
  anchored : Anchored k.table (sb.image k.store.disk)

/-- Where a walk starts. -/
def origin (k : Kernel) (cwd : Fin ninode) (path : List UInt8) : ℕ :=
  if path.headD 0 = slash then rootino else (k.table cwd).inum

/-- A walk from a table without locks, where every inode without links has an entry. -/
theorem namex_ensures {cwd : Fin ninode} (tidy : Tidy sb (sb.image k.store.disk)) (idle : Idle sb k)
    (anchored : Anchored k.table (sb.image k.store.disk)) (here : 0 < (k.table cwd).ref) (path name : List UInt8)
    (parent : Bool) :
    Ensures (namex sb cwd path parent name) k
      (fun r k' => k'.store = k.store ∧
        Walked sb k.table (sb.image k.store.disk) parent (components path) (origin k cwd path) r k')
      (Lost k.table (sb.image k.store.disk) (components path) (origin k cwd path)) := by
  have walk {p : Fin ninode} {k₁ : Kernel} (store : k₁.store = k.store) (owns : Owns sb k.table {p} ∅ k₁)
      (start : (k₁.table p).inum = origin k cwd path) :
      Ensures (namexLoop sb parent (path.length + 1) path name p) k₁
        (fun r k' => k'.store = k.store ∧
          Walked sb k.table (sb.image k.store.disk) parent (components path) (origin k cwd path) r k')
        (Lost k.table (sb.image k.store.disk) (components path) (origin k cwd path)) := by
    rw [← store] at tidy anchored
    have walks := namexLoop_ensures parent name (Nat.lt_succ_self path.length) tidy anchored owns
    rwa [start, store] at walks
  unfold namex
  by_cases absolute : path.headD 0 = slash
  · rw [if_pos absolute]
    refine ((iget_ensures idle tidy.root).allow ?_).bind ?_
    · rintro e ⟨rfl, full⟩
      exact .inl ⟨rfl, cwd, fun q _ => full q⟩
    · rintro p k₁ ⟨store, owns, inum, -⟩
      exact walk store owns (by rw [inum, origin, if_pos absolute])
  · rw [if_neg absolute]
    refine (idup_ensures idle here).lift.bind ?_
    rintro p k₁ ⟨rfl, store, owns, table⟩
    exact walk store owns (by rw [table, Function.update_self, origin, if_neg absolute])

end Kern

end Xv6.Fs
