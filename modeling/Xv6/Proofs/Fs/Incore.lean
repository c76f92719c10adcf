import Mathlib.Data.Finset.Basic
import Xv6.Model.Fs.Incore
import Xv6.Proofs.Fs.Truncate

/-! # References and locks of a call

What a call has done to the inode table is told by the pointers that it owns, each as often as it has a
reference for it, and by the entries that it has locked. Every other reference is one that was there
before.
-/

namespace Xv6.Fs

open Machine Image Op Function Multiset
open Itable (ninode)

@[simp] theorem Incore.inode_inum (e : Incore) : e.inode.inum = e.inum := rfl
@[simp] theorem Incore.inode_toDinode (e : Incore) : e.inode.toDinode = e.din := rfl

/-- The table when a call that began with `base` has the references `own` and the locks `h`. A valid entry is a copy of
an inode on the disk. -/
structure Owns (sb : Superblock) (base : Fin ninode → Incore) (own : Multiset (Fin ninode)) (h : Finset (Fin ninode))
    (k : Kernel) : Prop where
  ref : ∀ p, (k.table p).ref = (base p).ref + own.count p
  inum : ∀ p, 0 < (base p).ref → (k.table p).inum = (base p).inum
  unique : ∀ p q, 0 < (k.table p).ref → 0 < (k.table q).ref → (k.table p).inum = (k.table q).inum → p = q
  known : ∀ p, 0 < (k.table p).ref → (k.table p).inum < sb.ninodes
  current : ∀ p, 0 < (k.table p).ref → (k.table p).valid = true → Loaded sb k.store (k.table p).inode
  locked : ∀ p, (k.table p).locked = decide (p ∈ h)
  held : ∀ p ∈ h, 0 < (k.table p).ref ∧ (k.table p).valid = true

variable {own' : Multiset (Fin ninode)} {e : Incore} {i : ℕ}

namespace Kern

/-- The table before: entries in use are for different inodes, with their copies of the disk, and nothing is locked. -/
abbrev Idle (sb : Superblock) (k : Kernel) : Prop := Owns sb k.table 0 ∅ k

/-- An allocated inode without links. -/
def Orphan (im : Image) (i : ℕ) : Prop := (im.inode i).type ≠ 0 ∧ (im.inode i).nlink = 0

variable {sb : Superblock} {base : Fin ninode → Incore} {own : Multiset (Fin ninode)} {h : Finset (Fin ninode)}
  {k k' : Kernel}
  {p q : Fin ninode}

section Programs

variable {α β : Type} {final : β → Kernel → Prop} {fails : Stop → Prop}

theorem onStore_ensures {m : Op α} {post : α → Store → Prop} {faults : Fault → Prop}
    (spec : Ensures m k.store post faults) :
    Ensures (onStore m) k (fun a k' => post a k'.store ∧ k'.table = k.table) fun e => ∃ f, e = .fault f ∧ faults f := by
  unfold Ensures at spec ⊢
  cases result : m.run k.store with
  | error f =>
    have ran : (onStore m).run k = .error (.fault f) := by
      change onStore m k = _
      simp only [onStore, result]
    rw [result] at spec
    rw [ran]
    exact ⟨f, rfl, spec⟩
  | ok reached =>
    have ran : (onStore m).run k = .ok (reached.1, { k with store := reached.2 }) := by
      change onStore m k = _
      simp only [onStore, result]
    rw [result] at spec
    rw [ran]
    exact ⟨spec, rfl⟩

theorem entry_bind {f : Incore → Kern β} (rest : Ensures (f (k.table p)) k final fails) :
    Ensures (entry p >>= f) k final fails := rest

theorem setEntry_bind {f : Unit → Kern β}
    (rest : Ensures (f ()) { k with table := update k.table p e } final fails) :
    Ensures (setEntry p e >>= f) k final fails := rest

theorem setEntry_ensures {post : Unit → Kernel → Prop}
    (done : post () { k with table := update k.table p e }) : Ensures (setEntry p e) k post fails := done

end Programs

end Kern

namespace Owns

variable {sb : Superblock} {base : Fin ninode → Incore} {own : Multiset (Fin ninode)} {h : Finset (Fin ninode)}
  {k k' : Kernel}
  {p q : Fin ninode}

theorem pos_of_mem (owns : Owns sb base own h k) (mine : p ∈ own) : 0 < (k.table p).ref := by
  rw [owns.ref]
  exact Nat.add_pos_right _ (count_pos.mpr mine)

theorem pos_of_base (owns : Owns sb base own h k) (before : 0 < (base p).ref) : 0 < (k.table p).ref := by
  rw [owns.ref]
  exact Nat.add_pos_left before _

theorem loaded (owns : Owns sb base own h k) (mine : p ∈ h) : Loaded sb k.store (k.table p).inode := by
  obtain ⟨used, valid⟩ := owns.held p mine
  exact owns.current p used valid

theorem idle (owns : Owns sb base own ∅ k) : Kern.Idle sb k :=
  ⟨fun p => by rw [count_zero, Nat.add_zero], fun _ _ => rfl, owns.unique,
    owns.known, owns.current, owns.locked, owns.held⟩

/-- The references of a call within a call. -/
theorem trans (owns : Owns sb base own ∅ k) (inner : Owns sb k.table own' h k') :
    Owns sb base (own' + own) h k' := by
  refine ⟨fun p => ?_, fun p before => ?_, inner.unique, inner.known, inner.current, inner.locked, inner.held⟩
  · rw [inner.ref, owns.ref, count_add]
    omega
  · rw [inner.inum p (owns.pos_of_base before), owns.inum p before]

section

variable (owns : Owns sb base own h k)
include owns

theorem set {h' : Finset (Fin ninode)}
    (table : k'.table = update k.table p e) (count : e.ref = (base p).ref + own'.count p)
    (others : ∀ q ≠ p, own'.count q = own.count q) (inum : 0 < e.ref → e.inum = (k.table p).inum ∧ 0 < (k.table p).ref)
    (kept : ∀ q ≠ p, 0 < (k.table q).ref → (k.table q).valid = true → Loaded sb k'.store (k.table q).inode)
    (current : 0 < e.ref → e.valid = true → Loaded sb k'.store e.inode) (locked : e.locked = decide (p ∈ h'))
    (locks : ∀ q ≠ p, (q ∈ h' ↔ q ∈ h)) (held : p ∈ h' → 0 < e.ref ∧ e.valid = true) :
    Owns sb base own' h' k' := by
  have self : k'.table p = e := by rw [table, update_self]
  have other (q : Fin ninode) (distinct : q ≠ p) : k'.table q = k.table q := by rw [table, update_of_ne distinct]
  have used (q : Fin ninode) (now : 0 < (k'.table q).ref) :
      0 < (k.table q).ref ∧ (k'.table q).inum = (k.table q).inum := by
    by_cases here : q = p
    · subst here
      rw [self] at now ⊢
      exact ⟨(inum now).2, (inum now).1⟩
    · rw [other q here] at now ⊢
      exact ⟨now, rfl⟩
  refine ⟨fun q => ?_, fun q before => ?_, fun q r first second same => ?_, fun q now => ?_,
    fun q now valid => ?_, fun q => ?_, fun q mine => ?_⟩
  · by_cases here : q = p
    · rw [here, self, count]
    · rw [other q here, owns.ref, others q here]
  · by_cases here : q = p
    · subst here
      rw [self, ← owns.inum q before]
      exact (inum (by rw [count]; exact Nat.add_pos_left before _)).1
    · rw [other q here, owns.inum q before]
  · obtain ⟨first, firstNum⟩ := used q first
    obtain ⟨second, secondNum⟩ := used r second
    rw [firstNum, secondNum] at same
    exact owns.unique q r first second same
  · obtain ⟨now, num⟩ := used q now
    rw [num]
    exact owns.known q now
  · by_cases here : q = p
    · subst here
      rw [self] at now valid ⊢
      exact current now valid
    · rw [other q here] at now valid ⊢
      exact kept q here now valid
  · by_cases here : q = p
    · rw [here, self, locked]
    · rw [other q here, owns.locked, decide_eq_decide, locks q here]
  · by_cases here : q = p
    · subst here
      rw [self]
      exact held mine
    · rw [other q here]
      exact owns.held q ((locks q here).mp mine)

theorem of_store (table : k'.table = k.table) (kept : ∀ q, 0 < (k.table q).ref → (k.table q).valid = true →
      (sb.image k'.store.disk).inode (k.table q).inum = (sb.image k.store.disk).inode (k.table q).inum) : Owns sb base
      own h k' := by
  obtain ⟨ref, inum, unique, known, current, locked, held⟩ := owns
  rw [← table] at ref inum unique known current locked held kept
  refine ⟨ref, inum, unique, known, fun q used valid => ?_, locked, held⟩
  have loaded := current q used valid
  exact ⟨loaded.known, (kept q used valid).trans loaded.current, loaded.live⟩

theorem again (used : 0 < (k.table p).ref) :
    Owns sb base (p ::ₘ own) h { k with table := update k.table p { k.table p with ref := (k.table p).ref + 1 } } := by
  refine owns.set rfl ?_ (fun q other => count_cons_of_ne other own) (fun _ => ⟨rfl, used⟩)
    (fun q _ => owns.current q) (fun _ => owns.current p used) (owns.locked p) (fun _ _ => Iff.rfl)
    fun mine => ⟨Nat.succ_pos _, (owns.held p mine).2⟩
  dsimp only
  rw [owns.ref, count_cons_self, Nat.add_assoc]

theorem recycle (free : (k.table p).ref = 0) (known : i < sb.ninodes)
    (absent : ∀ q, 0 < (k.table q).ref → (k.table q).inum ≠ i) :
    Owns sb base (p ::ₘ own) h { k with
      table := update k.table p { k.table p with inum := i, ref := 1, valid := false } } := by
  have nobody := owns.ref p
  rw [free] at nobody
  have self : update k.table p { k.table p with inum := i, ref := 1, valid := false } p =
      { k.table p with inum := i, ref := 1, valid := false } := update_self ..
  have other (q : Fin ninode) (distinct : q ≠ p) :
      update k.table p { k.table p with inum := i, ref := 1, valid := false } q = k.table q :=
    update_of_ne distinct ..
  refine ⟨fun q => ?_, fun q before => ?_, fun q r first second same => ?_, fun q now => ?_,
    fun q now valid => ?_, fun q => ?_, fun q mine => ?_⟩ <;> dsimp only at *
  · by_cases here : q = p
    · subst here
      rw [self, count_cons_self]
      dsimp only
      omega
    · rw [other q here, count_cons_of_ne here, owns.ref]
  · rw [other q (by rintro rfl; omega), owns.inum q before]
  · by_cases here : q = p <;> by_cases there : r = p
    · rw [here, there]
    · subst here
      rw [self, other r there] at same
      rw [other r there] at second
      exact absurd same.symm (absent r second)
    · subst there
      rw [self, other q here] at same
      rw [other q here] at first
      exact absurd same (absent q first)
    · rw [other q here] at first same
      rw [other r there] at second same
      exact owns.unique q r first second same
  · by_cases here : q = p
    · subst here
      rw [self]
      exact known
    · rw [other q here] at now ⊢
      exact owns.known q now
  · by_cases here : q = p
    · subst here
      rw [self] at valid
      cases valid
    · rw [other q here] at now valid ⊢
      exact owns.current q now valid
  · by_cases here : q = p
    · subst here
      rw [self]
      exact owns.locked q
    · rw [other q here]
      exact owns.locked q
  · have distinct : q ≠ p := by
      rintro rfl
      have := (owns.held q mine).1
      omega
    rw [other q distinct]
    exact owns.held q mine

end

end Owns

namespace Kern

variable {sb : Superblock} {base : Fin ninode → Incore} {own : Multiset (Fin ninode)} {h : Finset (Fin ninode)}
  {k k' : Kernel}
  {p q : Fin ninode}

theorem idup_ensures (owns : Owns sb base own h k) (used : 0 < (k.table p).ref) :
    Ensures (idup p) k (fun q k' => q = p ∧ k'.store = k.store ∧ Owns sb base (p ::ₘ own) h k' ∧
      k'.table = update k.table p { k.table p with ref := (k.table p).ref + 1 }) fun _ => False :=
  entry_bind (setEntry_bind (.pure ⟨rfl, rfl, owns.again used, rfl⟩))

/-- Only the reference count of an entry in use changes. -/
def Counted (e e' : Incore) : Prop := e' = { e with ref := e'.ref }

section

variable (owns : Owns sb base own h k)
include owns

theorem iget_ensures (known : i < sb.ninodes) :
    Ensures (iget i) k (fun p k' => k'.store = k.store ∧ Owns sb base (p ::ₘ own) h k' ∧ (k'.table p).inum = i ∧
      (∀ q ≠ p, k'.table q = k.table q) ∧ (0 < (k.table p).ref → Counted (k.table p) (k'.table p)))
      fun e => e = .igetNoInodes ∧ ∀ q, 0 < (k.table q).ref := by
  refine .get_bind ?_
  cases scanned : present? k.table i with
  | some p =>
    have found := List.find?_some scanned
    rw [decide_eq_true_eq] at found
    refine ((idup_ensures owns found.1).mono ?_).lift
    rintro q k' ⟨rfl, store, owns', table⟩
    have self := congrFun table q
    rw [update_self] at self
    refine ⟨store, owns', ?_, fun r other => ?_, fun _ => ?_⟩
    · rw [self]
      exact found.2
    · rw [table, update_of_ne other]
    · rw [Counted, self]
  | none =>
    have absent (q : Fin ninode) (used : 0 < (k.table q).ref) : (k.table q).inum ≠ i := by
      have other := List.find?_eq_none.mp scanned q (List.mem_finRange q)
      rw [decide_eq_true_eq] at other
      exact fun same => other ⟨used, same⟩
    refine .get_bind ?_
    cases spare : empty? k.table with
    | none =>
      refine .throw ⟨rfl, fun q => Nat.pos_of_ne_zero ?_⟩
      simpa using List.find?_eq_none.mp spare q (List.mem_finRange q)
    | some p =>
      have free : (k.table p).ref = 0 := by simpa using List.find?_some spare
      refine entry_bind (setEntry_bind (.pure ⟨rfl, owns.recycle free known absent, ?_, fun q other => ?_,
        fun used => ?_⟩))
      · dsimp only
        rw [update_self]
      · exact update_of_ne other ..
      · omega

theorem ilock_ensures (used : 0 < (k.table p).ref) (free : p ∉ h) :
    Ensures (ilock sb p) k (fun _ k' => k'.store = k.store ∧ Owns sb base own (insert p h) k' ∧
      (k'.table p).inum = (k.table p).inum ∧ (k'.table p).ref = (k.table p).ref ∧ ∀ q ≠ p, k'.table q = k.table q)
      fun e => e = .fault .ilockNoType ∧ ((sb.image k.store.disk).inode (k.table p).inum).type = 0 := by
  refine entry_bind ?_
  rw [if_neg (by omega), owns.locked p, decide_eq_false free, if_neg (by simp)]
  have locking {e : Incore} (valid : e.valid = true) (ref : e.ref = (k.table p).ref) (inum : e.inum = (k.table p).inum)
      (locked : e.locked = true) (loaded : Loaded sb k.store e.inode) :
      Owns sb base own (insert p h) { k with table := update k.table p e } := by
    refine owns.set rfl (by rw [ref, owns.ref]) (fun _ _ => rfl) (fun _ => ⟨inum, used⟩) (fun q _ => owns.current q)
      (fun _ _ => loaded) (by simp [locked]) (fun q other => ?_) fun _ => ⟨by rw [ref]; exact used, valid⟩
    rw [Finset.mem_insert, or_iff_right other]
  refine .ite (fun valid => ?_) fun stale => ?_
  · refine setEntry_ensures ⟨rfl, locking valid rfl rfl rfl (owns.current p used valid), ?_, ?_, fun q other => ?_⟩
    · dsimp only
      rw [update_self]
    · dsimp only
      rw [update_self]
    · exact update_of_ne other ..
  · have reads :
        Ensures (Op.ilock sb (k.table p).inum) k.store (fun ip s' => s' = k.store ∧ ip.inum = (k.table p).inum ∧
        Loaded sb k.store ip) fun f => f = .ilockNoType ∧
        ((sb.image k.store.disk).inode (k.table p).inum).type = 0 := by
      have inode : (sb.image k.store.disk).inode (k.table p).inum =
          Dinode.decode (k.store.disk (sb.iblock (k.table p).inum)) ((k.table p).inum % ipb) :=
          if_pos (owns.known p used)
      refine bread_bind (.ite (fun zero => .throw ⟨rfl, by rw [inode]; exact zero⟩) fun live => .pure ⟨rfl, rfl, ?_⟩)
      exact ⟨owns.known p used, inode, live⟩
    refine (((onStore_ensures reads).allow ?_).bind ?_)
    · rintro _ ⟨f, rfl, rfl, free⟩
      exact ⟨rfl, free⟩
    · rintro ip ⟨store, table⟩ ⟨⟨rfl, inum, loaded⟩, rfl⟩
      have same : ({ k.table p with locked := true, valid := true, din := ip.toDinode } : Incore).inode = ip := by
        rw [Incore.inode]
        dsimp only
        rw [← inum]
      refine setEntry_ensures ⟨rfl, locking rfl rfl rfl rfl (by rw [same]; exact loaded), ?_, ?_, fun q other => ?_⟩
      · dsimp only
        rw [update_self]
      · dsimp only
        rw [update_self]
      · exact update_of_ne other ..

theorem iunlock_ensures (mine : p ∈ h) :
    Ensures (iunlock p) k (fun _ k' => k'.store = k.store ∧ Owns sb base own (h.erase p) k' ∧
      k'.table p = { k.table p with locked := false } ∧ ∀ q ≠ p, k'.table q = k.table q) fun _ => False := by
  obtain ⟨used, valid⟩ := owns.held p mine
  refine entry_bind ?_
  rw [owns.locked p, decide_eq_true mine, if_neg (by simp; omega)]
  refine setEntry_ensures ⟨rfl, ?_, update_self .., fun q other => update_of_ne other ..⟩
  refine owns.set rfl (owns.ref p) (fun _ _ => rfl) (fun _ => ⟨rfl, used⟩) (fun q _ => owns.current q)
    (fun _ => owns.current p used) (by simp) (fun q other => ?_) fun absurd => (Finset.notMem_erase p h absurd).elim
  rw [Finset.mem_erase, and_iff_right other]

/-- A reference is given back that is not the last one of an inode without links; a locked inode has another one. -/
theorem iput_spare (mine : p ∈ own) (spare : p ∈ h → 1 < (k.table p).ref)
    (kept : (k.table p).ref = 1 → (k.table p).valid = true → (k.table p).din.nlink ≠ 0) :
    Ensures (iput sb p) k (fun _ k' => k'.store = k.store ∧ Owns sb base (own.erase p) h k' ∧
      k'.table p = { k.table p with ref := (k.table p).ref - 1 } ∧ ∀ q ≠ p, k'.table q = k.table q) fun _ => False := by
  have used := owns.pos_of_mem mine
  refine entry_bind ?_
  rw [if_neg fun last => kept last.1 last.2.1 last.2.2]
  refine setEntry_ensures ⟨rfl, ?_, update_self .., fun q other => update_of_ne other ..⟩
  refine owns.set rfl ?_ (fun q other => count_erase_of_ne other own) (fun _ => ⟨rfl, used⟩) (fun q _ => owns.current q)
    (fun _ => owns.current p used) (owns.locked p) (fun _ _ => Iff.rfl) fun locked => ⟨?_, (owns.held p locked).2⟩
  · have := count_pos.mpr mine
    dsimp only
    rw [owns.ref, count_erase_self]
    omega
  · have := spare locked
    dsimp only
    omega

theorem iput_free (mine : p ∈ own) (unlocked : p ∉ h) (last : (k.table p).ref = 1)
    (valid : (k.table p).valid = true) (unlinked : (k.table p).din.nlink = 0)
    (consistent : Consistent sb (sb.image k.store.disk)) :
    Ensures (iput sb p) k (fun _ k' => Consistent sb (sb.image k'.store.disk) ∧
      (sb.image k'.store.disk).inode (k.table p).inum =
        { (k.table p).din with type := 0, size := 0, addrs := Vector.replicate _ 0 } ∧
      Released (sb.image k.store.disk) (k.table p).inum (sb.image k'.store.disk) ∧ Owns sb base (own.erase p) h k' ∧
      (k'.table p).inum = (k.table p).inum ∧ ∀ q ≠ p, k'.table q = k.table q) fun _ => False := by
  have used := owns.pos_of_mem mine
  refine entry_bind ?_
  rw [if_pos ⟨last, valid, unlinked⟩, owns.locked p, decide_eq_false unlocked, if_neg (by simp)]
  refine ((onStore_ensures (free_released consistent (owns.current p used valid))).allow ?_).bind ?_
  · rintro e ⟨_, -, absurd⟩
    exact absurd
  · rintro - ⟨store, table⟩ ⟨⟨consistent', freed, released⟩, rfl⟩
    refine setEntry_ensures ⟨consistent', freed, released, ?_, ?_, fun q other => update_of_ne other ..⟩
    · refine owns.set rfl ?_ (fun q other => count_erase_of_ne other own) (fun absurd => (lt_irrefl _ absurd).elim)
        (fun q other now current => ?_) (fun absurd => (lt_irrefl _ absurd).elim) (decide_eq_false unlocked).symm
        (fun _ _ => Iff.rfl) fun absurd => (unlocked absurd).elim
      · have count := owns.ref p
        have := count_pos.mpr mine
        rw [count_erase_self]
        dsimp only at count ⊢
        omega
      · have loaded := owns.current q now current
        have distinct : (k.table q).inum ≠ (k.table p).inum := fun same => other (owns.unique q p now used same)
        exact ⟨loaded.known, (released.inode _ distinct).trans loaded.current, loaded.live⟩
    · dsimp only
      rw [update_self]

/-- Work on a locked inode that keeps the fields of all others. -/
theorem onInode_ensures {α : Type} {work : Inode → Op (Inode × α)} {post : Inode × α → Store → Prop}
    {faults : Fault → Prop}
    (mine : p ∈ h) (spec : Ensures (work (k.table p).inode) k.store post faults)
    (keeps : ∀ ip a s', post (ip, a) s' → ip.inum = (k.table p).inum ∧ Loaded sb s' ip ∧
      ∀ i ≠ (k.table p).inum, (sb.image s'.disk).inode i = (sb.image k.store.disk).inode i) :
    Ensures (onInode p work) k (fun a k' => ∃ ip, post (ip, a) k'.store ∧ Owns sb base own h k' ∧
      k'.table p = { k.table p with din := ip.toDinode } ∧ ∀ q ≠ p, k'.table q = k.table q)
      fun e => ∃ f, e = .fault f ∧ faults f := by
  obtain ⟨used, valid⟩ := owns.held p mine
  refine entry_bind ((onStore_ensures spec).bind ?_)
  rintro ⟨ip, a⟩ ⟨store, table⟩ ⟨done, rfl⟩
  obtain ⟨inum, loaded, others⟩ := keeps ip a store done
  have same : ({ k.table p with din := ip.toDinode } : Incore).inode = ip := by
    rw [Incore.inode]
    dsimp only
    rw [← inum]
  refine setEntry_bind (.pure ⟨ip, done, ?_, update_self .., fun q other => update_of_ne other ..⟩)
  refine owns.set rfl (owns.ref p) (fun _ _ => rfl) (fun _ => ⟨rfl, used⟩) (fun q other now current => ?_)
    (fun _ _ => ?_)
    (owns.locked p) (fun _ _ => Iff.rfl) fun _ => ⟨used, valid⟩
  · have before := owns.current q now current
    have distinct : (k.table q).inum ≠ (k.table p).inum := fun same => other (owns.unique q p now used same)
    exact ⟨before.known, (others _ distinct).trans before.current, before.live⟩
  · rw [same]
    exact loaded

end

/-- Entries in use stay as they are but for their reference counts. -/
def Steady (k k' : Kernel) : Prop := ∀ q, 0 < (k.table q).ref → Counted (k.table q) (k'.table q)

theorem iunlockput_ensures (owns : Owns sb base own h k) (mine : p ∈ own) (locked : p ∈ h)
    (kept : (k.table p).ref = 1 → (k.table p).din.nlink ≠ 0) :
    Ensures (iunlockput sb p) k (fun _ k' => k'.store = k.store ∧ Owns sb base (own.erase p) (h.erase p) k' ∧
      k'.table p = { k.table p with locked := false, ref := (k.table p).ref - 1 } ∧ ∀ q ≠ p, k'.table q = k.table q)
      fun _ => False := by
  refine (iunlock_ensures owns locked).bind ?_
  rintro - k₁ ⟨store₁, owns₁, self₁, others₁⟩
  refine (iput_spare owns₁ mine (absurd · (Finset.notMem_erase p h)) ?_).mono ?_
  · rw [self₁]
    exact fun last _ => kept last
  · rintro - k₂ ⟨store₂, owns₂, self₂, others₂⟩
    refine ⟨store₂.trans store₁, owns₂, ?_, fun q other => (others₂ q other).trans (others₁ q other)⟩
    rw [self₂, self₁]

end Kern

end Xv6.Fs
