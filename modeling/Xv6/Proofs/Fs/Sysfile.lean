import Xv6.Model.Fs.Sysfile
import Xv6.Proofs.Fs.Path

/-! # The steps of the calls that name files

What each function below the calls does to the tree, to the references and to the locks.
-/

namespace Xv6.Fs

open Machine Image Op Multiset
open Itable (ninode)

namespace Op

variable {sb : Superblock} {s : Store} {dp : Inode}

theorem addEntry_map (consistent : Consistent sb (sb.image s.disk)) (loaded : Loaded sb s dp) (name : List UInt8)
    (inum : UInt32)
    (dir : dp.type = tDir) (whole : dp.size.toNat % direntSize = 0)
    (absent : ((sb.image s.disk).directory dp.inum).lookup (key name) = none) :
    Ensures (addEntry sb dp name inum) s (Linked sb s dp name (UInt16.ofNat inum.toNat)) fun _ => False := by
  have good (e : Fault) : ¬ BadDirectory dp e := by
    rintro (⟨-, other⟩ | ⟨-, odd⟩)
    · exact other dir
    · exact odd whole
  obtain ⟨⟨dp', found⟩, s', ran, rfl, same, value, -⟩ :=
    ((dirlookup_map consistent loaded name).allow fun e => good e).exists_run
  obtain rfl : dp' = dp := same
  obtain rfl : found = none := by
    rw [absent] at value
    exact Option.map_eq_none_iff.mp value
  have links := (dirlink_map consistent loaded name inum whole).allow fun e => good e
  unfold dirlink at links
  have rest := Ensures.of_bind ran links
  exact rest

end Op

namespace Kern

variable {sb : Superblock} {base : Fin ninode → Incore} {own : Multiset (Fin ninode)} {h : Finset (Fin ninode)}
  {k k' : Kernel}
  {p q : Fin ninode} {name : List UInt8}

theorem amend_ensures {change : Dinode → Dinode} (owns : Owns sb base own h k) (mine : p ∈ h)
    (live : (change (k.table p).din).type ≠ 0) :
    Ensures (amend sb p change) k (fun _ k' =>
      sb.image k'.store.disk = (sb.image k.store.disk).put (k.table p).inum (change (k.table p).din) ∧
        Owns sb base own h k' ∧
      k'.table p = { k.table p with din := change (k.table p).din } ∧ ∀ q ≠ p,
      k'.table q = k.table q) fun _ => False := by
  obtain ⟨used, valid⟩ := owns.held p mine
  have known := owns.known p used
  have updates : Ensures (do
      let ip := { (k.table p).inode with toDinode := change (k.table p).inode.toDinode }
      iupdate sb ip
      return (ip, ())) k.store (fun r s' => r.1 = { change (k.table p).din with inum := (k.table p).inum } ∧
        sb.image s'.disk = (sb.image k.store.disk).put (k.table p).inum (change (k.table p).din)) fun _ => False := by
    refine (iupdate_spec _ known).bind ?_
    rintro - s' image
    exact .pure ⟨rfl, image⟩
  refine ((onInode_ensures owns mine updates ?_).allow ?_).mono ?_
  · rintro ip - s' ⟨rfl, image⟩
    refine ⟨rfl, ⟨known, ?_, live⟩, fun i other => ?_⟩
    · rw [image, put_inode_self]
    · rw [image, put_inode_of_ne other]
  · rintro e ⟨f, -, absurd⟩
    exact absurd
  · rintro - k' ⟨ip, ⟨rfl, image⟩, owns', self, others⟩
    exact ⟨image, owns', self, others⟩

/-- How `dirlink` ends: the name was there or there is no room for it, or it is new. -/
inductive Entering (sb : Superblock) (im : Image) (d : ℕ) (name : List UInt8) (inum : ℕ) (im' : Image) : ℤ → Prop where
  | refused : Tidy sb im' → SameTree im im' →
      ((im.directory d).lookup (key name) = none → ∀ j < im.entries d, (im.entry d j).inum ≠ 0) →
      Entering sb im d name inum im' (-1)
  | added (j : ℕ) : (im.directory d).lookup (key name) = none → Vacant im d j →
      Added sb im im' d j ⟨UInt16.ofNat (UInt32.ofNat inum).toNat, key name⟩ → Entering sb im d name inum im' 0

theorem dirlink_ensures (owns : Owns sb base own h k) (mine : p ∈ h) (tidy : Tidy sb (sb.image k.store.disk))
    (dir : (k.table p).din.type = tDir) (anchored : Anchored base (sb.image k.store.disk))
    (name : List UInt8) (inum : ℕ) :
    Ensures (dirlink sb p name inum) k (fun r k' => Owns sb base own h k' ∧
      (∀ q, 0 < (k.table q).ref → (k'.table q).inum = (k.table q).inum) ∧
      Entering sb (sb.image k.store.disk) (k.table p).inum name inum (sb.image k'.store.disk) r)
      fun e => e = .igetNoInodes ∧ ∀ q, 0 < (k.table q).ref := by
  refine (dirlookup_ensures owns mine tidy dir name).bind ?_
  rintro r k₁ ⟨store, steady, ⟨rfl, absent, owns₁⟩ | ⟨q, j, num, rfl, -, -, found, -, owns₁⟩⟩
  · have inums (q : Fin ninode) (used : 0 < (k.table q).ref) : (k₁.table q).inum = (k.table q).inum := by
      rw [steady q used]
    have used := (owns.held p mine).1
    have type : (k₁.table p).din.type = tDir := by
      rw [steady p used]
      exact dir
    have loaded := owns₁.loaded mine
    have din := din_of_held owns₁ mine
    have here : (k₁.table p).inode.inum = (k.table p).inum := inums p used
    have isDir : ((sb.image k₁.store.disk).inode (k₁.table p).inum).type = tDir := by rw [← din, type]
    rw [← store] at tidy absent
    rw [← inums p used] at absent
    have size := tidy.whole _ isDir
    rw [← din] at size
    have adds := addEntry_map tidy.consistent loaded name (UInt32.ofNat inum) type size absent
    refine (((onInode_ensures owns₁ mine adds ?_).allow ?_).mono ?_)
    · rintro ip a s' linked
      cases linked with
      | present found => exact absurd absent found
      | refused _ _ _ _ _ _ unchanged =>
        have same : ip.inum = (k₁.table p).inum := by
          rw [unchanged.kept]
          rfl
        exact ⟨same, unchanged.loaded, fun i other => unchanged.elsewhere.inode i other⟩
      | added _ _ _ _ _ written _ =>
        exact ⟨written.inum, written.loaded, fun i other => written.elsewhere.inode i other⟩
    · rintro e ⟨f, -, absurd⟩
      exact absurd.elim
    · rintro r k₂ ⟨ip, linked, owns₂, self₂, others₂⟩
      refine ⟨owns₂, fun q used => ?_, ?_⟩
      · by_cases this : q = p
        · rw [this, self₂]
          exact here
        · rw [others₂ q this, inums q used]
      · rw [← store, ← here]
        generalize k₂.store = s at linked
        cases linked with
        | present found => exact absurd absent found
        | refused _ _ j _ vacant full unchanged =>
          have same := unchanged.sameTree loaded
          refine .refused (tidy.of_sameTree unchanged.consistent same) same fun _ e inside => vacant.first e ?_
          rwa [full.1]
        | added _ _ j missing vacant written _ =>
          exact .added j missing vacant (written.added loaded size vacant.reach (length_key name))
  · -- the reference that the look-up took is given back
    have anchored₁ : Anchored base (sb.image k₁.store.disk) := by rwa [store]
    refine (iput_spare owns₁ (mem_cons_self ..) (fun locked => ?_)
      (linked_of_anchored owns₁ (mem_cons_self ..) anchored₁)).lift.bind ?_
    · have before := (owns.held q locked).1
      rw [owns.ref] at before
      rw [owns₁.ref, count_cons_self]
      omega
    · rintro - k₂ ⟨store₂, owns₂, self₂, others₂⟩
      rw [erase_cons_head] at owns₂
      refine .pure ⟨owns₂, fun x used => ?_, ?_⟩
      · by_cases this : x = q
        · rw [this] at used ⊢
          rw [self₂, steady q used]
        · rw [others₂ x this, steady x used]
      · rw [store₂, store]
        exact .refused tidy (.refl _) fun absent => by rw [found] at absent; cases absent

theorem ialloc_ensures (owns : Owns sb base own h k) (consistent : Consistent sb (sb.image k.store.disk))
    (live : ∀ q, 0 < (k.table q).ref → ((sb.image k.store.disk).inode (k.table q).inum).type ≠ 0) (type : Int16) :
    Ensures (ialloc sb type) k (fun r k' => Steady k k' ∧ (r = none ∧ k'.store = k.store ∧
        (∀ i, 1 ≤ i → i < sb.ninodes → ((sb.image k.store.disk).inode i).type ≠ 0) ∧ Owns sb base own h k' ∨
      ∃ p, r = some p ∧ (k.table p).ref = 0 ∧ Owns sb base (p ::ₘ own) h k' ∧
        ((sb.image k.store.disk).inode (k'.table p).inum).type = 0 ∧
        sb.image k'.store.disk = (sb.image k.store.disk).put (k'.table p).inum { Dinode.zero with type } ∧
        Consistent sb (sb.image k'.store.disk)))
      fun e => e = .igetNoInodes ∧ ∀ q, 0 < (k.table q).ref := by
  have allocates : Ensures (Op.ialloc sb type) k.store _ _ := ialloc_spec consistent
  refine ((onStore_ensures allocates).allow ?_).bind ?_
  · rintro e ⟨f, -, absurd⟩
    exact absurd.elim
  rintro r ⟨store, table⟩ ⟨⟨consistent', none, some⟩, rfl⟩
  cases r with
  | none =>
    obtain ⟨rfl, full⟩ := none rfl
    exact .pure ⟨fun _ _ => rfl, .inl ⟨rfl, rfl, full, owns⟩⟩
  | some i =>
    obtain ⟨-, known, free, image⟩ := some i rfl
    have distinct (q : Fin ninode) (used : 0 < (k.table q).ref) : (k.table q).inum ≠ i := by
      intro here
      have := live q used
      rw [here] at this
      exact this free
    have owns₁ : Owns sb base own h ⟨store, k.table⟩ := owns.of_store rfl fun q used _ => by
      dsimp only at image ⊢
      rw [image, put_inode_of_ne (distinct q used)]
    refine (iget_ensures owns₁ known).bind ?_
    rintro p k₂ ⟨store₂, owns₂, inum, others, counted⟩
    have new : (k.table p).ref = 0 := by
      by_contra taken
      have used := Nat.pos_of_ne_zero taken
      refine distinct p used ?_
      rw [← inum, counted used]
    refine .pure ⟨fun q used => ?_, .inr ⟨p, rfl, new, owns₂, ?_, ?_, ?_⟩⟩
    · rw [Counted, others q (by rintro rfl; omega)]
    · rw [inum]
      exact free
    · rw [store₂, inum]
      exact image
    · rw [store₂]
      exact consistent'

/-- An inode without links is freed. -/
structure Gone (sb : Superblock) (im : Image) (i : ℕ) (im' : Image) : Prop where
  orphan : Orphan im i
  consistent : Consistent sb im'
  elsewhere : SameElsewhere im i im'
  free : (im'.inode i).type = 0

theorem Gone.tidy {im im' : Image} {i : ℕ} (gone : Gone sb im i im') (tidy : Tidy sb im) : Tidy sb im' := by
  have before {x : ℕ} (dir : (im'.inode x).type = tDir) : Alike im im' x ∧ (im.inode x).type = tDir := by
    have other : x ≠ i := by
      rintro rfl
      rw [gone.free] at dir
      exact absurd dir (by decide)
    have alike := gone.elsewhere.alike other
    exact ⟨alike, by rw [← alike.type]; exact dir⟩
  refine ⟨gone.consistent, tidy.root, fun x dir => ?_, fun x dir j inside => ?_⟩
  · obtain ⟨alike, dir⟩ := before dir
    rw [alike.size (live_of_dir dir)]
    exact tidy.whole x dir
  · obtain ⟨alike, dir⟩ := before dir
    rw [alike.entries (live_of_dir dir)] at inside
    rw [alike.entry (live_of_dir dir)]
    exact tidy.listed x dir j inside

/-- No reference but that of the call is for an inode. -/
def Alone (base : Fin ninode → Incore) (i : ℕ) : Prop := ∀ p, 0 < (base p).ref → (base p).inum ≠ i

/-- A reference is given back, and the inode is freed if it has no others and no links. -/
theorem iput_either (owns : Owns sb base own h k) (mine : p ∈ own) (unlocked : p ∉ h)
    (consistent : Consistent sb (sb.image k.store.disk)) :
    Ensures (iput sb p) k (fun _ k' => Owns sb base (own.erase p) h k' ∧ (∀ q ≠ p, k'.table q = k.table q) ∧
      (k'.store = k.store ∧ ((k.table p).valid = true → (k.table p).din.nlink = 0 → 1 < (k.table p).ref) ∨
        Gone sb (sb.image k.store.disk) (k.table p).inum (sb.image k'.store.disk) ∧ Alone base (k.table p).inum))
      fun _ => False := by
  have used := owns.pos_of_mem mine
  by_cases last : (k.table p).ref = 1 ∧ (k.table p).valid = true ∧ (k.table p).din.nlink = 0
  · have loaded := owns.current p used last.2.1
    have inode := loaded.current
    rw [Incore.inode_inum, Incore.inode_toDinode] at inode
    refine (iput_free owns mine unlocked last.1 last.2.1 last.2.2 consistent).mono ?_
    rintro - k' ⟨consistent', freed, released, owns', -, others⟩
    refine ⟨owns', others, .inr ⟨⟨?_, consistent', released.toSameElsewhere, by rw [freed]⟩, fun q before same => ?_⟩⟩
    · rw [Orphan, inode]
      exact ⟨loaded.live, last.2.2⟩
    · obtain rfl := owns.unique q p (owns.pos_of_base before) used ((owns.inum q before).trans same)
      have count := owns.ref q
      have := count_pos.mpr mine
      omega
  · refine (iput_spare owns mine (absurd · unlocked) fun one valid zero => last ⟨one, valid, zero⟩).mono ?_
    rintro - k' ⟨store, owns', -, others⟩
    refine ⟨owns', others, .inl ⟨store, fun valid zero => ?_⟩⟩
    by_contra few
    exact last ⟨by omega, valid, zero⟩

/-- What happens to an inode when a call is done with it: it stays and is in the table if it has no links, or it is
freed. -/
def Dropped (sb : Superblock) (base : Fin ninode → Incore) (im : Image) (i : ℕ) (im' : Image) : Prop :=
  im' = im ∧ (Orphan im i → ∃ p, 0 < (base p).ref ∧ (base p).inum = i) ∨ Gone sb im i im' ∧ Alone base i

theorem Dropped.tidy {im im' : Image} {i : ℕ} (dropped : Dropped sb base im i im') (tidy : Tidy sb im) :
    Tidy sb im' := by
  rcases dropped with ⟨rfl, -⟩ | ⟨gone, -⟩
  · exact tidy
  · exact gone.tidy tidy

theorem Dropped.inode_of_ne {im im' : Image} {i x : ℕ} (dropped : Dropped sb base im i im') (other : x ≠ i) :
    im'.inode x = im.inode x := by
  rcases dropped with ⟨rfl, -⟩ | ⟨gone, -⟩
  · rfl
  · exact gone.elsewhere.inode x other

theorem iunlockput_either (owns : Owns sb base own h k) (mine : own.count p = 1) (locked : p ∈ h)
    (consistent : Consistent sb (sb.image k.store.disk)) :
    Ensures (iunlockput sb p) k (fun _ k' => Owns sb base (own.erase p) (h.erase p) k' ∧
      (∀ q ≠ p, k'.table q = k.table q) ∧
      Dropped sb base (sb.image k.store.disk) (k.table p).inum (sb.image k'.store.disk)) fun _ => False := by
  have member : p ∈ own := count_pos.mp (by omega)
  have din := din_of_held owns locked
  refine (iunlock_ensures owns locked).bind ?_
  rintro - k₁ ⟨store₁, owns₁, self₁, others₁⟩
  have inum : (k₁.table p).inum = (k.table p).inum := by rw [self₁]
  rw [← store₁] at consistent
  refine (iput_either owns₁ member (Finset.notMem_erase p h) consistent).mono ?_
  rintro - k₂ ⟨owns₂, others₂, outcome⟩
  refine ⟨owns₂, fun q other => (others₂ q other).trans (others₁ q other), ?_⟩
  rw [store₁, inum] at outcome
  rcases outcome with ⟨store₂, shared⟩ | gone
  · refine .inl ⟨by rw [store₂], fun orphan => ?_⟩
    have many : 1 < (k.table p).ref := by
      rw [self₁] at shared
      refine shared (owns.held p locked).2 ?_
      dsimp only
      rw [din]
      exact orphan.2
    have before : 0 < (base p).ref := by
      have := owns.ref p
      omega
    exact ⟨p, before, (owns.inum p before).symm⟩
  · exact .inr gone

section Pair

/-! A call with two inodes. -/

variable {ip dp : Fin ninode}

theorem pair_counts (distinct : ip ≠ dp) : ({ip, dp} : Multiset (Fin ninode)).count ip = 1 ∧
    ({ip, dp} : Multiset (Fin ninode)).count dp = 1 := by
  constructor
  · rw [insert_eq_cons, count_cons_self, count_singleton, if_neg distinct]
  · rw [insert_eq_cons, count_cons_of_ne (Ne.symm distinct), count_singleton_self]

theorem pair_erase (distinct : ip ≠ dp) : ({ip, dp} : Multiset (Fin ninode)).erase dp = {ip} ∧
    ({ip, dp} : Finset (Fin ninode)).erase dp = {ip} := by
  constructor
  · rw [insert_eq_cons, erase_cons_tail _ distinct, erase_singleton]
    rfl
  · rw [Finset.pair_comm, Finset.erase_insert (by simpa using Ne.symm distinct)]

end Pair

theorem ilock_asleep (owns : Owns sb base own h k) (mine : p ∈ h) :
    Ensures (ilock sb p) k (fun _ _ => False) (· = .asleep) := by
  obtain ⟨used, -⟩ := owns.held p mine
  refine entry_bind ?_
  rw [if_neg (by omega), owns.locked p, decide_eq_true mine, if_pos rfl]
  exact .throw rfl

/-- The directory has no entries behind the first two. -/
def Bare (im : Image) (d : ℕ) : Prop := ∀ j, 2 ≤ j → j < im.entries d → (im.entry d j).inum = 0

theorem isdirempty_ensures (owns : Owns sb base own h k) (mine : p ∈ h) (tidy : Tidy sb (sb.image k.store.disk))
    (dir : (k.table p).din.type = tDir) :
    Ensures (isdirempty sb p) k (fun r k' => k' = k ∧ (r = true → Bare (sb.image k.store.disk) (k.table p).inum))
      fun _ => False := by
  have loaded := owns.loaded mine
  have din := din_of_held owns mine
  have isDir : ((sb.image k.store.disk).inode (k.table p).inum).type = tDir := by rw [← din, dir]
  have size := tidy.whole _ isDir
  rw [← din] at size
  have entries : (sb.image k.store.disk).entries (k.table p).inum = (k.table p).din.size.toNat / direntSize := by
    rw [Image.entries, ← din]
  have done {j : ℕ} (empty : ∀ e, 2 ≤ e → e < j → ((sb.image k.store.disk).entry (k.table p).inum e).inum = 0)
      (last : (k.table p).din.size.toNat ≤ direntSize * j) : Bare (sb.image k.store.disk) (k.table p).inum := by
    intro e low inside
    refine empty e low ?_
    rw [entries, width] at inside
    rw [width] at last
    omega
  -- the entries before the one at hand are empty
  have loop (fuel j : ℕ) (enough : (k.table p).din.size.toNat ≤ direntSize * (j + fuel))
      (empty : ∀ e, 2 ≤ e → e < j → ((sb.image k.store.disk).entry (k.table p).inum e).inum = 0) :
      Ensures (isdiremptyLoop sb p fuel (direntSize * j)) k
        (fun r k' => k' = k ∧ (r = true → Bare (sb.image k.store.disk) (k.table p).inum)) fun _ => False := by
    induction fuel generalizing j with
    | zero => exact .pure ⟨rfl, fun _ => done empty (by rwa [Nat.add_zero] at enough)⟩
    | succ fuel ih =>
      refine entry_bind (.ite (fun more => ?_) fun last => .pure ⟨rfl, fun _ => done empty (Nat.le_of_not_lt last)⟩)
      refine ((onInode_ensures owns mine (readi_entry tidy.consistent loaded more) ?_).allow ?_).bind ?_
      · rintro ip a s' ⟨rfl, rfl, -⟩
        exact ⟨rfl, loaded, fun _ _ => rfl⟩
      · rintro e ⟨f, -, absurd⟩
        exact absurd
      rintro ⟨bytes, got⟩ k₁ ⟨ip, ⟨store, same, full, short⟩, -, self, others⟩
      have back : k₁ = k := by
        obtain ⟨store₁, table₁⟩ := k₁
        obtain rfl : store₁ = k.store := store
        obtain rfl : ip = (k.table p).inode := same
        have : table₁ = k.table := by
          funext q
          by_cases here : q = p
          · rw [here]
            exact self
          · exact others q here
        rw [this]
      subst back
      refine .ite (fun part => absurd size (short part)) fun all => ?_
      obtain ⟨-, decoded⟩ := full (not_not.mp all)
      dsimp only at decoded
      rw [Incore.inode_inum] at decoded
      rw [decoded]
      refine .ite (fun _ => .pure ⟨rfl, fun no => by cases no⟩) fun zero => ?_
      rw [← Nat.mul_succ]
      refine ih (j + 1) (by rwa [Nat.add_right_comm, Nat.add_assoc]) fun e low small => ?_
      rcases Nat.lt_succ_iff_lt_or_eq.mp small with early | rfl
      · exact empty e low early
      · exact not_not.mp zero
  refine entry_bind (loop _ 2 ?_ fun e low small => by omega)
  rw [width]
  omega

end Kern

end Xv6.Fs
