import Xv6.Proofs.Fs.Linking

/-! # Inodes that are made

`create` finds an inode or makes one. If an entry for the new inode cannot be made, the inode is freed again with
what it has got by then, and the tree is as it was.
-/

namespace Xv6.Fs

open Machine Image Op Multiset
open Itable (ninode)
open Mkfs (tFile)

namespace Kern

variable {sb : Superblock} {base : Fin ninode → Incore} {own : Multiset (Fin ninode)} {h : Finset (Fin ninode)}
  {k k' : Kernel}
  {p q cwd dp ip : Fin ninode} {im im' im'' : Image} {i d j : ℕ} {name : List UInt8} {type : Int16}

/-- A tree with one more inode that is not in a directory yet. -/
structure Growing (sb : Superblock) (im : Image) (i : ℕ) (type : Int16) (im' : Image) : Prop where
  tidy : Tidy sb im'
  apart : ∀ j ≠ i, Alike im im' j
  kind : (im'.inode i).type = type
  some : type ≠ 0
  nlink : (im'.inode i).nlink = 1

theorem Growing.live (growing : Growing sb im i type im') : (im'.inode i).type ≠ 0 := by
  rw [growing.kind]
  exact growing.some

theorem Growing.anchored (growing : Growing sb im i type im') (anchored : Anchored base im) : Anchored base im' := by
  refine anchored.congr fun x orphan => orphan_of_alike (growing.apart x ?_) orphan
  rintro rfl
  have zero := orphan.2
  rw [growing.nlink] at zero
  exact absurd zero (by decide)

theorem Growing.sameTree (growing : Growing sb im i type im') (tidy : Tidy sb im'') (same : SameTree im' im'') :
    Growing sb im i type im'' := by
  refine ⟨tidy, fun j other => (growing.apart j other).trans (same j), ?_, growing.some, ?_⟩
  · rw [(same i).type]
    exact growing.kind
  · rw [(same i).nlink growing.live]
    exact growing.nlink

theorem toNat_entry_le (n : ℕ) : (UInt16.ofNat (UInt32.ofNat n).toNat).toNat ≤ n := by
  rw [UInt16.toNat_ofNat', UInt32.toNat_ofNat']
  exact (Nat.mod_le _ _).trans (Nat.mod_le _ _)

theorem Growing.entering {n : ℕ} {r : ℤ} (growing : Growing sb im i tDir im') (known : n < sb.ninodes)
    (entering : Entering sb im' i name n im'' r) : Growing sb im i tDir im'' := by
  cases entering with
  | refused tidy same _ => exact growing.sameTree tidy same
  | added j _ _ added =>
    refine ⟨added.tidy growing.tidy growing.kind (Nat.lt_of_le_of_lt (toNat_entry_le n) known), fun x other =>
      (growing.apart x other).trans (added.elsewhere.alike other), ?_, growing.some, ?_⟩
    · rw [added.kept]
      exact growing.kind
    · rw [added.kept]
      exact growing.nlink

/-- A call with some references that finds no free entry in the table of inodes. -/
def NoEntry (base : Fin ninode → Incore) (own : Multiset (Fin ninode)) (e : Stop) : Prop :=
  e = .igetNoInodes ∧ ∀ q, 0 < (base q).ref + own.count q

theorem noEntry_of_full {e : Stop} (owns : Owns sb base own h k) (full : e = .igetNoInodes ∧ ∀ q, 0 < (k.table q).ref) :
    NoEntry base own e := by
  refine ⟨full.1, fun q => ?_⟩
  rw [← owns.ref]
  exact full.2 q

/-- A directory can take a new name without growing. -/
def Fitting (im : Image) (d : ℕ) (name : List UInt8) : Prop :=
  (im.directory d).lookup (key name) = none ∧ ∃ j < im.entries d, (im.entry d j).inum = 0

/-- What is left to show when the entries of a new inode are made or not. -/
structure Making (sb : Superblock) (base : Fin ninode → Incore) (own : Multiset (Fin ninode))
    (h : Finset (Fin ninode)) (im : Image)
    (type : Int16) (name : List UInt8) (k : Kernel) (dp ip : Fin ninode) (made : Bool) (k' : Kernel) : Prop where
  owns : Owns sb base own h k'
  inums : ∀ q, 0 < (k.table q).ref → (k'.table q).inum = (k.table q).inum
  tidy : Tidy sb (sb.image k'.store.disk)
  kind : ((sb.image k'.store.disk).inode (k.table ip).inum).type = type
  nlink : ((sb.image k'.store.disk).inode (k.table ip).inum).nlink = 1
  failed : made = false → Growing sb im (k.table ip).inum type (sb.image k'.store.disk) ∧
    (type ≠ tDir → ¬ Fitting im (k.table dp).inum name)

theorem dirlink_made (owns : Owns sb base own h k) (heldDp : dp ∈ h) (heldIp : ip ∈ h)
    (distinct : (k.table ip).inum ≠ (k.table dp).inum)
    (dir : (k.table dp).din.type = tDir) (anchored : Anchored base im)
    (growing : Growing sb im (k.table ip).inum type (sb.image k.store.disk)) (name : List UInt8) :
    Ensures (do return !((← dirlink sb dp name (k.table ip).inum) < 0)) k (Making sb base own h im type name k dp ip)
      (NoEntry base own) := by
  refine ((dirlink_ensures owns heldDp growing.tidy dir (growing.anchored anchored) name _).allow fun e =>
    noEntry_of_full owns).bind ?_
  rintro r k₁ ⟨owns₁, inums, entering⟩
  have known := owns.known ip (owns.held ip heldIp).1
  have isDir : ((sb.image k.store.disk).inode (k.table dp).inum).type = tDir := by rw [← din_of_held owns heldDp, dir]
  generalize image : sb.image k₁.store.disk = im₁ at entering
  cases entering with
  | refused tidy same full =>
    have after := growing.sameTree tidy same
    have alike := growing.apart _ (Ne.symm distinct)
    have live : (im.inode (k.table dp).inum).type ≠ 0 := by
      rw [← alike.type]
      exact live_of_dir isDir
    rw [← image] at after
    refine .pure ⟨owns₁, inums, after.tidy, after.kind, after.nlink, fun _ => ⟨after, ?_⟩⟩
    rintro - ⟨absent, j, inside, zero⟩
    rw [alike.directory live, alike.entries live] at full
    refine full absent j inside ?_
    rw [alike.entry live]
    exact zero
  | added j _ _ added =>
    have tidy := added.tidy growing.tidy isDir (Nat.lt_of_le_of_lt (toNat_entry_le _) known)
    have inode := added.elsewhere.inode _ distinct
    rw [← image] at tidy inode
    refine .pure ⟨owns₁, inums, tidy, ?_, ?_, fun no => by cases no⟩
    · rw [inode]
      exact growing.kind
    · rw [inode]
      exact growing.nlink

theorem dirlink_self {n : ℕ} (owns : Owns sb base own h k) (held : ip ∈ h) (anchored : Anchored base im)
    (growing : Growing sb im (k.table ip).inum tDir (sb.image k.store.disk)) (known : n < sb.ninodes)
    (name : List UInt8) :
    Ensures (dirlink sb ip name n) k (fun _ k' => Owns sb base own h k' ∧
      (∀ q, 0 < (k.table q).ref → (k'.table q).inum = (k.table q).inum) ∧
      Growing sb im (k.table ip).inum tDir (sb.image k'.store.disk)) (NoEntry base own) := by
  have dir : (k.table ip).din.type = tDir := by
    rw [din_of_held owns held]
    exact growing.kind
  refine ((dirlink_ensures owns held growing.tidy dir (growing.anchored anchored) name n).allow fun e =>
    noEntry_of_full owns).mono ?_
  rintro r k₁ ⟨owns₁, inums, entering⟩
  exact ⟨owns₁, inums, growing.entering known entering⟩

theorem makeEntries_ensures (owns : Owns sb base own h k) (heldDp : dp ∈ h) (heldIp : ip ∈ h)
    (distinct : (k.table dp).inum ≠ (k.table ip).inum) (dir : (im.inode (k.table dp).inum).type = tDir)
    (anchored : Anchored base im) (growing : Growing sb im (k.table ip).inum type (sb.image k.store.disk))
    (name : List UInt8) :
    Ensures (makeEntries sb dp ip name type) k (Making sb base own h im type name k dp ip) (NoEntry base own) := by
  have usedDp := (owns.held dp heldDp).1
  have usedIp := (owns.held ip heldIp).1
  have parent {k₁ : Kernel} (owns₁ : Owns sb base own h k₁) (num : (k₁.table dp).inum = (k.table dp).inum)
      (growing₁ : Growing sb im (k.table ip).inum type (sb.image k₁.store.disk)) : (k₁.table dp).din.type = tDir := by
    rw [din_of_held owns₁ heldDp, num, (growing₁.apart _ distinct).type]
    exact dir
  refine entry_bind (.ite (fun folder => ?_) fun _ =>
    dirlink_made owns heldDp heldIp (Ne.symm distinct) (parent owns rfl growing) anchored growing name)
  subst folder
  have stop {k₁ : Kernel} (owns₁ : Owns sb base own h k₁)
      (inums : ∀ q, 0 < (k.table q).ref → (k₁.table q).inum = (k.table q).inum)
      (growing₁ : Growing sb im (k.table ip).inum tDir (sb.image k₁.store.disk)) : Making sb base own h im tDir name k
        dp ip false k₁ :=
    ⟨owns₁, inums, growing₁.tidy, growing₁.kind, growing₁.nlink, fun _ => ⟨growing₁, fun other => absurd rfl other⟩⟩
  refine (dirlink_self owns heldIp anchored growing (owns.known ip usedIp) dot).bind ?_
  rintro r k₁ ⟨owns₁, inums₁, growing₁⟩
  refine .ite (fun _ => .pure (stop owns₁ inums₁ growing₁)) fun _ => ?_
  have used₁ (q : Fin ninode) (used : 0 < (k.table q).ref) : 0 < (k₁.table q).ref := by
    rwa [owns₁.ref, ← owns.ref]
  refine entry_bind ?_
  rw [← inums₁ ip usedIp] at growing₁
  refine (dirlink_self owns₁ heldIp anchored growing₁ (owns₁.known dp (used₁ dp usedDp)) dotdot).bind ?_
  rintro r k₂ ⟨owns₂, inums₂, growing₂⟩
  have inums (q : Fin ninode) (used : 0 < (k.table q).ref) : (k₂.table q).inum = (k.table q).inum :=
    (inums₂ q (used₁ q used)).trans (inums₁ q used)
  rw [inums₁ ip usedIp] at growing₂
  refine .ite (fun _ => .pure (stop owns₂ inums growing₂)) fun _ => ?_
  have last := parent owns₂ (inums dp usedDp) growing₂
  rw [← inums ip usedIp] at growing₂ ⊢
  refine (dirlink_made owns₂ heldDp heldIp ?_ last anchored growing₂ name).mono ?_
  · rw [inums ip usedIp, inums dp usedDp]
    exact Ne.symm distinct
  · rintro made k₃ making
    obtain ⟨owns₃, inums₃, tidy₃, kind₃, nlink₃, failed₃⟩ := making
    have used₂ (q : Fin ninode) (used : 0 < (k.table q).ref) : 0 < (k₂.table q).ref := by
      rwa [owns₂.ref, ← owns.ref]
    rw [inums ip usedIp, inums dp usedDp] at failed₃
    rw [inums ip usedIp] at kind₃ nlink₃
    exact ⟨owns₃, fun q used => (inums₃ q (used₂ q used)).trans (inums q used), tidy₃, kind₃, nlink₃, failed₃⟩

/-- A new inode that could not get its entries is freed. -/
theorem undo_ensures (owns : Owns sb base {ip, dp} {ip, dp} k) (distinct : ip ≠ dp) (anchored : Anchored base im)
    (free : (im.inode (k.table ip).inum).type = 0) (alone : Alone base (k.table ip).inum)
    (growing : Growing sb im (k.table ip).inum type (sb.image k.store.disk)) :
    Ensures (do
      amend sb ip fun din => { din with nlink := 0 }
      iunlockput sb ip
      iunlockput sb dp
      return none) k (fun r k' => r = (none : Option (Fin ninode)) ∧ Tidy sb (sb.image k'.store.disk) ∧
        SameTree im (sb.image k'.store.disk) ∧ Owns sb base 0 ∅ k') fun _ => False := by
  have held : ip ∈ ({ip, dp} : Finset (Fin ninode)) := Finset.mem_insert_self ..
  have din := din_of_held owns held
  refine (amend_ensures owns held (owns.loaded held).live).bind ?_
  rintro - k₁ ⟨image₁, owns₁, self₁, -⟩
  rw [din] at image₁
  have tidy₁ : Tidy sb (sb.image k₁.store.disk) := by
    rw [image₁]
    exact growing.tidy.relinked
  have inum₁ : (k₁.table ip).inum = (k.table ip).inum := by rw [self₁]
  refine (iunlockput_either owns₁ (pair_counts distinct).1 held tidy₁.consistent).bind ?_
  rintro - k₂ ⟨owns₂, others₂, dropped⟩
  rw [inum₁] at dropped
  rw [insert_eq_cons, erase_cons_head, Finset.erase_insert (by simpa using distinct)] at owns₂
  rcases dropped with ⟨same, kept⟩ | ⟨gone, -⟩
  · -- it would have to be in the table from before
    have orphan : Orphan (sb.image k₁.store.disk) (k.table ip).inum := by
      rw [Orphan, image₁, put_inode_self]
      exact ⟨growing.live, rfl⟩
    obtain ⟨p, used, here⟩ := kept orphan
    exact absurd here (alone p used)
  · have tree : SameTree im (sb.image k₂.store.disk) := by
      refine .of_elsewhere (fun j other => ?_) free gone.free
      have first : Alike (sb.image k.store.disk) (sb.image k₁.store.disk) j := by
        rw [image₁]
        exact SameElsewhere.put.alike other
      exact ((growing.apart j other).trans first).trans (gone.elsewhere.alike other)
    refine (iunlockput_last owns₂ (anchored.congr fun x => orphan_of_alike (tree x))).bind ?_
    rintro - k₃ ⟨store₃, owns₃⟩
    have tidy₂ := gone.tidy tidy₁
    rw [← store₃] at tidy₂ tree
    exact .pure ⟨rfl, tidy₂, tree, owns₃⟩

theorem raiseParent_ensures (owns : Owns sb base own h k) (held : dp ∈ h) (tidy : Tidy sb (sb.image k.store.disk))
    (type : Int16) :
    Ensures (raiseParent sb dp type) k (fun _ k' => Owns sb base own h k' ∧ Tidy sb (sb.image k'.store.disk) ∧
      (∀ q, (k'.table q).inum = (k.table q).inum) ∧
      ∀ i ≠ (k.table dp).inum, (sb.image k'.store.disk).inode i = (sb.image k.store.disk).inode i) fun _ => False := by
  have din := din_of_held owns held
  refine .ite (fun _ => ?_) fun _ => .pure ⟨owns, tidy, fun _ => rfl, fun _ _ => rfl⟩
  refine (amend_ensures owns held (owns.loaded held).live).mono ?_
  rintro - k₁ ⟨image, owns₁, self, others⟩
  rw [din] at image
  refine ⟨owns₁, ?_, fun q => ?_, fun i other => ?_⟩
  · rw [image]
    exact tidy.relinked
  · by_cases here : q = dp
    · rw [here, self]
    · rw [others q here]
  · rw [image, put_inode_of_ne other]

theorem createAs_ensures {major minor : Int16} (owns : Owns sb base {ip, dp} {dp} k) (distinct : ip ≠ dp)
    (tidy : Tidy sb im)
    (anchored : Anchored base im) (alone : Alone base (k.table ip).inum) (proper : type ≠ 0)
    (dir : (im.inode (k.table dp).inum).type = tDir) (free : (im.inode (k.table ip).inum).type = 0)
    (image : sb.image k.store.disk = im.put (k.table ip).inum { Dinode.zero with type })
    (consistent : Consistent sb (sb.image k.store.disk)) (name : List UInt8) :
    Ensures (createAs sb dp ip name type major minor) k (fun r k' =>
      r = none ∧ Tidy sb (sb.image k'.store.disk) ∧ SameTree im (sb.image k'.store.disk) ∧ Owns sb base 0 ∅ k' ∧
        (type ≠ tDir → ¬ Fitting im (k.table dp).inum name) ∨
      r = some ip ∧ Owns sb base {ip} {ip} k' ∧ (k'.table ip).inum = (k.table ip).inum ∧
        Tidy sb (sb.image k'.store.disk) ∧
        ((sb.image k'.store.disk).inode (k.table ip).inum).type = type ∧
        ((sb.image k'.store.disk).inode (k.table ip).inum).nlink = 1) (NoEntry base {ip, dp}) := by
  have mine : ip ∈ ({ip, dp} : Multiset (Fin ninode)) := mem_cons_self ..
  have held : ip ∈ ({ip, dp} : Finset (Fin ninode)) := Finset.mem_insert_self ..
  have heldDp : dp ∈ ({ip, dp} : Finset (Fin ninode)) := Finset.mem_insert_of_mem (Finset.mem_singleton_self dp)
  have tidy₀ : Tidy sb (sb.image k.store.disk) := by
    rw [image] at consistent ⊢
    exact tidy.put_new consistent rfl
  refine ((ilock_ensures owns (owns.pos_of_mem mine) (by simpa using distinct)).allow ?_).bind ?_
  · rintro e ⟨-, none⟩
    rw [image, put_inode_self] at none
    exact absurd none proper
  rintro - k₁ ⟨store₁, owns₁, inum₁, -, others₁⟩
  have numDp : (k₁.table dp).inum = (k.table dp).inum := by rw [others₁ dp (Ne.symm distinct)]
  have din := din_of_held owns₁ held
  rw [store₁, inum₁] at din
  refine (amend_ensures owns₁ held (owns₁.loaded held).live).lift.bind ?_
  rintro - k₂ ⟨image₂, owns₂, self₂, others₂⟩
  rw [store₁, inum₁, din] at image₂
  have inum₂ : (k₂.table ip).inum = (k.table ip).inum := by
    rw [self₂]
    exact inum₁
  have numDp₂ : (k₂.table dp).inum = (k.table dp).inum := by rw [others₂ dp (Ne.symm distinct), numDp]
  have growing : Growing sb im (k.table ip).inum type (sb.image k₂.store.disk) := by
    refine ⟨?_, fun j other => ?_, ?_, proper, ?_⟩
    · rw [image₂]
      exact tidy₀.put_kept rfl rfl rfl
    · rw [image₂, image, put_put]
      exact SameElsewhere.put.alike other
    · rw [image₂, put_inode_self, image, put_inode_self]
    · rw [image₂, put_inode_self]
  have apart : (k.table dp).inum ≠ (k.table ip).inum := by
    intro same
    rw [same, free] at dir
    exact absurd dir (by decide)
  rw [← inum₂] at growing alone free
  refine (makeEntries_ensures owns₂ heldDp held (by rwa [numDp₂, inum₂]) (by rwa [numDp₂]) anchored growing name).bind
    ?_
  rintro made k₃ making
  obtain ⟨owns₃, inums₃, tidy₃, kind₃, nlink₃, failed₃⟩ := making
  have inum₃ := inums₃ ip (owns₂.held ip held).1
  refine .ite (fun yes => ?_) fun no => ?_
  · have numDp₃ := inums₃ dp (owns₂.held dp heldDp).1
    rw [numDp₂] at numDp₃
    rw [inum₂] at kind₃ nlink₃ inum₃
    refine (raiseParent_ensures owns₃ heldDp tidy₃ type).lift.bind ?_
    rintro - k₄ ⟨owns₄, tidy₄, inums₄, inode₄⟩
    refine (iunlockput_either owns₄ (pair_counts distinct).2 heldDp tidy₄.consistent).lift.bind ?_
    rintro - k₅ ⟨owns₅, others₅, dropped⟩
    rw [(pair_erase distinct).1, (pair_erase distinct).2] at owns₅
    rw [inums₄, numDp₃] at dropped
    have inode :
        (sb.image k₅.store.disk).inode (k.table ip).inum = (sb.image k₃.store.disk).inode (k.table ip).inum := by
      rw [dropped.inode_of_ne (Ne.symm apart), inode₄ _ (by rw [numDp₃]; exact Ne.symm apart)]
    refine .pure (.inr ⟨rfl, owns₅, ?_, dropped.tidy tidy₄, by rw [inode, kind₃], by rw [inode, nlink₃]⟩)
    rw [others₅ ip distinct, inums₄, inum₃]
  · rw [Bool.not_eq_true] at no
    obtain ⟨growing₃, full⟩ := failed₃ no
    rw [numDp₂] at full
    rw [← inum₃] at growing₃ alone free
    refine ((undo_ensures owns₃ distinct anchored free alone growing₃).mono ?_).lift
    rintro r k' ⟨done, tidy', tree, owns'⟩
    exact .inl ⟨done, tidy', tree, owns', full⟩

/-- How `create` ends: with nothing, or with a file that was there or is new, locked. -/
inductive Creating (sb : Superblock) (k : Kernel) (cwd : Fin ninode) (path : List UInt8) (type : Int16) :
    Option (Fin ninode) → Kernel → Prop where
  | refused (k' : Kernel) : Unmoved sb k k' →
      (type ≠ tDir → (∃ i, 1 ≤ i ∧ i < sb.ninodes ∧ ((sb.image k.store.disk).inode i).type = 0) →
        ∀ d name, Names (sb.image k.store.disk) path (origin k cwd path) d name →
        ¬ Fitting (sb.image k.store.disk) d name) →
      Creating sb k cwd path type none k'
  | found (ip : Fin ninode) (k' : Kernel) : k'.store = k.store → Owns sb k.table {ip} {ip} k' →
      (∀ d name, Names (sb.image k.store.disk) path (origin k cwd path) d name →
      ¬ Fitting (sb.image k.store.disk) d name) →
      Creating sb k cwd path type (some ip) k'
  | made (ip : Fin ninode) (k' : Kernel) : Owns sb k.table {ip} {ip} k' →
      ((sb.image k.store.disk).inode (k'.table ip).inum).type = 0 → Tidy sb (sb.image k'.store.disk) →
      ((sb.image k'.store.disk).inode (k'.table ip).inum).type = type →
      ((sb.image k'.store.disk).inode (k'.table ip).inum).nlink = 1 → Creating sb k cwd path type (some ip) k'

/-- How `create` stops the kernel. -/
def CreateStop (sb : Superblock) (k : Kernel) (cwd : Fin ninode) (path : List UInt8) (e : Stop) : Prop :=
  e = .igetNoInodes ∧ Packed k.table ∨ e = .fault .ilockNoType ∧
    ((sb.image k.store.disk).Dangling (components path) (origin k cwd path) ∨
      ∃ d name, Names (sb.image k.store.disk) path (origin k cwd path) d name ∧
        ((sb.image k.store.disk).directory d).lookup (key name) ≠ none)

theorem packed_of_noEntry {e : Stop} (none : NoEntry base {ip, dp} e) : e = .igetNoInodes ∧ Packed base := by
  refine ⟨none.1, ip, dp, fun q first second => ?_⟩
  have now := none.2 q
  rw [insert_eq_cons, count_cons_of_ne first, count_singleton, if_neg second] at now
  exact now

theorem create_ensures {major minor : Int16} (quiet : Quiet sb k) (here : 0 < (k.table cwd).ref) (path : List UInt8)
    (proper : type ≠ 0) :
    Ensures (create sb cwd path type major minor) k (Creating sb k cwd path type) (CreateStop sb k cwd path) := by
  refine ((nameiparent_ensures quiet.tidy quiet.idle quiet.anchored here path _).allow ?_).bind ?_
  · rintro e (⟨rfl, crowded⟩ | ⟨rfl, dangling⟩)
    · exact .inl ⟨rfl, packed_of_crowded crowded⟩
    · exact .inr ⟨rfl, .inl dangling⟩
  rintro ⟨r, name⟩ k₁ ⟨store₁, ⟨absent, missing, owns₁⟩ | ⟨dp, found, names, dir, owns₁⟩⟩
  · obtain rfl : r = none := absent
    exact .pure (.refused k₁ (.of_store quiet store₁ owns₁) fun _ _ d name names => absurd names (missing d name))
  obtain rfl : r = some dp := found
  dsimp only at names
  refine (ilock_found owns₁ (by rwa [store₁])).lift.bind ?_
  rintro - k₂ ⟨store₂, owns₂, inum₂, type₂⟩
  have store : k₂.store = k.store := store₂.trans store₁
  rw [← inum₂] at dir names
  -- the directory and the name are the only ones for the path
  have only (reason : ¬ Fitting (sb.image k.store.disk) (k₂.table dp).inum (cstring name)) (d : ℕ) (last : List UInt8)
      (other : Names (sb.image k.store.disk) path (origin k cwd path) d last) : ¬ Fitting
        (sb.image k.store.disk) d last := by
    obtain ⟨rfl, rfl⟩ := names.unique other
    exact reason
  have held : dp ∈ ({dp} : Finset (Fin ninode)) := Finset.mem_singleton_self dp
  refine ((dirlookup_ensures owns₂ held (by rw [store]; exact quiet.tidy) type₂ name).allow ?_).bind ?_
  · rintro e ⟨rfl, full⟩
    exact .inl ⟨rfl, packed_of_crowded (crowded_of_full owns₂ full)⟩
  rintro r k₃ ⟨store₃, steady, outcome⟩
  rw [store, ← key_cstring] at outcome
  rw [store] at store₃
  have inum₃ : (k₃.table dp).inum = (k₂.table dp).inum := by rw [steady dp (owns₂.held dp held).1]
  have anchored₃ : Anchored k.table (sb.image k₃.store.disk) := by
    rw [store₃]
    exact quiet.anchored
  rcases outcome with ⟨rfl, -, owns₃⟩ | ⟨ip, j, v, rfl, -, -, there, -, owns₃⟩
  · -- every reference is to an allocated inode, so the new one is not in the table
    have live (q : Fin ninode) (used : 0 < (k₃.table q).ref) :
        ((sb.image k₃.store.disk).inode (k₃.table q).inum).type ≠ 0 := by
      rw [store₃]
      by_cases this : q = dp
      · rw [this, inum₃]
        exact live_of_dir dir
      · rw [owns₃.ref, count_singleton, if_neg this, Nat.add_zero] at used
        rw [owns₃.inum q used]
        exact quiet.live q used
    refine ((ialloc_ensures owns₃ (by rw [store₃]; exact quiet.tidy.consistent) live type).allow ?_).bind ?_
    · rintro e ⟨rfl, full⟩
      exact .inl ⟨rfl, packed_of_crowded (crowded_of_full owns₃ full)⟩
    rintro r k₄ ⟨steady₄, ⟨rfl, store₄, full, owns₄⟩ | ⟨ip, rfl, new, owns₄, free, image, consistent⟩⟩
    · refine (iunlockput_last owns₄ (by rw [store₄]; exact anchored₃)).lift.bind ?_
      rintro - k₅ ⟨store₅, owns₅⟩
      refine .pure (.refused k₅ (.of_store quiet (by rw [store₅, store₄, store₃]) owns₅) ?_)
      rintro - ⟨i, low, high, free⟩
      rw [store₃] at full
      exact absurd free (full i low high)
    · have distinct : ip ≠ dp := by
        rintro rfl
        have := (owns₃.held ip held).1
        omega
      have inum₄ : (k₄.table dp).inum = (k₂.table dp).inum := by
        rw [steady₄ dp (owns₃.held dp held).1]
        exact inum₃
      rw [store₃] at free image
      have alone : Alone k.table (k₄.table ip).inum := by
        intro q used same
        have := quiet.live q used
        rw [same] at this
        exact this free
      refine ((createAs_ensures owns₄ distinct quiet.tidy quiet.anchored alone proper (by rwa [inum₄]) free image
        consistent name).allow fun e none => .inl (packed_of_noEntry none)).mono ?_
      rintro r k₅ (⟨rfl, tidy, tree, owns₅, full⟩ | ⟨rfl, owns₅, inum₅, tidy, kind, nlink⟩)
      · refine .refused k₅ ⟨tidy, tree, owns₅⟩ fun plain _ => only ?_
        rw [Fitting, key_cstring, ← inum₄]
        exact full plain
      · rw [← inum₅] at free kind nlink
        exact .made ip k₅ owns₅ free tidy kind nlink
  · have taken : ¬ Fitting (sb.image k.store.disk) (k₂.table dp).inum (cstring name) := by
      rintro ⟨absent, -⟩
      rw [there] at absent
      cases absent
    have mine : dp ∈ ip ::ₘ ({dp} : Multiset (Fin ninode)) := mem_cons_of_mem (mem_singleton_self dp)
    refine (iunlockput_anchored owns₃ mine held anchored₃).lift.bind ?_
    rintro - k₄ ⟨store₄, owns₄, -⟩
    have left : (ip ::ₘ ({dp} : Multiset (Fin ninode))).erase dp = {ip} := by
      rw [show ip ::ₘ ({dp} : Multiset (Fin ninode)) = dp ::ₘ {ip} from pair_comm ip dp, erase_cons_head]
    rw [left, Finset.erase_singleton] at owns₄
    have store' : k₄.store = k.store := store₄.trans store₃
    refine ((ilock_ensures owns₄ (owns₄.pos_of_mem (mem_singleton_self ip)) (Finset.notMem_empty ip)).allow ?_).bind ?_
    · rintro e ⟨rfl, -⟩
      refine .inr ⟨rfl, .inr ⟨_, _, names, ?_⟩⟩
      rw [there]
      exact Option.some_ne_none v
    rintro - k₅ ⟨store₅, owns₅, -⟩
    have store'' : k₅.store = k.store := store₅.trans store'
    refine entry_bind (.ite (fun _ => .pure (.found ip k₅ store'' owns₅ (only taken))) fun _ => ?_)
    refine (iunlockput_last owns₅ (by rw [store'']; exact quiet.anchored)).lift.bind ?_
    rintro - k₆ ⟨store₆, owns₆⟩
    exact .pure (.refused k₆ (.of_store quiet (store₆.trans store'') owns₆) fun _ _ => only taken)

end Kern

end Xv6.Fs
