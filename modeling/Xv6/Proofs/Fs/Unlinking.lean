import Xv6.Proofs.Fs.Linking

/-! # Links that are removed

What `sys_unlink` does from a state between calls: it refuses and changes nothing, or it takes an entry out of a
directory and lowers the counts of links. The directory and the inode are freed when nothing else holds them.
-/

namespace Xv6.Fs

open Machine Image Op
open Itable (ninode)

namespace Kern

variable {sb : Superblock} {base : Fin ninode → Incore} {own : Multiset (Fin ninode)} {h : Finset (Fin ninode)}
  {k k' : Kernel}
  {p q cwd dp ip : Fin ninode} {im im' : Image} {i d j : ℕ} {name : List UInt8}

/-- The directory of a removed entry once its count of links is lowered, which only the entry of a directory does. -/
def lowered (im : Image) (d i : ℕ) : Image :=
  if (im.inode i).type = tDir then im.relinked d ((im.inode d).nlink - 1) else im

/-- An entry is cleared, and the directory and the inode are given back. -/
inductive Removed (sb : Superblock) (base : Fin ninode → Incore) (im : Image) (d i j : ℕ) (im' : Image) : Prop where
  | steps (im₁ im₂ : Image) : Added sb im im₁ d j .zero → Dropped sb base (lowered im₁ d i) d im₂ →
      Dropped sb base (im₂.relinked i ((im₂.inode i).nlink - 1)) i im' → Removed sb base im d i j im'

theorem Tidy.lowered (tidy : Tidy sb im) : Tidy sb (lowered im d i) := by
  unfold Kern.lowered
  split
  · exact tidy.relinked
  · exact tidy

theorem removeEntry_ensures (owns : Owns sb base {ip, dp} {ip, dp} k) (distinct : ip ≠ dp)
    (tidy : Tidy sb (sb.image k.store.disk)) (dir : (k.table dp).din.type = tDir)
    (inside : j < (sb.image k.store.disk).entries (k.table dp).inum) :
    Ensures (removeEntry sb dp ip (direntSize * j)) k (fun r k' => r = 0 ∧ Owns sb base 0 ∅ k' ∧
      Removed sb base (sb.image k.store.disk) (k.table dp).inum (k.table ip).inum j (sb.image k'.store.disk))
      fun _ => False := by
  have heldDp : dp ∈ ({ip, dp} : Finset (Fin ninode)) := Finset.mem_insert_of_mem (Finset.mem_singleton_self dp)
  have heldIp : ip ∈ ({ip, dp} : Finset (Fin ninode)) := Finset.mem_insert_self ..
  have loaded := owns.loaded heldDp
  have din := din_of_held owns heldDp
  have isDir : ((sb.image k.store.disk).inode (k.table dp).inum).type = tDir := by rw [← din, dir]
  have size := tidy.whole _ isDir
  rw [← din] at size
  have numbers : (k.table ip).inum ≠ (k.table dp).inum :=
    fun same => distinct (owns.unique ip dp (owns.held ip heldIp).1 (owns.held dp heldDp).1 same)
  have zero : Dirent.zero.inum.toNat < sb.ninodes := Nat.lt_of_le_of_lt (Nat.zero_le _) tidy.root
  refine ((onInode_ensures owns heldDp (clearEntry_spec tidy.consistent loaded inside) ?_).allow ?_).bind ?_
  · rintro dir' a s' ⟨-, written⟩
    exact ⟨written.inum, written.loaded, fun i other => written.elsewhere.inode i other⟩
  · rintro e ⟨f, -, absurd⟩
    exact absurd
  rintro r k₁ ⟨dir', ⟨wrote, written⟩, owns₁, self₁, others₁⟩
  obtain rfl : r = direntSize := wrote
  rw [if_neg (by simp)]
  have added : Added sb (sb.image k.store.disk) (sb.image k₁.store.disk) (k.table dp).inum j .zero :=
    written.added loaded size inside.le rfl
  have tidy₁ := added.tidy tidy isDir zero
  have inum₁ : (k₁.table dp).inum = (k.table dp).inum := by rw [self₁]
  have sameIp : k₁.table ip = k.table ip := others₁ ip distinct
  have dinIp := din_of_held owns₁ heldIp
  rw [sameIp] at dinIp
  -- the directory loses the link that came from the entry for its parent
  have lowers : Ensures (lowerParent sb dp ip) k₁ (fun _ k₂ =>
        sb.image k₂.store.disk = lowered (sb.image k₁.store.disk) (k.table dp).inum (k.table ip).inum ∧
        Owns sb base {ip, dp} {ip, dp} k₂ ∧ k₂.table ip = k.table ip ∧ (k₂.table dp).inum = (k.table dp).inum)
        fun _ => False := by
    refine entry_bind ?_
    rw [sameIp, dinIp]
    refine .ite (fun isFolder => ?_) fun other => ?_
    · have dinDp := din_of_held owns₁ heldDp
      have live := (owns₁.loaded heldDp).live
      refine (amend_ensures owns₁ heldDp live).mono ?_
      rintro - k₂ ⟨image₂, owns₂, self₂, others₂⟩
      refine ⟨?_, owns₂, (others₂ ip distinct).trans sameIp, by rw [self₂, ← inum₁]⟩
      rw [image₂, dinDp, inum₁, lowered, if_pos isFolder, relinked]
    · refine .pure ⟨?_, owns₁, sameIp, inum₁⟩
      rw [lowered, if_neg other]
  refine lowers.bind ?_
  rintro - k₂ ⟨image₂, owns₂, ip₂, inum₂⟩
  have tidy₂ : Tidy sb (sb.image k₂.store.disk) := by
    rw [image₂]
    exact Tidy.lowered tidy₁
  refine (iunlockput_either owns₂ (pair_counts distinct).2 heldDp tidy₂.consistent).bind ?_
  rintro - k₃ ⟨owns₃, others₃, dropped₃⟩
  rw [(pair_erase distinct).1, (pair_erase distinct).2] at owns₃
  rw [image₂, inum₂] at dropped₃
  have tidy₃ := dropped₃.tidy (Tidy.lowered tidy₁)
  have ip₃ : k₃.table ip = k.table ip := (others₃ ip distinct).trans ip₂
  have mine : ip ∈ ({ip} : Finset (Fin ninode)) := Finset.mem_singleton_self ip
  have din₃ := din_of_held owns₃ mine
  rw [ip₃] at din₃
  refine (amend_ensures owns₃ mine (owns₃.loaded mine).live).bind ?_
  rintro - k₄ ⟨image₄, owns₄, self₄, -⟩
  rw [ip₃, din₃] at image₄
  have tidy₄ : Tidy sb (sb.image k₄.store.disk) := by
    rw [image₄]
    exact tidy₃.relinked
  refine (iunlockput_either owns₄ (Multiset.count_singleton_self ip) mine tidy₄.consistent).bind ?_
  rintro - k₅ ⟨owns₅, -, dropped₅⟩
  rw [Multiset.erase_singleton, Finset.erase_singleton] at owns₅
  rw [image₄, self₄, ip₃] at dropped₅
  exact .pure ⟨rfl, owns₅, .steps _ _ added dropped₃ dropped₅⟩

/-- The two names that every directory has. -/
def Dots (name : List UInt8) : Prop := key name = key dot ∨ key name = key dotdot

/-- How `sys_unlink` ends. -/
inductive Unlinking (sb : Superblock) (k : Kernel) (cwd : Fin ninode) (path : Option (List UInt8)) :
    ℤ → Kernel → Prop where
  | refused (k' : Kernel) : Unmoved sb k k' →
      (∀ o d name v, path = some o → Names (sb.image k.store.disk) o (origin k cwd o) d name → ¬ Dots name →
        ((sb.image k.store.disk).directory d).lookup (key name) = some v →
        ¬ ((sb.image k.store.disk).inode v.toNat).nlink < 1 ∧ ((sb.image k.store.disk).inode v.toNat).type = tDir) →
      Unlinking sb k cwd path (-1) k'
  | removed (k' : Kernel) (o : List UInt8) (d j : ℕ) (name : List UInt8) (v : UInt16) : path = some o →
      Names (sb.image k.store.disk) o (origin k cwd o) d name → ¬ Dots name →
      ((sb.image k.store.disk).inode d).type = tDir →
      j < (sb.image k.store.disk).entries d → ((sb.image k.store.disk).directory d).slot j = some (key name, v) →
      ((sb.image k.store.disk).directory d).lookup (key name) = some v → v.toNat ≠ d →
      ((sb.image k.store.disk).inode v.toNat).type ≠ 0 → ¬ ((sb.image k.store.disk).inode v.toNat).nlink < 1 →
      (((sb.image k.store.disk).inode v.toNat).type = tDir → Bare (sb.image k.store.disk) v.toNat) →
      Removed sb k.table (sb.image k.store.disk) d v.toNat j (sb.image k'.store.disk) → Owns sb k.table 0 ∅ k' →
      Unlinking sb k cwd path 0 k'

/-- How `sys_unlink` stops the kernel. -/
inductive UnlinkStop (sb : Superblock) (k : Kernel) (cwd : Fin ninode) (path : Option (List UInt8)) : Stop → Prop where
  | full : Crowded k.table → UnlinkStop sb k cwd path .igetNoInodes
  | dangling (o : List UInt8) : path = some o → (sb.image k.store.disk).Dangling (components o) (origin k cwd o) →
      UnlinkStop sb k cwd path (.fault .ilockNoType)
  | free (o : List UInt8) (d : ℕ) (name : List UInt8) (v : UInt16) : path = some o →
      Names (sb.image k.store.disk) o (origin k cwd o) d name →
      ((sb.image k.store.disk).directory d).lookup (key name) = some v →
      ((sb.image k.store.disk).inode v.toNat).type = 0 →
      UnlinkStop sb k cwd path (.fault .ilockNoType)
  | self (o : List UInt8) (d : ℕ) (name : List UInt8) (v : UInt16) : path = some o →
      Names (sb.image k.store.disk) o (origin k cwd o) d name →
      ((sb.image k.store.disk).directory d).lookup (key name) = some v → v.toNat = d → UnlinkStop sb k cwd path .asleep
  | count (o : List UInt8) (d j : ℕ) (name : List UInt8) (v : UInt16) : path = some o →
      Names (sb.image k.store.disk) o (origin k cwd o) d name → ¬ Dots name →
      ((sb.image k.store.disk).inode d).type = tDir →
      j < (sb.image k.store.disk).entries d → ((sb.image k.store.disk).directory d).slot j = some (key name, v) →
      ((sb.image k.store.disk).inode v.toNat).type ≠ 0 → ((sb.image k.store.disk).inode v.toNat).nlink < 1 →
      UnlinkStop sb k cwd path .unlinkNlink

/-- `sys_unlink` from the entry on, with the directory locked. -/
theorem unlinkEntry_ensures {o : List UInt8} {v : UInt16} (quiet : Quiet sb k) (store : k'.store = k.store)
    (owns : Owns sb k.table (ip ::ₘ {dp}) {dp} k')
    (names : Names (sb.image k.store.disk) o (origin k cwd o) (k'.table dp).inum name) (plain : ¬ Dots name)
    (dir : ((sb.image k.store.disk).inode (k'.table dp).inum).type = tDir)
    (inside : j < (sb.image k.store.disk).entries (k'.table dp).inum)
    (slot : ((sb.image k.store.disk).directory (k'.table dp).inum).slot j = some (key name, v))
    (found : ((sb.image k.store.disk).directory (k'.table dp).inum).lookup (key name) = some v)
    (num : (k'.table ip).inum = v.toNat) :
    Ensures (unlinkEntry sb dp ip (direntSize * j)) k' (Unlinking sb k cwd (some o))
      (UnlinkStop sb k cwd (some o)) := by
  have heldDp : dp ∈ ({dp} : Finset (Fin ninode)) := Finset.mem_singleton_self dp
  by_cases distinct : ip = dp
  · -- the entry is for its own directory
    subst distinct
    refine ((ilock_asleep owns heldDp).allow ?_).bind fun _ _ absurd => absurd.elim
    rintro e rfl
    exact .self o _ name v rfl names found num.symm
  have mine : ip ∈ ip ::ₘ ({dp} : Multiset (Fin ninode)) := Multiset.mem_cons_self ..
  refine ((ilock_ensures owns (owns.pos_of_mem mine) (by simpa using distinct)).allow ?_).bind ?_
  · rintro e ⟨rfl, free⟩
    rw [store, num] at free
    exact .free o _ name v rfl names found free
  rintro - k₁ ⟨store₁, owns₁, inum₁, -, others₁⟩
  have held : ip ∈ insert ip ({dp} : Finset (Fin ninode)) := Finset.mem_insert_self ..
  have din := din_of_held owns₁ held
  have live := (owns₁.loaded held).live
  rw [Incore.inode_toDinode, din, store₁, store, inum₁, num] at live
  rw [store₁, store, inum₁, num] at din
  have sameDp : k₁.table dp = k'.table dp := others₁ dp (Ne.symm distinct)
  have typeDp : (k₁.table dp).din.type = tDir := by
    rw [din_of_held owns₁ (Finset.mem_insert_of_mem heldDp), store₁, store, sameDp]
    exact dir
  have other : v.toNat ≠ (k'.table dp).inum := by
    rw [← num]
    exact fun same => distinct (owns.unique ip dp (owns.pos_of_mem mine) (owns.held dp heldDp).1 same)
  have tidy : Tidy sb (sb.image k₁.store.disk) := by
    rw [store₁, store]
    exact quiet.tidy
  have anchored : Anchored k.table (sb.image k₁.store.disk) := by
    rw [store₁, store]
    exact quiet.anchored
  refine entry_bind ?_
  rw [din]
  refine .ite (fun low => .throw (.count o _ j name v rfl names plain dir inside slot live low)) fun high => ?_
  have removes (bare : ((sb.image k.store.disk).inode v.toNat).type = tDir → Bare (sb.image k.store.disk) v.toNat) :
      Ensures (removeEntry sb dp ip (direntSize * j)) k₁ (Unlinking sb k cwd (some o))
        (UnlinkStop sb k cwd (some o)) := by
    have inside₁ : j < (sb.image k₁.store.disk).entries (k₁.table dp).inum := by
      rw [store₁, store, sameDp]
      exact inside
    refine ((removeEntry_ensures owns₁ distinct tidy typeDp inside₁).mono ?_).lift
    rintro r k₂ ⟨rfl, owns₂, removed⟩
    rw [store₁, store, sameDp, inum₁, num] at removed
    exact .removed k₂ o _ j name v rfl names plain dir inside slot found other live high bare removed owns₂
  refine .ite (fun folder => ?_) fun file => removes fun folder => absurd folder file
  have type₁ : (k₁.table ip).din.type = tDir := by
    rw [din]
    exact folder
  refine (isdirempty_ensures owns₁ held tidy type₁).lift.bind ?_
  rintro empty k₂ ⟨rfl, bare⟩
  refine .ite (fun yes => removes fun _ => ?_) fun no => ?_
  · rw [store₁, store, inum₁, num] at bare
    exact bare yes
  · refine (iunlockput_anchored owns₁ mine held anchored).lift.bind ?_
    rintro - k₃ ⟨store₃, owns₃, -⟩
    rw [Multiset.erase_cons_head, Finset.erase_insert (by simpa using distinct)] at owns₃
    have store' : k₃.store = k.store := by rw [store₃, store₁, store]
    refine (iunlockput_last owns₃ (by rw [store']; exact quiet.anchored)).lift.bind ?_
    rintro - k₄ ⟨store₄, owns₄⟩
    refine .pure (.refused k₄ (.of_store quiet (store₄.trans store') owns₄) ?_)
    rintro _ d last w ⟨⟩ names' - there
    obtain ⟨rfl, rfl⟩ := names.unique names'
    obtain rfl := Option.some.inj (found.symm.trans there)
    exact ⟨high, folder⟩

theorem sysUnlink_ensures (quiet : Quiet sb k) (here : 0 < (k.table cwd).ref) (path : Option (List UInt8)) :
    Ensures (sysUnlink sb cwd path) k (Unlinking sb k cwd path) (UnlinkStop sb k cwd path) := by
  cases path with
  | none =>
    refine .pure (.refused k (.of_store quiet rfl quiet.idle) ?_)
    rintro _ _ _ _ ⟨⟩
  | some o =>
    refine ((nameiparent_ensures quiet.tidy quiet.idle quiet.anchored here o _).allow ?_).bind ?_
    · rintro e (⟨rfl, crowded⟩ | ⟨rfl, dangling⟩)
      · exact .full crowded
      · exact .dangling o rfl dangling
    rintro ⟨r, name⟩ k₁ ⟨store₁, ⟨absent, missing, owns₁⟩ | ⟨dp, found, names, dir, owns₁⟩⟩
    · obtain rfl : r = none := absent
      refine .pure (.refused k₁ (.of_store quiet store₁ owns₁) ?_)
      rintro _ d last v ⟨⟩ names
      exact absurd names (missing d last)
    obtain rfl : r = some dp := found
    dsimp only at names
    refine (ilock_found owns₁ (by rwa [store₁])).lift.bind ?_
    rintro - k₂ ⟨store₂, owns₂, inum₂, type₂⟩
    have store : k₂.store = k.store := store₂.trans store₁
    have anchored : Anchored k.table (sb.image k₂.store.disk) := by
      rw [store]
      exact quiet.anchored
    rw [← inum₂] at names dir
    -- the call gives up with the directory locked
    have leave {k₃ : Kernel} (store₃ : k₃.store = k.store) (owns₃ : Owns sb k.table {dp} {dp} k₃)
        (reason : ∀ v, ¬ Dots (cstring name) →
          ((sb.image k.store.disk).directory (k₂.table dp).inum).lookup (key (cstring name)) = some v →
          ¬ ((sb.image k.store.disk).inode v.toNat).nlink < 1 ∧ ((sb.image k.store.disk).inode v.toNat).type = tDir) :
        Ensures (do iunlockput sb dp; return -1) k₃ (Unlinking sb k cwd (some o)) (UnlinkStop sb k cwd (some o)) := by
      refine (iunlockput_last owns₃ (by rw [store₃]; exact quiet.anchored)).lift.bind ?_
      rintro - k₄ ⟨store₄, owns₄⟩
      refine .pure (.refused k₄ (.of_store quiet (store₄.trans store₃) owns₄) ?_)
      rintro _ d last v ⟨⟩ names'
      obtain ⟨rfl, rfl⟩ := names.unique names'
      exact reason v
    have held : dp ∈ ({dp} : Finset (Fin ninode)) := Finset.mem_singleton_self dp
    refine .ite (fun dots => leave store owns₂ fun v plain => ?_) fun plain => ?_
    · rw [namecmp_eq_zero, namecmp_eq_zero, ← key_cstring] at dots
      exact absurd dots plain
    rw [namecmp_eq_zero, namecmp_eq_zero, ← key_cstring] at plain
    refine ((dirlookup_ensures owns₂ held (by rw [store]; exact quiet.tidy) type₂ name).allow ?_).bind ?_
    · rintro e ⟨rfl, full⟩
      exact .full (crowded_of_full owns₂ full)
    rintro r k₃ ⟨store₃, steady, outcome⟩
    rw [store, ← key_cstring] at outcome
    rw [store] at store₃
    rcases outcome with ⟨rfl, absent, owns₃⟩ | ⟨ip, j, v, rfl, inside, slot, found, num, owns₃⟩
    · refine leave store₃ owns₃ fun v _ there => ?_
      rw [absent] at there
      cases there
    have old (q : Fin ninode) (used : 0 < (k₂.table q).ref) : (k₃.table q).inum = (k₂.table q).inum := by
      rw [steady q used]
    have inum₃ := old dp (owns₂.pos_of_mem (Multiset.mem_singleton_self dp))
    rw [← inum₃] at names dir inside slot found
    exact unlinkEntry_ensures quiet store₃ owns₃ names plain dir inside slot found num

end Kern

end Xv6.Fs
