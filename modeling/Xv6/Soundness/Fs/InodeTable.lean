import Xv6.Proofs.Fs.Itable

/-! # The inode table is sound

An inode has one entry, the count of an entry is the number of references to it, and an entry in use that
is valid and not locked agrees with the disk. `ilock` always returns what the disk holds, so that the copy
of an inode that was freed is never seen once the inode is allocated again. An inode is freed by an `iput`
that had the last reference to it when there were no links.
-/

namespace Xv6.Fs.Itable

open Machine Function Itable.System

variable {R : Type*} {sb : Superblock} {s s' : System R} {act : Act R} {r : R} {k : Fin ninode}

/-! ## Copies -/

/-- What a reference that has the lock of an entry can rely on. -/
def Copy (inodes : Id → Dinode) (e : Entry) : Task → Prop
  | .holding _ dirty => (inodes e.id).type = e.din.type ∧ e.din.type ≠ 0 ∧ (dirty = false → e.din = inodes e.id)
  | .truncating _ | .erasing _ => e.din = inodes e.id ∧ e.din.type ≠ 0
  | _ => True

variable {inodes : Id → Dinode} {e : Entry} {t : Task} {id : Id} {image : UInt32 → ℕ → Block} {past acts : List (Act R)}

theorem Copy.congr {inodes' : Id → Dinode} {e' : Entry} (copy : Copy inodes e t) (id : e'.id = e.id)
    (din : e'.din = e.din) (disk : (inodes e.id).type ≠ 0 → inodes' e.id = inodes e.id) : Copy inodes' e' t := by
  cases t with
  | holding k dirty =>
    obtain ⟨type, typed, same⟩ := copy
    rw [Copy, id, din, disk (type ▸ typed)]
    exact ⟨type, typed, same⟩
  | truncating | erasing =>
    obtain ⟨same, typed⟩ := copy
    rw [Copy, id, din, disk (same ▸ typed)]
    exact ⟨same, typed⟩
  | _ => trivial

/-- The entries agree with the disk, unless their lock is held and the owner has changes of its own. -/
structure Agrees (sb : Superblock) (s : System R) : Prop where
  unlocked : ∀ k, 0 < (s.entry k).ref → (s.entry k).locked = false → (s.entry k).valid = true →
    (s.entry k).din = onDisk sb s.disk (s.entry k).id ∧ (s.entry k).din.type ≠ 0
  owner : ∀ r k, (s.task r).owns? = some k → Copy (onDisk sb s.disk) (s.entry k) (s.task r)

namespace Move

variable {inodes : Id → Dinode} {t : Task} {e : Entry} {events : List (Event R)}

section

variable (move : Move s inodes r k act t e events)
include move

theorem latest_of_ne {id : Id} (other : id ≠ (s.entry k).id) :
    latest inodes events id = inodes id := by
  cases move <;> simp [other]

theorem copy (unlocked : (s.entry k).locked = false → (s.entry k).valid = true →
      (s.entry k).din = inodes (s.entry k).id ∧ (s.entry k).din.type ≠ 0)
    (owner : (s.task r).owns? = some k → Copy inodes (s.entry k) (s.task r)) : Copy (latest inodes events) e t := by
  cases move with
  | ilock here free valid =>
    obtain ⟨same, typed⟩ := unlocked free valid
    exact ⟨by rw [same]; rfl, typed, fun _ => same⟩
  | read | iunlock | erase | clear => trivial
  | fill here typed => exact ⟨rfl, typed, fun _ => rfl⟩
  | modify dirty here din =>
    obtain ⟨type, typed, -⟩ : Copy inodes (s.entry k) (.holding k dirty) := here ▸ owner (by rw [here]; rfl)
    exact ⟨type, typed, fun clean => by cases clean⟩
  | iupdate dirty here =>
    obtain ⟨type, typed, -⟩ : Copy inodes (s.entry k) (.holding k dirty) := here ▸ owner (by rw [here]; rfl)
    exact ⟨by rw [latest_iupdate_self], typed, fun _ => latest_iupdate_self.symm⟩
  | reclaim here last valid unlinked free => exact unlocked free valid
  | itrunc here =>
    obtain ⟨-, typed⟩ : Copy inodes (s.entry k) (.truncating k) := here ▸ owner (by rw [here]; rfl)
    exact ⟨latest_iupdate_self.symm, typed⟩

theorem unlocked (held : Held s)
    (owner : (s.task r).owns? = some k → Copy inodes (s.entry k) (s.task r)) (free : e.locked = false)
    (valid : e.valid = true) :
    e.din = latest inodes events e.id ∧ e.din.type ≠ 0 := by
  have outside := (move.toLocal held).locked
  rw [free] at outside
  cases move with
  | iunlock here =>
    obtain ⟨-, typed, same⟩ : Copy inodes (s.entry k) (.holding k false) := here ▸ owner (by rw [here]; rfl)
    exact ⟨same rfl, typed⟩
  | clear here => cases valid
  | _ => simp [Task.owns?] at outside

end

end Move

namespace Agrees

theorem boot (image : UInt32 → ℕ → Block) : Agrees sb (.boot image : System R) where
  unlocked _ used := by simp [System.boot] at used
  owner _ _ owns := by simp [System.boot, Task.owns?] at owns

/-- Steps that leave the copies alone, and on the disk change free inodes at most. -/
theorem keep (agrees : Agrees sb s)
    (entry : ∀ k, 0 < (s'.entry k).ref → (s'.entry k).locked = false → (s'.entry k).valid = true →
      0 < (s.entry k).ref ∧ (s.entry k).locked = false ∧ (s.entry k).valid = true ∧
        (s'.entry k).id = (s.entry k).id ∧ (s'.entry k).din = (s.entry k).din)
    (owners : ∀ r k, (s'.task r).owns? = some k →
      s'.task r = s.task r ∧ (s'.entry k).id = (s.entry k).id ∧ (s'.entry k).din = (s.entry k).din)
    (disk : ∀ id, (onDisk sb s.disk id).type ≠ 0 → onDisk sb s'.disk id = onDisk sb s.disk id) : Agrees sb s' := by
  refine ⟨fun k used free valid => ?_, fun r k owns => ?_⟩
  · obtain ⟨used, free, valid, id, din⟩ := entry k used free valid
    obtain ⟨same, typed⟩ := agrees.unlocked k used free valid
    rw [din, id, disk _ (same ▸ typed)]
    exact ⟨same, typed⟩
  · obtain ⟨task, id, din⟩ := owners r k owns
    rw [task] at owns ⊢
    exact (agrees.owner r k owns).congr id din (disk _)

theorem move {events : List (Event R)} [DecidableEq R] (agrees : Agrees sb s) (held : Held s)
    (move : Move s (onDisk sb s.disk) r k act t e events) (task : s'.task = update s.task r t)
    (entry : s'.entry = update s.entry k e) (disk : onDisk sb s'.disk = latest (onDisk sb s.disk) events) :
    Agrees sb s' := by
  have here := move.toLocal held
  have used := held.used here.before
  -- the other entries are those of other inodes
  have elsewhere (j : Fin ninode) (distinct : j ≠ k) (usedⱼ : 0 < (s.entry j).ref) :
      onDisk sb s'.disk (s.entry j).id = onDisk sb s.disk (s.entry j).id := by
    rw [disk, move.latest_of_ne (held.apart used j distinct usedⱼ)]
  refine ⟨fun j usedⱼ free valid => ?_, fun other j owns => ?_⟩
  · rw [entry] at usedⱼ free valid ⊢
    rcases eq_or_ne j k with rfl | distinct
    · rw [update_self] at free valid ⊢
      rw [disk]
      exact move.unlocked held (agrees.owner r j) free valid
    · rw [update_of_ne distinct] at usedⱼ free valid ⊢
      rw [elsewhere j distinct usedⱼ]
      exact agrees.unlocked j usedⱼ free valid
  · rw [task] at owns ⊢
    rcases eq_or_ne other r with rfl | away
    · rw [update_self] at owns ⊢
      obtain rfl : j = k := Option.some.inj ((Task.points?_of_owns? owns).symm.trans here.after)
      rw [entry, update_self, disk]
      exact move.copy (agrees.unlocked j used) (agrees.owner other j)
    · rw [update_of_ne away] at owns ⊢
      have distinct : j ≠ k := by
        rintro rfl
        rcases here.alone with mine | free
        · exact away (held.owner j other r owns mine)
        · exact held.not_owns free other owns
      rw [entry, update_of_ne distinct]
      exact (agrees.owner other j owns).congr rfl rfl fun _ =>
        elsewhere j distinct (held.used (Task.points?_of_owns? owns))

variable [DecidableEq R]

theorem owns_update (task : s'.task = update s.task r t) (outside : t.owns? = none) {other : R}
    (owns : (s'.task other).owns? = some k) : s'.task other = s.task other := by
  rw [task] at owns ⊢
  rcases eq_or_ne other r with rfl | distinct
  · rw [update_self, outside] at owns
    cases owns
  · rw [update_of_ne distinct]

theorem recount {n : ℤ} (agrees : Agrees sb s) (task : s'.task = update s.task r t)
    (entry : s'.entry = update s.entry k { s.entry k with ref := n }) (disk : s'.disk = s.disk)
    (outside : t.owns? = none)
    (used : 0 < n → 0 < (s.entry k).ref) : Agrees sb s' := by
  have same (j : Fin ninode) : (s'.entry j).id = (s.entry j).id ∧ (s'.entry j).din = (s.entry j).din ∧
      (s'.entry j).locked = (s.entry j).locked ∧ (s'.entry j).valid = (s.entry j).valid ∧
      (0 < (s'.entry j).ref → 0 < (s.entry j).ref) := by
    rw [entry]
    rcases eq_or_ne j k with rfl | distinct
    · rw [update_self]
      exact ⟨rfl, rfl, rfl, rfl, used⟩
    · rw [update_of_ne distinct]
      exact ⟨rfl, rfl, rfl, rfl, fun used => used⟩
  refine agrees.keep (fun j usedⱼ free valid => ?_) (fun other j owns => ?_) fun _ _ => by rw [disk]
  · obtain ⟨id, din, locked, valid', used'⟩ := same j
    exact ⟨used' usedⱼ, locked ▸ free, valid' ▸ valid, id, din⟩
  · exact ⟨owns_update task outside owns, (same j).1, (same j).2.1⟩

theorem step (agrees : Agrees sb s) (held : Held s) (step : Step sb s act s') : Agrees sb s' := by
  cases step with
  | move r k t e events move task entry trace disk => exact agrees.move held move task entry disk
  | take r k outside used =>
    refine agrees.recount rfl rfl rfl rfl fun _ => ?_
    rcases used with used | ⟨other, points⟩
    · exact used
    · exact held.used points
  | recycle r k id outside absent free =>
    refine agrees.keep (fun j usedⱼ freeⱼ valid => ?_) (fun other j owns => ?_) fun _ _ => rfl
    · rcases eq_or_ne j k with rfl | distinct
      · simp [setTask, setEntry] at valid
      · simp only [setTask, setEntry, update_of_ne distinct] at usedⱼ freeⱼ valid ⊢
        exact ⟨usedⱼ, freeⱼ, valid, trivial, trivial⟩
    · have same := owns_update rfl rfl owns
      have distinct : j ≠ k := by
        rintro rfl
        exact held.not_points free other (Task.points?_of_owns? (same ▸ owns))
      refine ⟨same, ?_⟩
      simp [setTask, setEntry, update_of_ne distinct]
  | drop r k here =>
    refine agrees.recount rfl rfl rfl rfl fun _ => held.used (r := r) ?_
    rcases here with here | here <;> rw [here] <;> rfl
  | plan r t outside after =>
    exact agrees.keep (fun _ used free valid => ⟨used, free, valid, rfl, rfl⟩)
      (fun _ _ owns => ⟨owns_update rfl (Task.owns?_of_points? after) owns, rfl, rfl⟩) fun _ _ => rfl
  | claim r id type outside free =>
    refine agrees.keep (fun _ used free valid => ⟨used, free, valid, rfl, rfl⟩)
      (fun _ _ owns => ⟨owns_update rfl rfl owns, rfl, rfl⟩) fun other typed => ?_
    refine (congrFun (onDisk_store id (fresh type)) other).trans (update_of_ne ?_ _ _)
    rintro rfl
    exact typed free
  | fail p => exact ⟨agrees.unlocked, agrees.owner⟩
  | noType r k here untyped =>
    have owns : (s.task r).owns? = some k := by rw [here]; rfl
    refine ⟨fun j used free valid => ?_, fun other j ownsⱼ => ?_⟩
    · rcases eq_or_ne j k with rfl | distinct
      · simp [System.fail, setEntry, (held.locked j).mpr ⟨r, owns⟩] at free
      · simp only [System.fail, setEntry, update_of_ne distinct] at used free valid ⊢
        exact agrees.unlocked j used free valid
    · rcases eq_or_ne j k with rfl | distinct
      · obtain rfl := held.owner j other r ownsⱼ owns
        simp [System.fail, setEntry, here, Copy]
      · simp only [System.fail, setEntry, update_of_ne distinct]
        exact agrees.owner other j ownsⱼ

end Agrees

/-! ## The record -/

section Record

variable {inodes₀ : Id → Dinode} {trace : List (Event R)} {id : Id}

theorem LockedSince.append (since : LockedSince trace r id) {events : List (Event R)}
    (kept : ∀ other type, .ialloc other id type ∉ events) : LockedSince (trace ++ events) r id := by
  obtain ⟨past, event, rest, rfl, locks, none_since⟩ := since
  refine ⟨past, event, rest ++ events, by simp, locks, fun other type listed => ?_⟩
  rcases List.mem_append.mp listed with early | late
  · exact none_since other type early
  · exact kept other type late

variable {event : Event R}

theorem LockedSince.last (locks : event = .reclaim r id ∨ ∃ din, event = .ilock r id din) :
    LockedSince (trace ++ [event]) r id := ⟨trace, event, [], rfl, locks, by simp⟩

theorem Transparent.concat (transparent : Transparent inodes₀ trace)
    (seen : ∀ r id din, event = .ilock r id din → din = latest inodes₀ trace id) :
    Transparent inodes₀ (trace ++ [event]) := by
  intro past r id din rest split
  rcases concat_eq_append_cons.mp split with ⟨-, rfl, same⟩ | ⟨earlier, -, before⟩
  · exact seen r id din same.symm
  · exact transparent past r id din earlier before

theorem Current.concat (current : Current trace)
    (since : ∀ r id din, event = .iupdate r id din → LockedSince trace r id) : Current (trace ++ [event]) := by
  intro past r id din rest split
  rcases concat_eq_append_cons.mp split with ⟨-, rfl, same⟩ | ⟨earlier, -, before⟩
  · exact since r id din same.symm
  · exact current past r id din earlier before

/-- The caller of `ialloc` sees the inode that it has allocated when it locks it, if nobody has written it since. -/
def SeesAllocation (trace : List (Event R)) : Prop :=
  ∀ past r id type mid din rest, trace = past ++ .ialloc r id type :: (mid ++ .ilock r id din :: rest) →
    (∀ event ∈ mid, ∀ stored, event.stored? ≠ some (id, stored)) → din = fresh type

theorem Transparent.seesAllocation (transparent : Transparent inodes₀ trace) : SeesAllocation trace := by
  intro past r id type mid din rest split untouched
  have seen := transparent (past ++ .ialloc r id type :: mid) r id din rest (by rw [split]; simp)
  rw [seen, latest_append, ← List.singleton_append, latest_append, latest_ialloc]
  refine (replay_of_not_written ?_).trans (update_self ..)
  rintro ⟨other, stored⟩ listed rfl
  obtain ⟨event, inside, same⟩ := List.mem_filterMap.mp listed
  exact untouched event inside stored same

end Record

/-- The entry that a reference may write to the disk. -/
def Task.writes? : Task → Option (Fin ninode)
  | .holding k _ | .truncating k | .erasing k => some k
  | _ => none

theorem Task.owns?_of_writes? (writes : t.writes? = some k) : t.owns? = some k := by
  cases t <;> first | exact writes | cases writes

theorem Copy.typed (copy : Copy inodes e t) (writes : t.writes? = some k) :
    (inodes e.id).type ≠ 0 := by
  cases t with
  | holding k dirty =>
    obtain ⟨type, typed, -⟩ := copy
    exact type ▸ typed
  | truncating | erasing => exact copy.1 ▸ copy.2
  | _ => cases writes

namespace Move

variable {inodes inodes₀ : Id → Dinode} {t : Task} {e : Entry} {events trace : List (Event R)}

section

variable (move : Move s inodes r k act t e events)
include move

theorem transparent
    (unlocked : (s.entry k).locked = false → (s.entry k).valid = true → (s.entry k).din = inodes (s.entry k).id)
    (transparent : Transparent inodes₀ trace) (disk : inodes = latest inodes₀ trace) :
    Transparent inodes₀ (trace ++ events) := by
  cases move with
  | ilock here free valid =>
    refine transparent.concat ?_
    rintro _ _ _ ⟨⟩
    rw [← disk, unlocked free valid]
  | fill here typed =>
    refine transparent.concat ?_
    rintro _ _ _ ⟨⟩
    rw [disk]
  | reclaim | iupdate | itrunc | erase => exact transparent.concat (by rintro _ _ _ ⟨⟩)
  | read | modify | iunlock | clear => rwa [List.append_nil]

theorem current (since : (s.task r).writes? = some k → LockedSince trace r (s.entry k).id) (current : Current trace) :
    Current (trace ++ events) := by
  cases move with
  | iupdate dirty here | itrunc here | erase here =>
    refine current.concat ?_
    rintro _ _ _ ⟨⟩
    exact since (by rw [here]; rfl)
  | ilock | fill | reclaim => exact current.concat (by rintro _ _ _ ⟨⟩)
  | read | modify | iunlock | clear => rwa [List.append_nil]

theorem not_ialloc (other : R) (id : Id) (type : Int16) :
    .ialloc other id type ∉ events := by
  cases move <;> simp

theorem since (since : (s.task r).writes? = some k → LockedSince trace r (s.entry k).id) (writes : t.writes? = some k) :
    LockedSince (trace ++ events) r (s.entry k).id := by
  cases move with
  | ilock | fill => exact .last (.inr ⟨_, rfl⟩)
  | reclaim => exact .last (.inl rfl)
  | modify dirty here | iupdate dirty here | itrunc here =>
    exact (since (by rw [here]; rfl)).append (by simp)
  | read | iunlock | erase | clear => cases writes

end

end Move

/-- What the record says of the state. -/
structure Recorded (sb : Superblock) (inodes₀ : Id → Dinode) (s : System R) : Prop where
  disk : onDisk sb s.disk = latest inodes₀ s.trace
  transparent : Transparent inodes₀ s.trace
  current : Current s.trace
  since : ∀ r k, (s.task r).writes? = some k → LockedSince s.trace r (s.entry k).id

namespace Recorded

variable {inodes₀ : Id → Dinode}

theorem boot (image : UInt32 → ℕ → Block) : Recorded sb (onDisk sb image) (.boot image : System R) where
  disk := rfl
  transparent _ _ _ _ _ split := by simp [System.boot] at split
  current _ _ _ _ _ split := by simp [System.boot] at split
  since _ _ writes := by simp [System.boot, Task.writes?] at writes

theorem keep (recorded : Recorded sb inodes₀ s) (trace : s'.trace = s.trace) (disk : s'.disk = s.disk)
    (task : ∀ r k, (s'.task r).writes? = some k → s'.task r = s.task r)
    (id : ∀ r k, (s.task r).points? = some k → (s'.entry k).id = (s.entry k).id) : Recorded sb inodes₀ s' := by
  refine ⟨by rw [trace, disk, recorded.disk], trace ▸ recorded.transparent, trace ▸ recorded.current,
    fun r k writes => ?_⟩
  have before : (s.task r).writes? = some k := task r k writes ▸ writes
  rw [trace, id r k (Task.points?_of_owns? (Task.owns?_of_writes? before))]
  exact recorded.since r k before

variable [DecidableEq R]

theorem move {events : List (Event R)} (recorded : Recorded sb inodes₀ s) (held : Held s) (agrees : Agrees sb s)
    (move : Move s (onDisk sb s.disk) r k act t e events) (task : s'.task = update s.task r t)
    (entry : s'.entry = update s.entry k e) (trace : s'.trace = s.trace ++ events)
    (disk : onDisk sb s'.disk = latest (onDisk sb s.disk) events) : Recorded sb inodes₀ s' := by
  have here := move.toLocal held
  have used := held.used here.before
  refine ⟨?_, ?_, ?_, fun other j writes => ?_⟩
  · rw [disk, trace, latest_append, recorded.disk]
  · rw [trace]
    exact move.transparent (fun free valid => (agrees.unlocked k used free valid).1) recorded.transparent recorded.disk
  · rw [trace]
    exact move.current (recorded.since r k) recorded.current
  · have id : (s'.entry j).id = (s.entry j).id := by
      rw [entry]
      rcases eq_or_ne j k with rfl | distinct
      · rw [update_self, here.id]
      · rw [update_of_ne distinct]
    rw [trace, id]
    rw [task] at writes
    rcases eq_or_ne other r with rfl | distinct
    · rw [update_self] at writes
      obtain rfl : j = k :=
        Option.some.inj ((Task.points?_of_owns? (Task.owns?_of_writes? writes)).symm.trans here.after)
      exact move.since (recorded.since other j) writes
    · rw [update_of_ne distinct] at writes
      exact (recorded.since other j writes).append fun _ => move.not_ialloc _ _

theorem step (recorded : Recorded sb inodes₀ s) (held : Held s) (agrees : Agrees sb s) (step : Step sb s act s') :
    Recorded sb inodes₀ s' := by
  have kept (r : R) (k : Fin ninode) (points : (s.task r).points? = some k) := step.id held points
  have quiet {t : Task} {q : R} (task : s'.task = update s.task q t) (outside : t.owns? = none) (r : R) (k : Fin ninode)
      (writes : (s'.task r).writes? = some k) : s'.task r = s.task r :=
    Agrees.owns_update task outside (Task.owns?_of_writes? writes)
  cases step with
  | move r k t e events move task entry trace disk => exact recorded.move held agrees move task entry trace disk
  | take | recycle | drop => exact recorded.keep rfl rfl (quiet rfl rfl) kept
  | plan r t outside after => exact recorded.keep rfl rfl (quiet rfl (Task.owns?_of_points? after)) kept
  | claim r id type outside free =>
    refine ⟨?_, ?_, ?_, fun other j writes => ?_⟩
    · have extended : latest inodes₀ (s.trace ++ [.ialloc r id type]) = _ := latest_append _
      rw [latest_ialloc, ← recorded.disk] at extended
      exact (onDisk_store _ _).trans extended.symm
    · exact recorded.transparent.concat (by rintro _ _ _ ⟨⟩)
    · exact recorded.current.concat (by rintro _ _ _ ⟨⟩)
    · -- the inode was free, so nobody can write it
      have before : (s.task other).writes? = some j := quiet rfl rfl other j writes ▸ writes
      have typed := (agrees.owner other j (Task.owns?_of_writes? before)).typed before
      refine (recorded.since other j before).append ?_
      rintro _ _ listed
      obtain ⟨-, rfl, -⟩ := by simpa using listed
      exact typed free
  | fail | noType => exact recorded.keep rfl rfl (fun _ _ _ => rfl) kept

end Recorded

/-! ## Inodes are freed by their last reference -/

/-- The act is one of the reference. -/
def Act.mentions (r : R) : Act R → Prop
  | .iget q _ | .ialloc q _ _ | .ilock q | .modify q _ | .iupdate q | .iunlock q | .iput q | .step q => r = q
  | .idup q copy => r = q ∨ r = copy

variable [DecidableEq R]

/-- The call of `iput` that is under way for a reference found that it was the last one, to an inode without links. -/
def Last (sb : Superblock) (image : UInt32 → ℕ → Block) (past : List (Act R)) (r : R) (id : Id) : Prop :=
  ∃ early late s k, past = early ++ .iput r :: late ∧ (∀ act ∈ late, act.mentions r → act = .step r) ∧
    run? (System.step? sb) (.boot image) early = some s ∧ s.task r = .held k ∧ (s.entry k).id = id ∧
    (s.entry k).ref = 1 ∧
    (∀ other, (s.task other).points? = some k → other = r) ∧ (s.entry k).din.nlink = 0 ∧ (onDisk sb s.disk id).nlink = 0

/-- `iput` is freeing the inode of an entry. -/
def Task.Frees (k : Fin ninode) (t : Task) : Prop := t = .truncating k ∨ t = .erasing k

theorem Task.Frees.owns? (frees : t.Frees k) : t.owns? = some k := by
  rcases frees with rfl | rfl <;> rfl

/-- While an inode is being freed, its reference is not used otherwise. -/
theorem busy (enabled : s.step? sb act = some s') (frees : (s.task r).Frees k) (mentions : act.mentions r) :
    act = .step r := by
  unfold step? at enabled
  split_ifs at enabled
  cases act with
  | step q => rw [show r = q from mentions]
  | idup q copy =>
    rcases mentions with rfl | rfl <;> rcases frees with here | here <;> simp [here] at enabled
  | _ q =>
    obtain rfl : r = q := mentions
    rcases frees with here | here <;> simp [here] at enabled

/-- The test of `iput` has found the last reference. -/
structure Test (s : System R) (r : R) (k : Fin ninode) : Prop where
  here : s.task r = .held k
  last : (s.entry k).ref = 1
  valid : (s.entry k).valid = true
  unlinked : (s.entry k).din.nlink = 0
  free : (s.entry k).locked = false

/-- An inode is being freed since its `iput` made the test. -/
theorem Step.frees (step : Step sb s act s') (frees : (s'.task r).Frees k) :
    (s.task r).Frees k ∨ act = .iput r ∧ Test s r k := by
  rcases step.turn frees.owns? with same | ⟨j, t, e, events, move, moved⟩
  · exact .inl (same ▸ frees)
  rw [moved] at frees
  cases move with
  | reclaim here last valid unlinked free =>
    rcases frees with same | same <;> cases same
    exact .inr ⟨rfl, here, last, valid, unlinked, free⟩
  | itrunc here =>
    rcases frees with same | same <;> cases same
    exact .inl (.inl here)
  | _ => rcases frees with same | same <;> cases same

/-- On the disk an inode becomes free when `iput` sets its type to zero. -/
theorem Step.freed (step : Step sb s act s') (agrees : Agrees sb s) (typed : (onDisk sb s.disk id).type ≠ 0)
    (untyped : (onDisk sb s'.disk id).type = 0) :
    ∃ r k, act = .step r ∧ s.task r = .erasing k ∧ (s.entry k).id = id := by
  cases step with
  | move q j t e events move task entry trace disk =>
    rw [disk] at untyped
    have same : id = (s.entry j).id := by
      by_contra other
      rw [move.latest_of_ne other] at untyped
      exact typed untyped
    subst same
    cases move with
    | erase here => exact ⟨q, j, rfl, here, rfl⟩
    | iupdate dirty here =>
      obtain ⟨-, nonzero, -⟩ : Copy _ _ (.holding j dirty) := here ▸ agrees.owner q j (by rw [here]; rfl)
      rw [latest_iupdate_self] at untyped
      exact (nonzero untyped).elim
    | itrunc here =>
      obtain ⟨-, nonzero⟩ : Copy _ _ (.truncating j) := here ▸ agrees.owner q j (by rw [here]; rfl)
      rw [latest_iupdate_self] at untyped
      exact (nonzero untyped).elim
    | _ => exact (typed untyped).elim
  | claim q other type outside free =>
    have stored : onDisk sb (store sb s.disk other (fresh type)) id = _ := congrFun (onDisk_store _ _) id
    rw [update_of_ne (by rintro rfl; exact typed free)] at stored
    exact (typed (stored ▸ untyped)).elim
  | _ => exact (typed untyped).elim

/-! ## Runs -/

/-- Whenever an inode becomes free on the disk, this is the doing of an `iput` that had the last reference. -/
def FreedByLast (sb : Superblock) (image : UInt32 → ℕ → Block) (acts : List (Act R)) : Prop :=
  ∀ past act rest before after id, acts = past ++ act :: rest →
    run? (System.step? sb) (.boot image) past = some before →
    before.step? sb act = some after → (onDisk sb before.disk id).type ≠ 0 → (onDisk sb after.disk id).type = 0 →
      ∃ r, act = .step r ∧ Last sb image past r id

theorem Last.extend (last : Last sb image past r id)
    (busy : act.mentions r → act = .step r) : Last sb image (past ++ [act]) r id := by
  obtain ⟨early, late, s, k, rfl, alone, facts⟩ := last
  refine ⟨early, late ++ [act], s, k, by simp, fun other listed => ?_, facts⟩
  rcases List.mem_append.mp listed with listed | listed
  · exact alone other listed
  · exact List.mem_singleton.mp listed ▸ busy

/-- The invariant of all runs. -/
structure Invariant (sb : Superblock) (image : UInt32 → ℕ → Block) (past : List (Act R)) (s : System R) : Prop where
  reached : run? (System.step? sb) (.boot image) past = some s
  held : Held s
  agrees : Agrees sb s
  recorded : Recorded sb (onDisk sb image) s
  last : ∀ r k, (s.task r).Frees k → Last sb image past r (s.entry k).id

theorem Test.toLast (test : Test s r k) (inv : Invariant sb image past s) :
    Last sb image (past ++ [.iput r]) r (s.entry k).id := by
  have points : (s.task r).points? = some k := by rw [test.here]; rfl
  have counted := inv.held.counted k
  rw [test.last] at counted
  obtain ⟨same, -⟩ := inv.agrees.unlocked k (inv.held.used points) test.free test.valid
  exact ⟨past, [], s, k, rfl, by simp, inv.reached, test.here, rfl, test.last, fun other => counted.unique points,
    test.unlinked, same ▸ test.unlinked⟩

theorem Invariant.step (inv : Invariant sb image past s)
    (enabled : s.step? sb act = some s') : Invariant sb image (past ++ [act]) s' := by
  obtain ⟨-, step⟩ := Step.of_step? enabled
  refine ⟨(run?_concat _).mpr ⟨s, inv.reached, enabled⟩, inv.held.step step, inv.agrees.step inv.held step,
    inv.recorded.step inv.held inv.agrees step, fun r k frees => ?_⟩
  rcases step.frees frees with before | ⟨rfl, test⟩
  · rw [step.id inv.held (Task.points?_of_owns? before.owns?)]
    exact (inv.last r k before).extend (busy enabled before)
  · rw [step.id inv.held (r := r) (by rw [test.here]; rfl)]
    exact test.toLast inv

theorem reachable_invariant (reached : run? (step? sb) (.boot image) acts = some s) : Invariant sb image acts s := by
  refine run?_history _ (Invariant sb image) ?_ (fun _ _ _ _ _ inv enabled => inv.step enabled) reached
  exact ⟨rfl, .boot image, .boot image, .boot image,
    fun r k frees => by rcases frees with frees | frees <;> cases frees⟩

/-- The inode table is sound in every run. -/
theorem inode_table (image : UInt32 → ℕ → Block) (acts : List (Act R))
    (reached : run? (System.step? sb) (.boot image) acts = some s) :
    (∀ j k, 0 < (s.entry j).ref → 0 < (s.entry k).ref → (s.entry j).id = (s.entry k).id → j = k) ∧
      (∀ k, Census s.task (fun t => t.points? = some k) (s.entry k).ref) ∧
      (∀ k, 0 < (s.entry k).ref → (s.entry k).locked = false → (s.entry k).valid = true →
        (s.entry k).din = onDisk sb s.disk (s.entry k).id) ∧
      FreedByLast sb image acts ∧ Transparent (onDisk sb image) s.trace ∧ Current s.trace ∧ SeesAllocation s.trace := by
  have inv := reachable_invariant reached
  refine ⟨inv.held.keyed, inv.held.counted, fun k used free valid => (inv.agrees.unlocked k used free valid).1, ?_,
    inv.recorded.transparent, inv.recorded.current, inv.recorded.transparent.seesAllocation⟩
  rintro past act rest before after id rfl early enabled typed untyped
  have inv' := reachable_invariant early
  obtain ⟨r, k, rfl, here, rfl⟩ := (Step.of_step? enabled).2.freed inv'.agrees typed untyped
  exact ⟨r, rfl, inv'.last r k (.inr here)⟩

/-- A disk of inodes of a type that have no links. -/
def smallDisk : Superblock := ⟨100, 50, 3, 2, 3, by decide, by decide, by decide⟩
def unlinked : Block := Vector.ofFn fun i => if i.val % 64 = 0 then 2 else 0

/-- Reference 0 frees its inode, and reference 1 is taken before its `iput` is over. -/
def freeing : List (Act ℕ) :=
  [.iget 0 ⟨1, 1⟩, .ilock 0, .step 0, .iunlock 0, .iput 0, .step 0, .step 0, .iget 1 ⟨1, 1⟩, .step 0, .step 0]

theorem freeing_runs : ∃ s, run? (step? smallDisk) (.boot fun _ _ => unlinked) freeing = some s ∧
    s.task 0 = .idle ∧ s.task 1 = .held ⟨0, by decide⟩ := by
  have ran : ((run? (step? smallDisk) (.boot fun _ _ => unlinked) freeing).map fun s => (s.task 0, s.task 1)) =
      some (.idle, .held ⟨0, by decide⟩) := by decide +kernel
  obtain ⟨s, reached, same⟩ := Option.map_eq_some_iff.mp ran
  exact ⟨s, reached, Prod.mk.inj same⟩

theorem inode_table_freeing : ∃ s, run? (System.step? smallDisk) (.boot fun _ _ => unlinked) freeing = some s ∧
    s.task 1 = .held ⟨0, by decide⟩ ∧ FreedByLast smallDisk (fun _ _ => unlinked) freeing := by
  obtain ⟨s, reached, -, held⟩ := freeing_runs
  exact ⟨s, reached, held, (inode_table _ freeing reached).2.2.2.1⟩

end Xv6.Fs.Itable
