import Xv6.Machine.Census
import Xv6.Model.Fs.Itable
import Xv6.Proofs.Fs.Layout

/-! # Steps of the inode table

Each step is about one reference and one entry: a reference moves on at its entry, or it is taken or
dropped. The counts are the numbers of references, and an entry is locked when one of them has its lock.
-/

namespace Xv6.Fs.Itable

open Machine Function

variable {R : Type*} {sb : Superblock}

/-! ## Inodes on disk -/

theorem onDisk_store {disk : UInt32 → ℕ → Block} (id : Id) (din : Dinode) :
    onDisk sb (store sb disk id din) = update (onDisk sb disk) id din := by
  have inside (inum : ℕ) : inum % ipb < ipb := Nat.mod_lt _ (by decide)
  funext other
  rcases eq_or_ne other id with rfl | distinct
  · rw [update_self, onDisk, store, update_self, update_self, Dinode.decode_encode_self _ (inside _)]
  rw [update_of_ne distinct, onDisk, store]
  rcases eq_or_ne other.dev id.dev with dev | dev
  · rw [dev, update_self]
    rcases eq_or_ne (sb.iblock other.inum) (sb.iblock id.inum) with block | block
    · have position : other.inum % ipb ≠ id.inum % ipb := by
        intro same
        unfold Superblock.iblock at block
        have number : other.inum = id.inum := by
          rw [← Nat.div_add_mod other.inum ipb, ← Nat.div_add_mod id.inum ipb, same, Nat.add_right_cancel block]
        exact distinct (by cases other; cases id; simp_all)
      rw [block, update_self, Dinode.decode_encode_of_ne _ (inside _) position, onDisk, dev, block]
    · rw [update_of_ne block, onDisk, dev]
  · rw [update_of_ne dev, onDisk]

section Record

variable {inodes : Id → Dinode} {trace : List (Event R)} {id : Id} {r : R} {din : Dinode} {type : Int16}

theorem latest_append (events : List (Event R)) :
    latest inodes (trace ++ events) = latest (latest inodes trace) events := by
  rw [latest, List.filterMap_append, replay_append]
  rfl

@[simp] theorem latest_nil : latest inodes ([] : List (Event R)) = inodes := rfl

@[simp] theorem latest_ilock : latest inodes [.ilock r id din] = inodes := rfl

@[simp] theorem latest_reclaim : latest inodes [.reclaim r id] = inodes := rfl

@[simp] theorem latest_iupdate : latest inodes [.iupdate r id din] = update inodes id din := rfl

theorem latest_iupdate_self : latest inodes [.iupdate r id din] id = din := update_self ..

@[simp] theorem latest_ialloc : latest inodes [.ialloc r id type] = update inodes id (fresh type) := rfl

end Record

/-! ## Steps -/

/-- A reference moves on at its entry: what is done with it next, the entry, and what is recorded. -/
inductive Move (s : System R) (inodes : Id → Dinode) (r : R) (k : Fin ninode) :
    Act R → Task → Entry → List (Event R) → Prop
  | ilock (here : s.task r = .held k) (free : (s.entry k).locked = false) (valid : (s.entry k).valid = true) :
      Move s inodes r k (.ilock r) (.holding k false) { s.entry k with locked := true }
        [.ilock r (s.entry k).id (s.entry k).din]
  | read (here : s.task r = .held k) (free : (s.entry k).locked = false) (invalid : (s.entry k).valid = false) :
      Move s inodes r k (.ilock r) (.reading k) { s.entry k with locked := true } []
  | fill (here : s.task r = .reading k) (typed : (inodes (s.entry k).id).type ≠ 0) :
      Move s inodes r k (.step r) (.holding k false) { s.entry k with din := inodes (s.entry k).id, valid := true }
        [.ilock r (s.entry k).id (inodes (s.entry k).id)]
  | modify (dirty : Bool) (here : s.task r = .holding k dirty) (din : Dinode) :
      Move s inodes r k (.modify r din) (.holding k true)
        { s.entry k with din := { din with type := (s.entry k).din.type } } []
  | iupdate (dirty : Bool) (here : s.task r = .holding k dirty) :
      Move s inodes r k (.iupdate r) (.holding k false) (s.entry k) [.iupdate r (s.entry k).id (s.entry k).din]
  | iunlock (here : s.task r = .holding k false) :
      Move s inodes r k (.iunlock r) (.held k) { s.entry k with locked := false } []
  | reclaim (here : s.task r = .held k) (last : (s.entry k).ref = 1) (valid : (s.entry k).valid = true)
      (unlinked : (s.entry k).din.nlink = 0) (free : (s.entry k).locked = false) :
      Move s inodes r k (.iput r) (.truncating k) { s.entry k with locked := true } [.reclaim r (s.entry k).id]
  | itrunc (here : s.task r = .truncating k) :
      Move s inodes r k (.step r) (.erasing k)
        { s.entry k with din := { (s.entry k).din with size := 0, addrs := Vector.replicate _ 0 } }
        [.iupdate r (s.entry k).id { (s.entry k).din with size := 0, addrs := Vector.replicate _ 0 }]
  | erase (here : s.task r = .erasing k) :
      Move s inodes r k (.step r) (.clearing k) { s.entry k with din := { (s.entry k).din with type := 0 } }
        [.iupdate r (s.entry k).id { (s.entry k).din with type := 0 }]
  | clear (here : s.task r = .clearing k) :
      Move s inodes r k (.step r) (.dropping k) { s.entry k with valid := false, locked := false } []

/-! ## References and locks -/

theorem Task.points?_of_owns? {t : Task} {k : Fin ninode} (owns : t.owns? = some k) : t.points? = some k := by
  cases t <;> first | exact owns | cases owns

theorem Task.owns?_of_points? {t : Task} (outside : t.points? = none) : t.owns? = none := by
  cases t <;> first | rfl | cases outside

/-- The counts are the numbers of references, locked are the entries whose lock a reference has, and no inode
has two entries. -/
structure Held (s : System R) : Prop where
  counted : ∀ k, Census s.task (fun t => t.points? = some k) (s.entry k).ref
  locked : ∀ k, (s.entry k).locked = true ↔ ∃ r, (s.task r).owns? = some k
  owner : ∀ k r r', (s.task r).owns? = some k → (s.task r').owns? = some k → r = r'
  keyed : ∀ j k, 0 < (s.entry j).ref → 0 < (s.entry k).ref → (s.entry j).id = (s.entry k).id → j = k

section Held

variable {s : System R} {r : R} {k : Fin ninode}

theorem Held.boot (image : UInt32 → ℕ → Block) : Held (.boot image : System R) where
  counted _ := .none_inside fun _ => by simp [System.boot, Task.points?]
  locked _ := by simp [System.boot, Task.owns?]
  owner _ _ _ owns := by simp [System.boot, Task.owns?] at owns
  keyed _ _ used := by simp [System.boot] at used

theorem Held.used (held : Held s) (points : (s.task r).points? = some k) : 0 < (s.entry k).ref := by
  have counted := (held.counted k).one_le points
  omega

theorem Held.not_owns (held : Held s) (free : (s.entry k).locked = false) (other : R) :
    (s.task other).owns? ≠ some k := by
  intro owns
  rw [(held.locked k).mpr ⟨other, owns⟩] at free
  cases free

theorem Held.apart (held : Held s) (used : 0 < (s.entry k).ref) (j : Fin ninode) (distinct : j ≠ k)
    (usedⱼ : 0 < (s.entry j).ref) : (s.entry j).id ≠ (s.entry k).id :=
  fun same => distinct (held.keyed j k usedⱼ used same)

theorem Held.not_points (held : Held s) (free : (s.entry k).ref = 0) (other : R) : (s.task other).points? ≠ some k := by
  intro points
  have used := held.used points
  rw [free] at used
  exact absurd used (by decide)

theorem Held.congr {s' : System R} (held : Held s)
    (task : ∀ r, (s'.task r).points? = (s.task r).points? ∧ (s'.task r).owns? = (s.task r).owns?)
    (entry : ∀ k, (s'.entry k).ref = (s.entry k).ref ∧ (s'.entry k).locked = (s.entry k).locked ∧
      (s'.entry k).id = (s.entry k).id) :
    Held s' := by
  refine ⟨fun k => ?_, fun k => ?_, fun k first second => ?_, fun j k => ?_⟩
  · obtain ⟨inside, members, counted⟩ := held.counted k
    exact ⟨inside, fun r => by simp only [members, (task r).1], by rw [(entry k).1, counted]⟩
  · simp only [(entry k).2.1, held.locked k, (task _).2]
  · rw [(task first).2, (task second).2]
    exact held.owner k first second
  · rw [(entry j).1, (entry k).1, (entry j).2.2, (entry k).2.2]
    exact held.keyed j k

/-- A reference that moves keeps its entry, and the entry its inode; it has the lock, or nobody has. -/
structure Move.Local (s : System R) (r : R) (k : Fin ninode) (t : Task) (e : Entry) : Prop where
  before : (s.task r).points? = some k
  after : t.points? = some k
  id : e.id = (s.entry k).id
  ref : e.ref = (s.entry k).ref
  alone : (s.task r).owns? = some k ∨ (s.entry k).locked = false
  locked : e.locked = true ↔ t.owns? = some k

theorem Move.toLocal {inodes : Id → Dinode} {act : Act R} {t : Task} {e : Entry} {events : List (Event R)}
    (held : Held s)
    (move : Move s inodes r k act t e events) : Move.Local s r k t e := by
  have locked (owns : (s.task r).owns? = some k) : (s.entry k).locked = true := (held.locked k).mpr ⟨r, owns⟩
  cases move with
  | ilock here free | read here free | reclaim here _ _ _ free =>
    exact ⟨by rw [here]; rfl, rfl, rfl, rfl, .inr free, by simp [Task.owns?]⟩
  | fill here | modify _ here | iupdate _ here | itrunc here | erase here =>
    have owns : (s.task r).owns? = some k := by rw [here]; rfl
    exact ⟨by rw [here]; rfl, rfl, rfl, rfl, .inl owns, by simp [Task.owns?, locked owns]⟩
  | iunlock here | clear here =>
    exact ⟨by rw [here]; rfl, rfl, rfl, rfl, .inl (by rw [here]; rfl), by simp [Task.owns?]⟩

end Held

/-- Why the kernel panics, other than for an inode that is free. -/
def Refused (s : System R) (act : Act R) : Panic → Prop
  | .igetNoInodes => ∀ k, (s.entry k).ref ≠ 0
  | .ilock => ∃ r k, s.task r = .held k ∧ (s.entry k).ref < 1
  | .iunlock => ∃ r k, act = .iunlock r ∧ (s.task r = .held k ∨ s.task r = .holding k false ∧
      ((s.entry k).locked = false ∨ (s.entry k).ref < 1))
  | .schedLocks => ∃ r k, s.task r = .held k ∧ (s.entry k).ref = 1 ∧ (s.entry k).locked = true
  | .ilockNoType => False

/-- The table is full, or the caller of `iunlock` has not locked the inode. -/
theorem Held.refused {s : System R} {act : Act R} {p : Panic} (held : Held s) (refused : Refused s act p) :
    p = .igetNoInodes ∧ (∀ k, (s.entry k).ref ≠ 0) ∨ p = .iunlock ∧ ∃ r k, act = .iunlock r ∧ s.task r = .held k := by
  have alive {r : R} {k : Fin ninode} (points : (s.task r).points? = some k) : ¬ (s.entry k).ref < 1 := by
    have used := held.used points
    omega
  cases p with
  | igetNoInodes => exact .inl ⟨rfl, refused⟩
  | ilock =>
    obtain ⟨r, k, here, low⟩ := refused
    exact (alive (by rw [here]; rfl) low).elim
  | iunlock =>
    obtain ⟨r, k, rfl, here | ⟨here, free | low⟩⟩ := refused
    · exact .inr ⟨rfl, r, k, rfl, here⟩
    · exact (held.not_owns free r (by rw [here]; rfl)).elim
    · exact (alive (by rw [here]; rfl) low).elim
  | schedLocks =>
    -- the only reference does not have the lock
    obtain ⟨r, k, here, last, locked⟩ := refused
    obtain ⟨other, owns⟩ := (held.locked k).mp locked
    have counted := held.counted k
    rw [last] at counted
    obtain rfl := counted.unique (i := r) (by rw [here]; rfl) (Task.points?_of_owns? owns)
    rw [here] at owns
    cases owns
  | ilockNoType => exact refused.elim

theorem System.lookup?_eq_some {s : System R} {k : Fin ninode} {id : Id} (found : s.lookup? id = some k) :
    0 < (s.entry k).ref ∧ (s.entry k).id = id := by
  obtain ⟨used, dev, inum⟩ := by simpa using List.find?_some found
  exact ⟨used, by rw [Entry.id, dev, inum]⟩

theorem System.lookup?_eq_none {s : System R} {id : Id} (missing : s.lookup? id = none) {j : Fin ninode}
    (used : 0 < (s.entry j).ref) : (s.entry j).id ≠ id := by
  rintro rfl
  have other := List.find?_eq_none.mp missing j (List.mem_finRange j)
  simp [used, Entry.id] at other

variable [DecidableEq R]

/-- The steps, by what they change. -/
inductive Step (sb : Superblock) (s : System R) : Act R → System R → Prop
  | move {act : Act R} {s' : System R} (r : R) (k : Fin ninode) (t : Task) (e : Entry) (events : List (Event R))
      (move : Move s (onDisk sb s.disk) r k act t e events) (task : s'.task = Function.update s.task r t)
      (entry : s'.entry = Function.update s.entry k e) (trace : s'.trace = s.trace ++ events)
      (disk : onDisk sb s'.disk = latest (onDisk sb s.disk) events) (calm : s'.panic = none) : Step sb s act s'
  | take (act : Act R) (r : R) (k : Fin ninode) (outside : (s.task r).points? = none)
      (used : 0 < (s.entry k).ref ∨ ∃ other, (s.task other).points? = some k) : Step sb s act (s.idup k r)
  | recycle (act : Act R) (r : R) (k : Fin ninode) (id : Id) (outside : (s.task r).points? = none)
      (absent : ∀ j, 0 < (s.entry j).ref → (s.entry j).id ≠ id) (free : (s.entry k).ref = 0) :
      Step sb s act
        ((s.setEntry k { s.entry k with dev := id.dev, inum := id.inum, ref := 1, valid := false }).setTask r (.held k))
  | drop (act : Act R) (r : R) (k : Fin ninode) (here : s.task r = .held k ∨ s.task r = .dropping k) :
      Step sb s act (s.drop r k)
  | plan (act : Act R) (r : R) (t : Task) (outside : (s.task r).points? = none) (after : t.points? = none) :
      Step sb s act (s.setTask r t)
  | claim (act : Act R) (r : R) (id : Id) (type : Int16) (outside : (s.task r).points? = none)
      (free : (onDisk sb s.disk id).type = 0) :
      Step sb s act
        ((({ s with disk := store sb s.disk id (fresh type) }).setTask r (.claimed id)).note (.ialloc r id type))
  | fail (act : Act R) (p : Panic) (refused : Refused s act p) : Step sb s act (s.fail p)
  | noType (act : Act R) (r : R) (k : Fin ninode) (here : s.task r = .reading k)
      (untyped : (onDisk sb s.disk (s.entry k).id).type = 0) (turn : act = .step r) :
      Step sb s act
        ((s.setEntry k { s.entry k with din := onDisk sb s.disk (s.entry k).id, valid := true }).fail .ilockNoType)

variable {s s' : System R} {act : Act R} {r : R} {k : Fin ninode}

theorem Step.iget (outside : (s.task r).points? = none) (id : Id) : Step sb s act (s.iget r id) := by
  unfold System.iget
  cases found : s.lookup? id with
  | some k => exact .take act r k outside (.inl (System.lookup?_eq_some found).1)
  | none =>
    cases room : s.empty? with
    | none => exact .fail act .igetNoInodes fun k => by simpa using List.find?_eq_none.mp room k (List.mem_finRange k)
    | some k =>
      have free : (s.entry k).ref = 0 := by simpa using List.find?_some room
      exact .recycle act r k id outside (fun j used => System.lookup?_eq_none found used) free

theorem Step.ilock? (calm : s.panic = none) (here : s.task r = .held k) (enabled : s.ilock? r k = some s') :
    Step sb s (.ilock r) s' := by
  unfold System.ilock? at enabled
  dsimp only at enabled
  split_ifs at enabled with low locked valid
  · cases enabled
    exact .fail _ .ilock ⟨r, k, here, low⟩
  · cases enabled
    refine .move r k _ _ _ (.ilock here (by simpa using locked) valid) rfl rfl ?_ rfl calm
    simp [System.locked, System.note, System.setTask, System.setEntry, Entry.id]
  · cases enabled
    exact .move r k _ _ _ (.read here (by simpa using locked) (by simpa using valid)) rfl rfl
      (List.append_nil _).symm rfl calm

theorem Step.fill (calm : s.panic = none) (here : s.task r = .reading k) : Step sb s (.step r) (s.fill sb r k) := by
  unfold System.fill
  dsimp only
  split_ifs with untyped
  · exact .noType _ r k here untyped rfl
  · refine .move r k _ _ _ (.fill here untyped) rfl rfl ?_ rfl calm
    simp [System.locked, System.note, System.setTask, System.setEntry, Entry.id]

theorem Step.iput (calm : s.panic = none) (here : s.task r = .held k) : Step sb s (.iput r) (s.iput r k) := by
  unfold System.iput
  dsimp only
  split_ifs with last locked
  · exact .fail _ .schedLocks ⟨r, k, here, last.1, locked⟩
  · exact .move r k _ _ _ (.reclaim here last.1 last.2.1 last.2.2 (by simpa using locked)) rfl rfl rfl rfl calm
  · exact .drop _ r k (.inl here)

theorem Step.scan {dev : UInt32} {type : Int16} {inum : ℕ} (outside : (s.task r).points? = none) :
    Step sb s act (s.scan sb r dev type inum) := by
  unfold System.scan
  split_ifs with inside free
  · exact .claim act r ⟨dev, inum⟩ type outside free
  · exact .plan act r _ outside rfl
  · exact .plan act r _ outside rfl

theorem Step.next? (calm : s.panic = none) (enabled : s.next? sb r = some s') : Step sb s (.step r) s' := by
  unfold System.next? at enabled
  split at enabled <;> cases enabled
  · next here => exact .scan (by rw [here]; rfl)
  · next id here => exact .iget (by rw [here]; rfl) id
  · next here => exact .fill calm here
  · next k here =>
    refine .move r k _ _ _ (.itrunc here) rfl rfl ?_ ?_ calm
    · simp [System.iupdate, System.note, System.setTask, System.setEntry, Entry.id]
    · simp [System.iupdate, System.note, System.setTask, System.setEntry, Entry.id, onDisk_store]
  · next k here =>
    refine .move r k _ _ _ (.erase here) rfl rfl ?_ ?_ calm
    · simp [System.iupdate, System.note, System.setTask, System.setEntry, Entry.id]
    · simp [System.iupdate, System.note, System.setTask, System.setEntry, Entry.id, onDisk_store]
  · next k here => exact .move r k _ _ _ (.clear here) rfl rfl (List.append_nil _).symm rfl calm
  · next k here => exact .drop _ r k (.inr here)

theorem Step.of_step? (enabled : s.step? sb act = some s') : s.panic = none ∧ Step sb s act s' := by
  unfold System.step? at enabled
  split_ifs at enabled with failed
  have calm : s.panic = none := by simpa using failed
  refine ⟨calm, ?_⟩
  cases act with
  | iget r id =>
    simp only [Option.ite_none_right_eq_some, Option.some.injEq] at enabled
    exact enabled.2 ▸ .iget (by rw [enabled.1]; rfl) id
  | idup r copy =>
    simp only [Option.ite_none_right_eq_some] at enabled
    obtain ⟨idle, enabled⟩ := enabled
    have outside : (s.task copy).points? = none := by rw [idle]; rfl
    split at enabled <;> cases enabled
    · next k here => exact .take _ copy k outside (.inr ⟨r, by rw [here]; rfl⟩)
    · next k _ here => exact .take _ copy k outside (.inr ⟨r, by rw [here]; rfl⟩)
  | ialloc r dev type =>
    simp only [Option.ite_none_right_eq_some, Option.some.injEq] at enabled
    exact enabled.2 ▸ .plan _ r _ (by rw [enabled.1]; rfl) rfl
  | ilock r =>
    simp only at enabled
    split at enabled
    · next here => exact .ilock? calm here enabled
    · cases enabled
  | modify r din =>
    simp only at enabled
    split at enabled <;> cases enabled
    next k dirty here => exact .move r k _ _ _ (.modify dirty here din) rfl rfl (List.append_nil _).symm rfl calm
  | iupdate r =>
    simp only at enabled
    split at enabled <;> cases enabled
    next k dirty here =>
    refine .move r k _ _ _ (.iupdate dirty here) rfl (update_eq_self ..).symm rfl ?_ calm
    exact (onDisk_store _ _).trans latest_iupdate.symm
  | iunlock r =>
    simp only at enabled
    split at enabled <;> cases enabled
    · next k here =>
      rw [System.iunlock, if_pos (by simp [System.holdingsleep, here, Task.owns?])]
      exact .fail _ .iunlock ⟨r, k, rfl, .inl here⟩
    · next k here =>
      unfold System.iunlock
      split_ifs with refused
      · exact .fail _ .iunlock ⟨r, k, rfl, .inr ⟨here, by simpa [System.holdingsleep, here, Task.owns?] using refused⟩⟩
      · exact .move r k _ _ _ (.iunlock here) rfl rfl (List.append_nil _).symm rfl calm
  | iput r =>
    simp only at enabled
    split at enabled <;> cases enabled
    next here => exact .iput calm here
  | step r => exact .next? calm enabled

namespace Held

section

variable (held : Held s)
include held

variable {t : Task} {e : Entry}

theorem change (task : s'.task = update s.task r t) (entry : s'.entry = update s.entry k e)
    (counted : Census s'.task (fun t => t.points? = some k) e.ref)
    (before : ∀ j, (s.task r).points? = some j → j = k) (after : ∀ j, t.points? = some j → j = k)
    (locked : e.locked = true ↔ ∃ other, (s'.task other).owns? = some k)
    (owner : ∀ first second, (s'.task first).owns? = some k → (s'.task second).owns? = some k → first = second)
    (apart : 0 < e.ref → ∀ j ≠ k, 0 < (s.entry j).ref → (s.entry j).id ≠ e.id) : Held s' := by
  have owners (j : Fin ninode) (distinct : j ≠ k) (other : R) :
      (s'.task other).owns? = some j ↔ (s.task other).owns? = some j := by
    rw [task]
    rcases eq_or_ne other r with rfl | away
    · rw [update_self]
      exact ⟨fun owns => (distinct (after j (Task.points?_of_owns? owns))).elim,
        fun owns => (distinct (before j (Task.points?_of_owns? owns))).elim⟩
    · rw [update_of_ne away]
  refine ⟨fun j => ?_, fun j => ?_, fun j first second => ?_, fun i j usedᵢ usedⱼ same => ?_⟩
  · rcases eq_or_ne j k with rfl | distinct
    · rwa [entry, update_self]
    · rw [entry, update_of_ne distinct, task]
      exact (held.counted j).stay ⟨fun points => (distinct (after j points)).elim,
        fun points => (distinct (before j points)).elim⟩
  · rcases eq_or_ne j k with rfl | distinct
    · rwa [entry, update_self]
    · rw [entry, update_of_ne distinct, held.locked j]
      simp only [owners j distinct]
  · rcases eq_or_ne j k with rfl | distinct
    · exact owner first second
    · rw [owners j distinct, owners j distinct]
      exact held.owner j first second
  · rw [entry] at usedᵢ usedⱼ same
    rcases eq_or_ne i k with rfl | distinctᵢ
    · rcases eq_or_ne j i with rfl | distinctⱼ
      · rfl
      · rw [update_self] at usedᵢ same
        rw [update_of_ne distinctⱼ] at usedⱼ same
        exact (apart usedᵢ j distinctⱼ usedⱼ same.symm).elim
    · rw [update_of_ne distinctᵢ] at usedᵢ same
      rcases eq_or_ne j k with rfl | distinctⱼ
      · rw [update_self] at usedⱼ same
        exact (apart usedⱼ i distinctᵢ usedᵢ same).elim
      · rw [update_of_ne distinctⱼ] at usedⱼ same
        exact held.keyed i j usedᵢ usedⱼ same

theorem move {inodes : Id → Dinode} {events : List (Event R)}
    (move : Move s inodes r k act t e events) (task : s'.task = update s.task r t)
    (entry : s'.entry = update s.entry k e) : Held s' := by
  obtain ⟨before, after, id, ref, alone, locked⟩ := move.toLocal held
  have used := held.used before
  -- nobody else has the lock
  have owns (other : R) : (s'.task other).owns? = some k ↔ other = r ∧ t.owns? = some k := by
    rw [task]
    rcases eq_or_ne other r with rfl | distinct
    · simp
    · refine ⟨fun owns => ?_, fun same => (distinct same.1).elim⟩
      rw [update_of_ne distinct] at owns
      rcases alone with mine | free
      · exact (distinct (held.owner k other r owns mine)).elim
      · exact (held.not_owns free other owns).elim
  refine held.change task entry ?_ (fun j points => ?_) (fun j points => ?_) ?_ (fun first second => ?_) ?_
  · rw [ref, task]
    exact (held.counted k).stay (by rw [after, before])
  · exact Option.some.inj (points.symm.trans before)
  · exact Option.some.inj (points.symm.trans after)
  · simp [owns, locked]
  · rw [owns, owns]
    rintro ⟨rfl, -⟩ ⟨rfl, -⟩
    rfl
  · rw [id]
    exact fun _ => held.apart used

theorem recount (task : s'.task = update s.task r t) (entry : s'.entry = update s.entry k e)
    (counted : Census s'.task (fun t => t.points? = some k) e.ref)
    (before : ∀ j, (s.task r).points? = some j → j = k) (after : ∀ j, t.points? = some j → j = k)
    (outside : (s.task r).owns? = none) (outside' : t.owns? = none) (locked : e.locked = (s.entry k).locked)
    (apart : 0 < e.ref → ∀ j ≠ k, 0 < (s.entry j).ref → (s.entry j).id ≠ e.id) : Held s' := by
  have same (other : R) : (s'.task other).owns? = (s.task other).owns? := by
    rw [task]
    rcases eq_or_ne other r with rfl | distinct
    · rw [update_self, outside, outside']
    · rw [update_of_ne distinct]
  refine held.change task entry counted before after ?_ (fun first second => ?_) apart
  · rw [locked, held.locked k]
    simp only [same]
  · rw [same, same]
    exact held.owner k first second

theorem idup (outside : (s.task r).points? = none) (used : 0 < (s.entry k).ref) :
    Held (s.idup k r) := by
  refine held.recount rfl rfl ?_ (by simp [outside]) (by simp [Task.points?]) (Task.owns?_of_points? outside) rfl rfl
    fun _ => held.apart used
  exact (held.counted k).enter (by simp [outside]) rfl

theorem recycle (outside : (s.task r).points? = none) (free : (s.entry k).ref = 0) {id : Id}
    (absent : ∀ j, 0 < (s.entry j).ref → (s.entry j).id ≠ id) :
    Held ((s.setEntry k { s.entry k with dev := id.dev, inum := id.inum, ref := 1, valid := false }).setTask r
      (.held k)) := by
  refine held.recount rfl rfl ?_ (by simp [outside]) (by simp [Task.points?]) (Task.owns?_of_points? outside) rfl rfl
    fun _ j _ used => absent j used
  have counted := held.counted k
  rw [free] at counted
  exact counted.enter (by simp [outside]) rfl

theorem drop (here : s.task r = .held k ∨ s.task r = .dropping k) : Held (s.drop r k) := by
  have points : (s.task r).points? = some k := by rcases here with here | here <;> rw [here] <;> rfl
  have outside : (s.task r).owns? = none := by rcases here with here | here <;> rw [here] <;> rfl
  have used := held.used points
  refine held.recount rfl rfl ?_ (by simp [points]) (by simp [Task.points?]) outside rfl rfl fun _ => held.apart used
  exact (held.counted k).leave points (by simp [Task.points?])

theorem update (outside : (s.task r).points? = none) (after : t.points? = none)
    (task : s'.task = update s.task r t) (entry : s'.entry = s.entry) : Held s' := by
  refine held.congr (fun other => ?_) fun j => by simp [entry]
  rw [task]
  rcases eq_or_ne other r with rfl | distinct
  · simp [outside, after, Task.owns?_of_points?]
  · simp [update_of_ne distinct]

theorem step (step : Step sb s act s') : Held s' := by
  cases step with
  | move r k t e events move task entry => exact held.move move task entry
  | take r k outside used =>
    refine held.idup outside ?_
    rcases used with used | ⟨other, points⟩
    · exact used
    · exact held.used points
  | recycle r k id outside absent free => exact held.recycle outside free absent
  | drop r k here => exact held.drop here
  | plan r t outside after => exact held.update outside after rfl rfl
  | claim r id type outside => exact held.update outside rfl rfl rfl
  | fail p => exact held.congr (fun _ => ⟨rfl, rfl⟩) fun _ => ⟨rfl, rfl, rfl⟩
  | noType r k here =>
    refine held.congr (fun _ => ⟨rfl, rfl⟩) fun j => ?_
    rcases eq_or_ne j k with rfl | distinct
    · simp [System.setEntry, System.fail, Entry.id]
    · simp [System.setEntry, System.fail, update_of_ne distinct]

end

end Held

/-- An entry keeps its inode as long as there is a reference to it. -/
theorem Step.id (step : Step sb s act s') (held : Held s) (points : (s.task r).points? = some k) :
    (s'.entry k).id = (s.entry k).id := by
  have change {e : Entry} {j : Fin ninode} (entry : s'.entry = update s.entry j e) (id : k = j →
      e.id = (s.entry j).id) :
      (s'.entry k).id = (s.entry k).id := by
    rw [entry]
    rcases eq_or_ne k j with rfl | distinct
    · rw [update_self, id rfl]
    · rw [update_of_ne distinct]
  cases step with
  | move q j t e events move task entry => exact change entry fun _ => (move.toLocal held).id
  | take | drop | noType => exact change rfl fun _ => rfl
  | recycle q j id outside absent free =>
    refine change rfl ?_
    rintro rfl
    exact (held.not_points free r points).elim
  | plan | claim | fail => rfl

/-- A reference that has a lock has just moved, or it is where it was. -/
theorem Step.turn (step : Step sb s act s') (owns : (s'.task r).owns? = some k) : s'.task r = s.task r ∨
    ∃ j t e events, Move s (onDisk sb s.disk) r j act t e events ∧ s'.task r = t := by
  have quiet {t : Task} {q : R} (task : s'.task = update s.task q t) (outside : t.owns? = none) :
      s'.task r = s.task r := by
    rw [task] at owns ⊢
    rcases eq_or_ne r q with rfl | distinct
    · rw [update_self, outside] at owns
      cases owns
    · rw [update_of_ne distinct]
  cases step with
  | move q j t e events move task entry =>
    rw [task]
    rcases eq_or_ne r q with rfl | distinct
    · exact .inr ⟨j, t, e, events, move, update_self ..⟩
    · exact .inl (update_of_ne distinct ..)
  | take | recycle | drop | claim => exact .inl (quiet rfl rfl)
  | plan q t outside after => exact .inl (quiet rfl (Task.owns?_of_points? after))
  | fail | noType => exact .inl rfl

/-- What a step that panics has found. -/
def Cause (sb : Superblock) (s : System R) (act : Act R) : Panic → Prop
  | .igetNoInodes => ∀ k, (s.entry k).ref ≠ 0
  | .ilockNoType => ∃ r k, act = .step r ∧ s.task r = .reading k ∧ (onDisk sb s.disk (s.entry k).id).type = 0
  | .iunlock => ∃ r k, act = .iunlock r ∧ s.task r = .held k
  | _ => False

theorem Step.panic {p : Panic} (step : Step sb s act s') (calm : s.panic = none) (held : Held s)
    (failed : s'.panic = some p) :
    Cause sb s act p := by
  cases step with
  | move q j t e events move task entry trace disk calm' =>
    rw [calm'] at failed
    cases failed
  | fail q refused =>
    cases failed
    obtain ⟨rfl, full⟩ | ⟨rfl, unlocked⟩ := held.refused refused
    · exact full
    · exact unlocked
  | noType r k here untyped turn =>
    cases failed
    exact ⟨r, k, turn, here, untyped⟩
  | _ => cases calm.symm.trans failed

end Xv6.Fs.Itable
