import Xv6.Machine.Run
import Xv6.Model.Proc.Sleeplock

/-! # Sleep locks exclude, and lose no wakeup

A process that is about to sleep has found the lock taken while it held the inner lock. From then on it is
behind the slot that `wakeup` has come to, or the lock is still taken.
-/

namespace Xv6.Proc.Sleeplock

open Machine Function Sleeplock.System Option

variable {n : ℕ}

/-- The process has `lk->lk` there. -/
def Pc.inner : Pc → Bool
  | .acquireTest | .sleepLock | .sleepRelease | .releaseWake _ => true
  | _ => false

/-- `p->lock` is held there. -/
def Pc.locksSelf : Pc → Bool
  | .sleepRelease | .sleepMark => true
  | _ => false

/-- The process is past `acquiresleep`, and has not released the lock yet. -/
def Pc.holds : Pc → Bool
  | .holding | .releaseLock => true
  | _ => false

/-- The process is SLEEPING on the lock. -/
def System.Sleeps (s : System n) (p : Fin n) : Prop := s.state p = .sleeping ∧ s.chan p = some .lock

/-! ## Steps -/

/-- The steps, by what they change. -/
inductive Step (s : System n) : System n → Prop
  /-- nothing but who sleeps elsewhere -/
  | frame (s' : System n) (pc : s'.pc = s.pc) (lk : s'.lk = s.lk) (locked : s'.locked = s.locked) (pid : s'.pid = s.pid)
      (plock : s'.plock = s.plock) (sleeps : ∀ q, s'.Sleeps q → s.Sleeps q) : Step s s'
  /-- a process goes on, without a spin lock -/
  | move (s' : System n) (p : Fin n) (pc : Pc) (moved : s'.pc = Function.update s.pc p pc) (lk : s'.lk = s.lk)
      (locked : s'.locked = s.locked) (pid : s'.pid = s.pid) (plock : s'.plock = s.plock) (sleeps : ∀ q,
        s'.Sleeps q → s.Sleeps q)
      (before : (s.pc p).inner = false ∧ (s.pc p).locksSelf = false)
      (after : pc.inner = false ∧ pc.locksSelf = false ∧ pc.holds = (s.pc p).holds) (awake : ¬ s'.Sleeps p) : Step s s'
  | enter (p : Fin n) (here : s.pc p = .acquireLock) (free : s.lk = none) :
      Step s { s.setPc p .acquireTest with lk := some p }
  | wait (p : Fin n) (here : s.pc p = .acquireTest) (taken : s.locked = true) : Step s (s.setPc p .sleepLock)
  | take (p : Fin n) (here : s.pc p = .acquireTest) (free : s.locked = false) :
      Step s { s.setPc p .holding with locked := true, pid := some p, lk := none }
  | lockSelf (p : Fin n) (here : s.pc p = .sleepLock) :
      Step s { s.setPc p .sleepRelease with plock := Function.update s.plock p true }
  | unlock (p : Fin n) (here : s.pc p = .sleepRelease) : Step s { s.setPc p .sleepMark with lk := none }
  | mark (p : Fin n) (here : s.pc p = .sleepMark) :
      Step s { (s.setPc p .asleep).setState p .sleeping with
        chan := Function.update s.chan p (some .lock)
        plock := Function.update s.plock p false }
  | release (p : Fin n) (here : s.pc p = .releaseLock) (free : s.lk = none) :
      Step s { s.setPc p (.releaseWake 0) with lk := some p, locked := false, pid := none }
  | skip (p : Fin n) (k : ℕ) (here : s.pc p = .releaseWake k) (self : k = p) : Step s (s.setPc p (.releaseWake (k + 1)))
  | wake (p q : Fin n) (here : s.pc p = .releaseWake q) (free : s.plock q = false) :
      Step s ((s.wakeup q).setPc p (.releaseWake (q + 1)))
  | done (p : Fin n) (k : ℕ) (here : s.pc p = .releaseWake k) (last : n ≤ k) :
      Step s { s.setPc p .idle with lk := none }

variable {s s' : System n} {act : Act n}

variable {p : Fin n} {state : ProcState}

theorem sleeps_of_update (s' : System n) {chan : Option Chan} (changed : s'.state = update s.state p state)
    (chans : s'.chan = update s.chan p chan) (other : ¬ (state = .sleeping ∧ chan = some .lock)) (q : Fin n)
    (sleeps : s'.Sleeps q) : s.Sleeps q ∧ q ≠ p := by
  unfold Sleeps at sleeps
  rw [changed, chans] at sleeps
  rcases eq_or_ne q p with rfl | away
  · rw [update_self, update_self] at sleeps
    exact (other sleeps).elim
  · rw [update_of_ne away, update_of_ne away] at sleeps
    exact ⟨sleeps, away⟩

theorem sleeps_setState (other : state ≠ .sleeping) (q : Fin n)
    (sleeps : (s.setState p state).Sleeps q) : s.Sleeps q ∧ q ≠ p :=
  sleeps_of_update (s.setState p state) rfl (update_eq_self p s.chan).symm (fun both => other both.1) q sleeps

theorem wakeup_frame (s : System n) (q : Fin n) :
    (s.wakeup q).pc = s.pc ∧ (s.wakeup q).lk = s.lk ∧ (s.wakeup q).plock = s.plock ∧
    (s.wakeup q).locked = s.locked ∧ (s.wakeup q).pid = s.pid := by
  unfold wakeup
  split_ifs <;> exact ⟨rfl, rfl, rfl, rfl, rfl⟩

theorem wakeup_moved (s : System n) (p q : Fin n) (pc : Pc) : ((s.wakeup q).setPc p pc).pc = update s.pc p pc := by
  rw [setPc, (wakeup_frame s q).1]

variable {q : Fin n}

theorem sleeps_wakeup (sleeps : (s.wakeup p).Sleeps q) : s.Sleeps q ∧ q ≠ p := by
  unfold wakeup at sleeps
  split_ifs at sleeps with asleep
  · exact sleeps_setState (by decide) q sleeps
  · refine ⟨sleeps, ?_⟩
    rintro rfl
    exact asleep sleeps

theorem Step.next? (enabled : s.next? p = some s') : Step s s' := by
  unfold System.next? at enabled
  split at enabled
  case h_1 | h_2 | h_3 => cases enabled
  case h_4 here =>
    split_ifs at enabled with free
    cases enabled
    exact .enter p here free
  case h_5 here =>
    split_ifs at enabled with taken <;> cases enabled
    · exact .wait p here taken
    · exact .take p here (by simpa using taken)
  case h_6 here =>
    split_ifs at enabled
    cases enabled
    exact .lockSelf p here
  case h_7 here =>
    cases enabled
    exact .unlock p here
  case h_8 here =>
    cases enabled
    exact .mark p here
  case h_9 here =>
    split_ifs at enabled with free
    cases enabled
    exact .release p here free
  case h_10 k here =>
    split_ifs at enabled with inside self free <;> cases enabled
    · exact .skip p k here (congrArg Fin.val self)
    · exact .wake p ⟨k, inside⟩ here (by simpa using free)
    · exact .done p k here (Nat.not_lt.mp inside)

theorem Step.of_step? (enabled : s.step? act = some s') : Step s s' := by
  cases act with
  | acquiresleep p | releasesleep p =>
    obtain ⟨⟨running, here⟩, ⟨⟩⟩ := ite_none_right_eq_some.mp enabled
    exact .move _ p _ rfl rfl rfl rfl rfl (fun _ sleeps => sleeps) (by rw [here]; exact ⟨rfl, rfl⟩)
      (by rw [here]; exact ⟨rfl, rfl, rfl⟩) fun sleeps => by cases running.symm.trans sleeps.1
  | holdingsleep p =>
    obtain ⟨-, ⟨⟩⟩ := ite_none_right_eq_some.mp enabled
    exact .frame _ rfl rfl rfl rfl rfl fun _ sleeps => sleeps
  | step p => exact .next? (ite_none_right_eq_some.mp enabled).2
  | kkill p =>
    obtain ⟨-, ⟨⟩⟩ := ite_none_left_eq_some.mp enabled
    unfold System.kkill
    split_ifs with sleeping
    · exact .frame _ rfl rfl rfl rfl rfl fun q sleeps => (sleeps_setState (by decide) q sleeps).1
    · exact .frame _ rfl rfl rfl rfl rfl fun _ sleeps => sleeps
  | run p =>
    obtain ⟨⟨-, free⟩, ⟨⟩⟩ := ite_none_right_eq_some.mp enabled
    have awake (q : Fin n) (sleeps : (s.resume p).Sleeps q) : s.Sleeps q ∧ q ≠ p :=
      sleeps_of_update _ rfl rfl (by simp) q sleeps
    by_cases here : s.pc p = .asleep
    · refine .move _ p .acquireLock ?_ rfl rfl rfl rfl (fun q sleeps => (awake q sleeps).1)
        (by rw [here]; exact ⟨rfl, rfl⟩)
        (by rw [here]; exact ⟨rfl, rfl, rfl⟩) fun sleeps => (awake p sleeps).2 rfl
      simp [resume, setPc, setState, here]
    · refine .frame _ ?_ rfl rfl rfl rfl fun q sleeps => (awake q sleeps).1
      simp [resume, setPc, setState, here]
  | yield | rouse =>
    obtain ⟨-, ⟨⟩⟩ := ite_none_right_eq_some.mp enabled
    exact .frame _ rfl rfl rfl rfl rfl fun q sleeps => (sleeps_setState (by decide) q sleeps).1
  | nap p addr =>
    obtain ⟨-, ⟨⟩⟩ := ite_none_right_eq_some.mp enabled
    exact .frame _ rfl rfl rfl rfl rfl fun q sleeps => (sleeps_of_update _ rfl rfl (by simp) q sleeps).1

/-! ## The spin locks -/

/-- The spin locks are held by the processes that are at the points where they hold them. -/
structure Spins (s : System n) : Prop where
  lk : ∀ p, s.lk = some p ↔ (s.pc p).inner = true
  plock : ∀ p, s.plock p = true ↔ (s.pc p).locksSelf = true

namespace Spins

variable {p : Fin n} {pc : Pc}

/-- A process goes on: it has the inner lock afterwards if it is at a point for it. -/
theorem move (spins : Spins s) (moved : s'.pc = update s.pc p pc)
    (lk : s'.lk = if pc.inner then some p else if (s.pc p).inner then none else s.lk)
    (free : pc.inner = true → s.lk = none ∨ s.lk = some p) (plock : s'.plock = update s.plock p pc.locksSelf) :
    Spins s' := by
  refine ⟨fun q => ?_, fun q => ?_⟩ <;> rw [moved] <;> rcases eq_or_ne q p with rfl | other
  · have own := spins.lk q
    rw [lk, update_self]
    split_ifs <;> simp_all
  · rw [lk, update_of_ne other, ← spins.lk q]
    split_ifs with after before
    · rcases free after with none | mine <;> simp [*, other.symm]
    · simp [(spins.lk p).mpr before, other.symm]
    · rfl
  · rw [plock, update_self, update_self]
  · rw [plock, update_of_ne other, update_of_ne other, spins.plock]

theorem plock_update (spins : Spins s) {b : Bool} (same : (s.pc p).locksSelf = b) : s.plock = update s.plock p b := by
  rw [Function.eq_update_iff]
  refine ⟨?_, fun _ _ => rfl⟩
  rw [Bool.eq_iff_iff, spins.plock, same]

theorem step (spins : Spins s) (step : Step s s') : Spins s' := by
  cases step with
  | frame _ pc lk _ _ plock => exact ⟨fun q => by rw [lk, pc, spins.lk], fun q => by rw [plock, pc, spins.plock]⟩
  | move _ p pc moved lk _ _ plock _ before after =>
    refine spins.move moved ?_ (by simp [after.1]) ?_
    · simp [lk, after.1, before.1]
    · rw [plock, after.2.1]
      exact spins.plock_update before.2
  | enter _ here free | release _ here free =>
    exact spins.move rfl rfl (fun _ => .inl free) (spins.plock_update (by rw [here]; rfl))
  | wait p here | skip p _ here =>
    have owner := (spins.lk p).mpr (by rw [here]; rfl)
    exact spins.move rfl owner (fun _ => .inr owner) (spins.plock_update (by rw [here]; rfl))
  | take _ here | unlock _ here | done _ _ here =>
    exact spins.move rfl (by rw [here]; rfl) (by rintro ⟨⟩) (spins.plock_update (by rw [here]; rfl))
  | lockSelf p here =>
    have owner := (spins.lk p).mpr (by rw [here]; rfl)
    exact spins.move rfl owner (fun _ => .inr owner) rfl
  | mark p here => exact spins.move rfl (by rw [here]; rfl) (by rintro ⟨⟩) rfl
  | wake p q here free =>
    have owner := (spins.lk p).mpr (by rw [here]; rfl)
    obtain ⟨-, lk, plock, -, -⟩ := wakeup_frame s q
    exact spins.move (wakeup_moved ..) (lk.trans owner) (fun _ => .inr owner)
      (plock.trans (spins.plock_update (by rw [here]; rfl)))

theorem unique (spins : Spins s) (first : (s.pc p).inner = true) (second : (s.pc q).inner = true) : p = q :=
  Option.some.inj (((spins.lk p).mpr first).symm.trans ((spins.lk q).mpr second))

end Spins

/-! ## The sleep lock -/

/-- The lock is taken by the process that is past `acquiresleep`, and those about to sleep have seen so. -/
structure Taken (s : System n) : Prop where
  locked : s.locked = s.pid.isSome
  holder : ∀ p, (s.pc p).holds = true ↔ s.pid = some p
  seen : ∀ p, s.pc p = .sleepLock ∨ s.pc p = .sleepRelease → s.locked = true

namespace Taken

variable {pc : Pc}

theorem keep {p : Fin n} (taken : Taken s) (moved : s'.pc = update s.pc p pc) (locked : s'.locked = s.locked)
    (pid : s'.pid = s.pid) (same : pc.holds = (s.pc p).holds) (seen : pc = .sleepLock ∨ pc = .sleepRelease →
      s.locked = true) :
    Taken s' := by
  refine ⟨by rw [locked, pid, taken.locked], fun q => ?_, fun q here => ?_⟩
  · rw [moved, pid]
    rcases eq_or_ne q p with rfl | other
    · rw [update_self, same, taken.holder]
    · rw [update_of_ne other, taken.holder]
  · rw [moved] at here
    rw [locked]
    rcases eq_or_ne q p with rfl | other
    · rw [update_self] at here
      exact seen here
    · rw [update_of_ne other] at here
      exact taken.seen q here

/-- The owner of the inner lock gives the lock to a process, or takes it away. -/
theorem pass {p : Fin n} {owner : Option (Fin n)}
    (moved : s'.pc = update s.pc p pc) (locked : s'.locked = owner.isSome) (pid : s'.pid = owner)
    (before : ∀ q ≠ p, (s.pc q).holds = false) (after : pc.holds = true ↔ owner = some p)
    (others : ∀ q ≠ p, owner ≠ some q)
    (alone : ∀ q, s'.pc q = .sleepLock ∨ s'.pc q = .sleepRelease → s'.locked = true) : Taken s' := by
  refine ⟨by rw [locked, pid], fun q => ?_, alone⟩
  rw [moved, pid]
  rcases eq_or_ne q p with rfl | other
  · rw [update_self, after]
  · rw [update_of_ne other, before q other]
    simp [others q other]

theorem not_holds {p : Fin n} (taken : Taken s) (owner : s.pid = none ∨ s.pid = some p) (other : q ≠ p) :
    (s.pc q).holds = false := by
  rw [← Bool.not_eq_true, taken.holder]
  rintro same
  rcases owner with free | mine
  · rw [free] at same
    cases same
  · exact other (Option.some.inj (same.symm.trans mine))

theorem step (taken : Taken s) (spins : Spins s) (step : Step s s') : Taken s' := by
  have spins' := spins.step step
  cases step with
  | frame _ pc lk locked pid =>
    refine ⟨by rw [locked, pid, taken.locked], fun q => by rw [pc, pid, taken.holder], fun q here => ?_⟩
    rw [pc] at here
    rw [locked, taken.seen q here]
  | move _ p pc moved lk locked pid plock sleeps before after =>
    refine taken.keep moved locked pid after.2.2 ?_
    rintro (rfl | rfl)
    · cases after.1
    · cases after.1
  | enter _ here | unlock _ here | mark _ here | skip _ _ here | done _ _ here =>
    exact taken.keep rfl rfl rfl (by rw [here]; rfl) (by rintro (same | same) <;> cases same)
  | wait p here locked => exact taken.keep rfl rfl rfl (by rw [here]; rfl) fun _ => locked
  | take p here free =>
    have nobody : s.pid = none := by
      rw [← not_isSome_iff_eq_none, ← taken.locked, free]
      exact Bool.false_ne_true
    exact .pass rfl rfl rfl (fun q other => taken.not_holds (.inl nobody) other) (by simp [Pc.holds])
      (fun q other same => other (Option.some.inj same).symm) fun _ _ => rfl
  | lockSelf p here => exact taken.keep rfl rfl rfl (by rw [here]; rfl) fun _ => taken.seen p (.inl here)
  | release p here free =>
    have mine : s.pid = some p := (taken.holder p).mp (by rw [here]; rfl)
    refine .pass rfl rfl rfl (fun q other => taken.not_holds (.inr mine) other) (by simp [Pc.holds]) (by simp)
      fun q there => ?_
    -- nobody else has the inner lock
    have inner : ((s.setPc p (.releaseWake 0)).pc q).inner = true := by
      rcases there with there | there <;> exact there ▸ rfl
    obtain rfl := Option.some.inj ((spins'.lk q).mpr inner)
    rcases there with there | there <;> simp [setPc] at there
  | wake p q here free =>
    obtain ⟨-, -, -, locked, pid⟩ := wakeup_frame s q
    exact taken.keep (wakeup_moved ..) locked pid (by rw [here]; rfl) (by rintro (same | same) <;> cases same)

end Taken

/-! ## Wakeups -/

/-- Those who sleep on the lock are in `sleep`. -/
def Asleep (s : System n) : Prop := ∀ p, s.Sleeps p → s.pc p = .asleep

namespace Asleep

theorem keep {p : Fin n} {pc : Pc} (asleep : Asleep s) (moved : s'.pc = update s.pc p pc)
    (sleeps : ∀ q, s'.Sleeps q → s.Sleeps q) (awake : s.pc p ≠ .asleep ∨ ¬ s'.Sleeps p) : Asleep s' := by
  intro q sleeping
  have there := asleep q (sleeps q sleeping)
  rw [moved, update_of_ne, there]
  rintro rfl
  rcases awake with before | after
  · exact before there
  · exact after sleeping

theorem step (asleep : Asleep s) (step : Step s s') : Asleep s' := by
  cases step with
  | frame _ pc _ _ _ _ sleeps => exact fun q sleeping => pc ▸ asleep q (sleeps q sleeping)
  | move _ p pc moved _ _ _ _ sleeps _ _ awake => exact asleep.keep moved sleeps (.inr awake)
  | mark p here =>
    intro q sleeping
    rcases eq_or_ne q p with rfl | other
    · exact update_self ..
    · refine (update_of_ne other ..).trans (asleep q ?_)
      simpa [Sleeps, setPc, setState, other] using sleeping
  | wake p q here free =>
    exact asleep.keep (wakeup_moved ..) (fun r sleeping => (sleeps_wakeup sleeping).1) (.inl (by simp [here]))
  | enter p here | wait p here | take p here | lockSelf p here | unlock p here | release p here | skip p k here
  | done p k here =>
    exact asleep.keep rfl (fun _ sleeping => sleeping) (.inl (by simp [here]))

end Asleep

/-- Who sleeps on the lock, or is about to, will be woken. -/
def Woken (s : System n) : Prop :=
  ∀ p, s.pc p = .sleepMark ∨ s.Sleeps p → s.locked = true ∨ ∃ q k, s.pc q = .releaseWake k ∧ k ≤ p

namespace Woken

variable {p : Fin n} {pc : Pc}

theorem mark_of_update (moved : s'.pc = update s.pc p pc) (other : pc ≠ .sleepMark)
    (here : s'.pc q = .sleepMark) : s.pc q = .sleepMark := by
  rw [moved] at here
  rcases eq_or_ne q p with rfl | away
  · rw [update_self] at here
    exact (other here).elim
  · rwa [update_of_ne away] at here

/-- Nobody begins to sleep, and the lock and the loop of `wakeup` stay. -/
theorem keep (woken : Woken s) (moved : s'.pc = update s.pc p pc) (locked : s.locked = true → s'.locked = true)
    (before : ∀ k, s.pc p ≠ .releaseWake k) (other : pc ≠ .sleepMark)
    (sleeps : ∀ q, s'.Sleeps q → s.pc q = .sleepMark ∨ s.Sleeps q) : Woken s' := by
  intro q waits
  rcases woken q (waits.elim (fun here => .inl (mark_of_update moved other here)) (sleeps q)) with
    still | ⟨r, k, there, behind⟩
  · exact .inl (locked still)
  · refine .inr ⟨r, k, ?_, behind⟩
    rw [moved, update_of_ne, there]
    rintro rfl
    exact before k there

theorem advance {k : ℕ} (woken : Woken s) (spins : Spins s) (here : s.pc p = .releaseWake k)
    (moved : s'.pc = update s.pc p pc) (locked : s'.locked = s.locked) (goes : pc = .releaseWake (k + 1) ∨ n ≤ k)
    (other : pc ≠ .sleepMark) (sleeps : ∀ q, s'.Sleeps q → s.Sleeps q)
    (away : ∀ q : Fin n, q = k → s.pc q ≠ .sleepMark ∧ ¬ s'.Sleeps q) : Woken s' := by
  intro q waits
  have behind' : (q : ℕ) ≠ k := fun same => waits.elim
    (fun here => (away q same).1 (mark_of_update moved other here)) (away q same).2
  rcases woken q (waits.imp (mark_of_update moved other) (sleeps q)) with still | ⟨r, j, there, behind⟩
  · exact .inl (locked.trans still)
  -- only one process can be in the loop
  obtain rfl := spins.unique (p := r) (q := p) (by rw [there]; rfl) (by rw [here]; rfl)
  obtain rfl : j = k := Pc.releaseWake.inj (there.symm.trans here)
  rcases goes with rfl | last
  · exact .inr ⟨r, j + 1, by rw [moved, update_self], by omega⟩
  · have := q.isLt
    omega

theorem step (woken : Woken s) (asleep : Asleep s) (taken : Taken s) (spins : Spins s) (step : Step s s') :
    Woken s' := by
  cases step with
  | frame _ pc lk locked pid plock sleeps =>
    intro p waits
    rw [pc, locked]
    exact woken p (waits.imp (fun here => pc ▸ here) (sleeps p))
  | move _ p pc moved lk locked pid plock sleeps before after =>
    refine woken.keep moved (fun still => locked.trans still) (fun k here => ?_) ?_
      fun q asleep => .inr (sleeps q asleep)
    · rw [here] at before
      cases before.1
    · rintro rfl
      cases after.2.1
  | enter _ here | wait _ here | lockSelf _ here =>
    exact woken.keep rfl id (by simp [here]) (by simp) fun _ => .inr
  | take p here free =>
    exact woken.keep rfl (fun _ => rfl) (by simp [here]) (by simp) fun _ => .inr
  | unlock p here =>
    -- it has seen the lock taken, and nobody could release it since
    intro q _
    exact .inl (taken.seen p (.inr here))
  | mark p here =>
    refine woken.keep rfl id (by simp [here]) (by simp) fun q sleeping => ?_
    rcases eq_or_ne q p with rfl | other
    · exact .inl here
    · exact .inr (by simpa [Sleeps, setPc, setState, other] using sleeping)
  | release p here free =>
    intro q _
    exact .inr ⟨p, 0, update_self .., Nat.zero_le _⟩
  | skip p k here self =>
    refine woken.advance spins here rfl rfl (.inl rfl) (by simp) (fun _ => id) fun q same => ?_
    obtain rfl : q = p := Fin.ext (same.trans self)
    exact ⟨by simp [here], fun sleeping => by cases here.symm.trans (asleep q sleeping)⟩
  | wake p q here free =>
    refine woken.advance spins here (wakeup_moved ..) (wakeup_frame s q).2.2.2.1 (.inl rfl) (by simp)
      (fun r sleeping => (sleeps_wakeup sleeping).1) fun r same => ?_
    obtain rfl : r = q := Fin.ext same
    refine ⟨fun before => ?_, fun sleeping => (sleeps_wakeup sleeping).2 rfl⟩
    rw [(spins.plock r).mpr (by rw [before]; rfl)] at free
    cases free
  | done p k here last =>
    refine woken.advance spins here rfl rfl (.inr last) (by simp) (fun _ => id) fun q same => ?_
    have := q.isLt
    omega

end Woken

/-! ## Runs -/

structure Sound (s : System n) : Prop where
  spins : Spins s
  taken : Taken s
  asleep : Asleep s
  woken : Woken s

theorem Sound.initsleeplock (n : ℕ) : Sound (System.initsleeplock n) where
  spins := ⟨fun p => by simp [System.initsleeplock, Pc.inner], fun p => by simp [System.initsleeplock, Pc.locksSelf]⟩
  taken :=
    ⟨rfl, fun p => by simp [System.initsleeplock, Pc.holds], fun p here => by simp [System.initsleeplock] at here⟩
  asleep p sleeping := by simp [System.initsleeplock, System.Sleeps] at sleeping
  woken p waits := by simp [System.initsleeplock, System.Sleeps] at waits

theorem Sound.step (sound : Sound s) (step : Step s s') : Sound s' where
  spins := sound.spins.step step
  taken := sound.taken.step sound.spins step
  asleep := sound.asleep.step step
  woken := sound.woken.step sound.asleep sound.taken sound.spins step

/-- In every run at most one process has the sleep lock, and nobody sleeps on a lock that is free once its inner lock
is. -/
theorem sleep_lock (acts : List (Act n)) (reached : run? System.step? (.initsleeplock n) acts = some s) :
    (∀ p q, (s.pc p).holds = true → (s.pc q).holds = true → p = q) ∧
      (s.lk = none → s.locked = false → ∀ p, ¬ (s.state p = .sleeping ∧ s.chan p = some .lock)) := by
  have sound : Sound s := run?_history System.step? (fun _ s => Sound s) (.initsleeplock n)
    (fun _ _ _ _ _ sound enabled => sound.step (.of_step? enabled)) reached
  refine ⟨fun p q first second => ?_, fun free unlocked p sleeps => ?_⟩
  · exact Option.some.inj (((sound.taken.holder p).mp first).symm.trans ((sound.taken.holder q).mp second))
  · rcases sound.woken p (.inr sleeps) with locked | ⟨q, k, there, -⟩
    · rw [unlocked] at locked
      cases locked
    · have owner := (sound.spins.lk q).mpr (by rw [there]; rfl)
      rw [free] at owner
      cases owner

/-- Process 1 sleeps until process 0 releases the lock; process 0 begins to release it while process 1 is still about
to sleep. -/
def handover : List (Act 2) :=
  [.run 0, .run 1, .acquiresleep 0, .step 0, .step 0, .acquiresleep 1, .step 1, .step 1, .step 1, .step 1,
    .releasesleep 0, .step 0, .step 0, .step 1, .step 0, .step 0, .run 1, .step 1, .step 1]

theorem sleep_lock_handover : ∃ s, run? System.step? (.initsleeplock 2) handover = some s ∧ (s.pc 1).holds = true ∧
    ∀ q, (s.pc q).holds = true → q = 1 := by
  have ran : ((run? System.step? (.initsleeplock 2) handover).map fun s => (s.pc 1).holds) = some true := by decide
  obtain ⟨s, reached, holds⟩ := Option.map_eq_some_iff.mp ran
  exact ⟨s, reached, holds, fun q held => (sleep_lock handover reached).1 q 1 held holds⟩

end Xv6.Proc.Sleeplock
