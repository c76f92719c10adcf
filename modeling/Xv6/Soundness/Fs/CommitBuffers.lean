import Xv6.Proofs.Fs.Commit

/-! # Buffers for the commit

A transaction keeps one buffer pinned for each of its blocks. The commit needs one more, for the blocks of
the log and for the header; the cache has just as many buffers as the log has blocks, so a transaction that
fills the log leaves none.
-/

namespace Xv6.Fs.Bio

open Machine List

/-- The blocks of the log are pinned, a buffer for each, and no other buffer is in use. -/
structure Ready (dev : UInt32) (s : Device) : Prop where
  listable : Listable s.log.start s.log.lh
  nodup : s.log.lh.Nodup
  pinned : ∃ p, InUse dev s.log.lh p ∅ s.cache

namespace Job

variable {dev : UInt32} {s : Device}

theorem commit_of_lt (ready : Ready dev s) (few : s.log.lh.length < nbuf) :
    Ensures (commit dev) s (fun _ s' => s'.log.lh = [] ∧ Ready dev s') fun _ => False := by
  obtain ⟨listable, nodup, p, inUse⟩ := ready
  have empty {s' : Device} (cleared : s'.log.lh = []) (inUse : ∃ p, InUse dev [] p ∅ s'.cache) :
      s'.log.lh = [] ∧ Ready dev s' := by
    refine ⟨cleared, ?_, ?_, ?_⟩ <;> rw [cleared]
    · exact ⟨fun _ none => (not_mem_nil none).elim, Nat.zero_le _⟩
    · exact nodup_nil
    · exact inUse
  refine .get_bind (.ite (fun _ => ?_) fun none => .pure ?_)
  · refine (writeLog_ensures listable inUse few).bind ?_
    rintro - s₁ ⟨log₁, inUse₁⟩
    refine (writeHead_ensures inUse₁ few).bind ?_
    rintro - s₂ ⟨log₂, inUse₂⟩
    rw [← log₁, ← log₂] at listable nodup inUse₂ few
    refine (installTrans_ensures listable nodup inUse₂ few).bind ?_
    rintro - s₃ ⟨-, p', inUse₃⟩
    have clearing : Ensures clearHead s₃ (fun _ s' => s'.log.lh = [] ∧ s'.cache = s₃.cache) fun _ => False :=
      .modify ⟨rfl, rfl⟩
    refine clearing.bind ?_
    rintro - s₄ ⟨cleared, cache⟩
    rw [← cache] at inUse₃
    refine (writeHead_ensures inUse₃ (by decide)).mono ?_
    rintro - s₅ ⟨log₅, inUse₅⟩
    exact empty (by rw [log₅, cleared]) ⟨p', inUse₅⟩
  · have cleared : s.log.lh = [] := eq_nil_of_length_eq_zero (by omega)
    rw [cleared] at inUse
    exact empty cleared ⟨p, inUse⟩

/-- All buffers are pinned, and none of them has the block of the log that is asked for. -/
theorem commit_of_full (ready : Ready dev s) (full : s.log.lh.length = nbuf) :
    Ensures (commit dev) s (fun _ _ => False) (· = .noBuffers) := by
  obtain ⟨listable, nodup, p, inUse⟩ := ready
  have all (i : Fin nbuf) : i ∈ p := by
    have card : p.card = Fintype.card (Fin nbuf) := by
      rw [Fintype.card_fin]
      exact le_antisymm (inUse.card_le.trans_eq full) (full.symm.trans_le (inUse.le_card nodup))
    rw [(Finset.card_eq_iff_eq_univ p).mp card]
    exact Finset.mem_univ i
  obtain ⟨first, rest, list⟩ := exists_cons_of_ne_nil (ne_nil_of_length_pos (full ▸ (by decide) : 0 < s.log.lh.length))
  have slot : InLog s.log.start (Log.slot s.log.start 0) := slot_inLog (by decide)
  have missing : s.cache.lookup? ⟨dev, Log.slot s.log.start 0⟩ = none := by
    refine find?_eq_none.mpr fun i _ => ?_
    obtain ⟨b, listed, here⟩ := inUse.named i (all i)
    rw [decide_eq_true_eq, ← addr_eq_iff, here]
    intro same
    have block := congrArg Address.blockno same
    dsimp only at block
    exact listable.home b listed (block ▸ slot)
  have unused : s.cache.unused? = none := by
    refine find?_eq_none.mpr fun i _ => ?_
    rw [decide_eq_true_eq, inUse.refcnt_eq_zero]
    exact fun free => free.1 (all i)
  have stopped : Ensures (bread ⟨dev, Log.slot s.log.start 0⟩) s (fun _ _ => False) (· = .noBuffers) := by
    have panics : Ensures (bget ⟨dev, Log.slot s.log.start 0⟩) s (fun _ _ => False) (· = .noBuffers) := by
      refine .get_bind ?_
      rw [Bcache.bget?, missing]
      dsimp only
      rw [unused]
      exact .throw rfl
    exact panics.bind fun _ _ => False.elim
  have writing : Ensures (writeLog dev) s (fun _ _ => False) (· = .noBuffers) := by
    refine .get_bind ?_
    dsimp only
    rw [list, zipIdx_cons, forM_eq_forM, forM_cons, bind_assoc]
    exact stopped.bind fun _ _ => False.elim
  refine .get_bind (.ite (fun _ => writing.bind fun _ _ => False.elim) fun none => ?_)
  rw [full] at none
  exact (none (by decide)).elim

/-- A transaction that fits the log can be committed unless it fills the cache. -/
theorem commit_completes_iff (dev : UInt32) (s : Device) (ready : Ready dev s) :
    (∃ s', (commit dev).run s = .ok ((), s')) ↔ s.log.lh.length < nbuf := by
  constructor
  · rintro ⟨s', ran⟩
    refine lt_of_le_of_ne ready.listable.fits fun full => ?_
    exact (commit_of_full ready full).of_run ran
  · intro few
    obtain ⟨_, s', ran, -⟩ := (commit_of_lt ready few).exists_run
    exact ⟨s', ran⟩

section Runs

/-- Three operations have begun on a disk that holds zeros, with the log at block 2. -/
def begun : Device := ⟨⟨2, 3, false, []⟩, .binit, fun _ => Vector.replicate _ 0⟩

theorem inUse_begun : InUse dev [] ∅ ∅ begun.cache := by
  refine ⟨.binit, fun i => rfl, fun i => rfl, fun i none => (Finset.notMem_empty i none).elim, fun b none => ?_⟩
  exact (not_mem_nil none).elim

/-- The operations change the blocks one after the other. -/
def changes (dev : UInt32) (blocks : List UInt32) : Job Unit :=
  blocks.forM fun b => change ⟨dev, b⟩ (Vector.replicate _ 0)

theorem changes_begun (dev : UInt32) {blocks : List UInt32} (nodup : blocks.Nodup) (listable : Listable 2 blocks) :
    Ensures (changes dev blocks) begun (fun _ s' => s'.log.lh = blocks ∧ Ready dev s') fun _ => False := by
  refine (Ensures.forM_rest (fun rest s' => ∃ past, past ++ rest = blocks ∧ s'.log = { begun.log with lh := past } ∧
    ∃ p, InUse dev s'.log.lh p ∅ s'.cache) ⟨[], rfl, rfl, ∅, inUse_begun⟩ ?_).mono ?_
  · rintro b rest s ⟨past, split, log, p, inUse⟩
    have few : past.length < nbuf := by
      have length := congrArg List.length split
      have fits : blocks.length ≤ nbuf := listable.fits
      rw [length_append, length_cons] at length
      omega
    have unlisted : b ∉ past := by
      rw [← split] at nodup
      intro before
      exact (nodup_append.mp nodup).2.2 b before b mem_cons_self rfl
    refine (change_ensures inUse ?_ ?_ ?_ _).mono ?_
    · rwa [log]
    · rw [log]
      exact show (1 : ℤ) ≤ 3 by decide
    · rwa [log]
    · rintro - s' ⟨log', p', inUse'⟩
      exact ⟨past ++ [b], by rw [append_assoc]; exact split, by rw [log', log], p', inUse'⟩
  · rintro - s ⟨past, split, log, p, inUse⟩
    rw [append_nil] at split
    subst split
    exact ⟨by rw [log], ⟨by rw [log]; exact listable, by rw [log]; exact nodup, p, inUse⟩⟩

theorem commit_of_filling {blocks : List UInt32} (nodup : blocks.Nodup) (listable : Listable 2 blocks)
    (full : blocks.length = nbuf) :
    ∃ s, (changes dev blocks).run begun = .ok ((), s) ∧ s.log.lh = blocks ∧ (commit dev).run s = .error .noBuffers := by
  obtain ⟨_, s, ran, listed, ready⟩ := (changes_begun dev nodup listable).exists_run
  have stops := commit_of_full ready (by rw [listed, full])
  refine ⟨s, ran, listed, ?_⟩
  cases ended : (commit dev).run s with
  | ok result => exact (stops.of_run ended).elim
  | error stop => rw [show stop = .noBuffers from stops.of_error ended]

theorem listable_of_all {start : UInt32} {lh : List UInt32} (home : lh.all (fun b => !decide (InLog start b)) = true)
    (fits : lh.length ≤ logBlocks) : Listable start lh :=
  ⟨fun b listed => by simpa using all_eq_true.mp home b listed, fits⟩

/-- As many blocks as the log holds. -/
def fullLog : List UInt32 := (List.range logBlocks).map fun i => UInt32.ofNat (46 + i)

theorem commit_fullLog : fullLog.Nodup ∧ Listable 2 fullLog ∧ ∃ s, (changes 1 fullLog).run begun = .ok ((), s) ∧
    s.log.lh = fullLog ∧ (commit 1).run s = .error .noBuffers := by
  have length : fullLog.length = logBlocks := by rw [fullLog, List.length_map, List.length_range]
  have listable : Listable 2 fullLog := listable_of_all (by decide +kernel) length.le
  have nodup : fullLog.Nodup := by decide +kernel
  exact ⟨nodup, listable, commit_of_filling nodup listable length⟩

theorem commit_completes_iff_three : ∃ s, (changes 1 [46, 47, 48]).run begun = .ok ((), s) ∧
    ((∃ s', (commit 1).run s = .ok ((), s')) ↔ s.log.lh.length < nbuf) := by
  have listable : Listable 2 [46, 47, 48] := listable_of_all (by decide) (by decide)
  obtain ⟨_, s, ran, -, ready⟩ := (changes_begun 1 (by decide) listable).exists_run
  exact ⟨s, ran, commit_completes_iff 1 s ready⟩

end Runs

end Job

end Xv6.Fs.Bio
