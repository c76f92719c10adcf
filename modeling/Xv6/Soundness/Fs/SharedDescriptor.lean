import Xv6.Proofs.Fs.File
import Xv6.Proofs.Fs.Realise

/-! # Writes through one descriptor

Processes that write to one open file take turns by chunks. The offset belongs to the file, so each chunk
starts where the last one ended: no byte is lost, and the chunks lie in the file in the order of the lock.
-/

namespace Xv6.Fs

open Machine Image Op File List

namespace File

variable {sb : Superblock} {s s' : Store} {ip ip' : Inode} {src src' : ℕ → Option UInt8}

theorem Stored.congr {off k : ℕ} (stored : Stored sb src off s ip s' ip' k)
    (same : ∀ j < k, (src' j).getD 0 = (src j).getD 0) : Stored sb src' off s ip s' ip' k := by
  refine ⟨stored.consistent, stored.loaded, stored.kept, stored.size, stored.start, stored.elsewhere,
    stored.held, fun o => ?_⟩
  rw [stored.bytes]
  split
  · next range => exact (same _ (by omega)).symm
  · rfl

theorem chunk_of_run {off off' : UInt32} {n1 : ℕ} (consistent : Consistent sb (sb.image s.disk))
    (loaded : Loaded sb s ip)
    (small : n1 ≤ maxChunk) (ran : (chunk sb src ip off n1).run s = .ok ((ip', off', (n1 : ℤ)), s')) :
    Stored sb src off.toNat s ip s' ip' n1 ∧ off'.toNat = off.toNat + n1 := by
  obtain ⟨k, -, stored, moved, ⟨-, rfl⟩ | ⟨short, -⟩⟩ := (chunk_ensures consistent loaded small).of_run ran (.inl rfl)
  · exact ⟨stored, moved⟩
  · exact (short rfl).elim

end File

namespace Shared

variable {sb : Superblock} {st st' st'' : State} {l : List Piece}

/-- The bytes of chunks, one behind the other. -/
def concat (l : List Piece) : List UInt8 := l.flatMap Piece.bytes

/-- What holds after a run: the bytes of its chunks are behind the first offset. -/
structure Kept (sb : Superblock) (st : State) (l : List Piece) (st' : State) : Prop where
  stored : Stored sb (fun j => (concat l)[j]?) st.off.toNat st.store st.ip st'.store st'.ip (concat l).length
  off : st'.off.toNat = st.off.toNat + (concat l).length
  /-- A call of one chunk is at its start or at its end. -/
  calls : ∀ pid c, st'.call pid = some c → c.n.toInt ≤ maxChunk → c.i = 0 ∨ (c.i : ℤ) = c.n.toInt
  pieces : ∀ piece ∈ l, piece.call.n.toInt ≤ maxChunk → piece.call.i = 0 ∧ (piece.size : ℤ) = piece.call.n.toInt

theorem calls_update {call : ℕ → Option Call} {pid : ℕ} {new : Option Call}
    (old : ∀ pid c, call pid = some c → c.n.toInt ≤ maxChunk → c.i = 0 ∨ (c.i : ℤ) = c.n.toInt)
    (here : ∀ c, new = some c → c.n.toInt ≤ maxChunk → c.i = 0 ∨ (c.i : ℤ) = c.n.toInt) (q : ℕ) (c : Call)
    (found : Function.update call pid new q = some c) (small : c.n.toInt ≤ maxChunk) :
    c.i = 0 ∨ (c.i : ℤ) = c.n.toInt := by
  rw [Function.update_apply] at found
  split at found
  · exact here c found small
  · exact old q c found small

theorem Kept.step {l' : List Piece} (kept : Kept sb st l st') (step : Step sb st' l' st'') :
    Kept sb st (l ++ l') st'' := by
  cases step with
  | enter pid src n idle =>
    rw [append_nil]
    refine ⟨kept.stored, kept.off, calls_update kept.calls ?_, kept.pieces⟩
    rintro c ⟨⟩ -
    exact .inl rfl
  | leave pid c found done =>
    rw [append_nil]
    refine ⟨kept.stored, kept.off, calls_update kept.calls ?_, kept.pieces⟩
    rintro c ⟨⟩
  | chunk pid c n1 ip off store found more size ran =>
    have positive : 0 < maxChunk := by decide
    obtain ⟨stored, moved⟩ := chunk_of_run kept.stored.consistent kept.stored.loaded (by omega) ran
    rw [kept.off] at stored moved
    have bytes : (Piece.bytes ⟨pid, c, n1⟩).length = n1 := by simp [Piece.bytes]
    have split : concat (l ++ [⟨pid, c, n1⟩]) = concat l ++ Piece.bytes ⟨pid, c, n1⟩ := by simp [concat]
    have total : (concat (l ++ [⟨pid, c, n1⟩])).length = (concat l).length + n1 := by rw [split, length_append, bytes]
    have whole (small : c.n.toInt ≤ maxChunk) : c.i = 0 ∧ (n1 : ℤ) = c.n.toInt := by
      have := kept.calls pid c found small
      omega
    refine ⟨?_, ?_, calls_update kept.calls ?_, fun piece listed small => ?_⟩
    · rw [total]
      refine Stored.append (kept.stored.congr fun j early => ?_) (stored.congr fun j early => ?_)
      · rw [split, getElem?_append_left early]
      · rw [split, getElem?_append_right (Nat.le_add_right ..), Nat.add_sub_cancel_left,
          getElem?_eq_getElem (by rwa [bytes])]
        simp [Piece.bytes]
    · rw [total, ← Nat.add_assoc]
      exact moved
    · rintro c' ⟨⟩ small
      have := whole small
      right
      dsimp only
      omega
    · rcases mem_append.mp listed with old | new
      · exact kept.pieces piece old small
      · rw [mem_singleton] at new
        subst new
        exact whole small

theorem Kept.run (consistent : Consistent sb (sb.image st.store.disk)) (loaded : Loaded sb st.store st.ip)
    (idle : ∀ pid, st.call pid = none) (run : Run sb st l st') : Kept sb st l st' := by
  induction run with
  | nil =>
    refine ⟨.nothing consistent loaded, rfl, fun pid c found => ?_, fun piece listed => (not_mem_nil listed).elim⟩
    rw [idle] at found
    cases found
  | snoc _ step ih => exact ih.step step

/-- No write is lost: behind the first offset the file is the chunks in the order of the lock. -/
theorem shared_descriptor (sb : Superblock) (st st' : State) (l : List Piece)
    (consistent : Consistent sb (sb.image st.store.disk))
    (loaded : Loaded sb st.store st.ip) (idle : ∀ pid, st.call pid = none) (run : Run sb st l st') :
    (((sb.image st'.store.disk).file st.ip.inum).drop st.off.toNat).take (concat l).length = concat l ∧
      st'.off.toNat = st.off.toNat + (concat l).length ∧
      ∀ piece ∈ l, piece.call.n.toInt ≤ maxChunk → piece.call.i = 0 ∧ (piece.size : ℤ) = piece.call.n.toInt := by
  have kept := Kept.run consistent loaded idle run
  refine ⟨?_, kept.off, kept.pieces⟩
  rw [kept.stored.file loaded]
  split
  · next none =>
    rw [none, List.take_zero, List.length_eq_zero_iff.mp none]
  · next some =>
    have bound := kept.stored.start some
    have before : (((sb.image st.store.disk).file st.ip.inum).take st.off.toNat).length = st.off.toNat := by
      rw [List.length_take, file_length, loaded.current]
      omega
    have middle : (List.range (concat l).length).map (fun i => ((concat l)[i]?).getD 0) = concat l := by
      refine List.ext_getElem (by simp) fun j left right => ?_
      rw [List.getElem_map, List.getElem_range, List.getElem?_eq_getElem right, Option.getD_some]
    rw [middle, List.drop_append_of_le_length before.ge, List.drop_eq_nil_of_le before.le, List.nil_append,
      List.take_append_of_le_length le_rfl, List.take_length]

theorem length_concat (l : List Piece) : (concat l).length = (l.map Piece.size).sum := by
  simp [concat, Piece.bytes, length_flatMap]

/-- Where the file has all its blocks a call can write its next chunk. -/
theorem Run.chunk (run : Run sb st l st') (consistent : Consistent sb (sb.image st.store.disk))
    (loaded : Loaded sb st.store st.ip) (idle : ∀ pid, st.call pid = none) (low : st.off.toNat ≤ st.ip.size.toNat)
    (mapped : ∀ bn < maxfile, (sb.image st.store.disk).held (st.ip.inum, dataSlot bn) ≠ none) (pid : ℕ)
    (c : Call) (n1 : ℕ)
    (found : st'.call pid = some c) (readable : ∀ i, (c.src i).isSome) (more : c.i < c.n.toInt)
    (size : n1 = min (c.n.toInt - c.i).toNat maxChunk)
    (fits : st.off.toNat + (l.map Piece.size).sum + n1 ≤ maxfile * bsize) :
    ∃ st'', Run sb st (l ++ [⟨pid, c, n1⟩]) st'' ∧
      st''.call = Function.update st'.call pid (some { c with i := c.i + n1 }) := by
  have kept := Kept.run consistent loaded idle run
  have moved := kept.off
  rw [length_concat] at moved
  have writes : Ensures (File.chunk sb (fun k => c.src (c.i + k)) st'.ip st'.off n1) st'.store _ _ :=
    chunk_ensures kept.stored.consistent kept.stored.loaded (size.trans_le (Nat.min_le_right ..))
  obtain ⟨⟨ip, off, r⟩, store, ran, spec⟩ := writes.exists_run
  obtain ⟨k, most, -, -, ⟨rfl, -⟩ | ⟨-, stops, fewer⟩⟩ := spec (.inr fun i _ => readable _)
  · exact ⟨_, run.snoc (.chunk st' pid c n1 ip off store found more size ran), rfl⟩
  · have positive : 0 < maxChunk := by decide
    clear spec
    cases stops with
    | behind _ high =>
      have length := kept.stored.size
      rw [length_concat] at length
      split at length <;> omega
    | large beyond => omega
    | full absent _ =>
      have early : (st'.off.toNat + k) / bsize < maxfile := Nat.div_lt_of_lt_mul (by rw [Nat.mul_comm]; omega)
      obtain ⟨b, held⟩ := Option.ne_none_iff_exists'.mp (mapped _ early)
      rw [kept.stored.inum, kept.stored.held _ b held] at absent
      cases absent

/-- Two calls take turns: the first has two chunks, and the chunk of the second is written between them. -/
theorem shared_descriptor_two : ∃ s l st', Run roomy ⟨s, blankInode, 0, fun _ => none⟩ l st' ∧ st'.off.toNat = 3078 ∧
    ((roomy.image st'.store.disk).file 1).take 3078 = replicate 3072 7 ++ (replicate 5 8 ++ [7]) := by
  obtain ⟨s, shown⟩ := exists_single live_blankFile
  obtain ⟨consistent, loaded⟩ : _ ∧ Loaded roomy s blankInode := loaded_single live_blankFile (by decide) shown
  have mapped (bn : ℕ) (small : bn < maxfile) : _ := held_single live_blankFile shown small
  have limit : maxfile * bsize = 274432 := rfl
  let st : State := ⟨s, blankInode, 0, fun _ => none⟩
  have idle (pid : ℕ) : st.call pid = none := rfl
  have entered := ((Run.nil st).snoc (Step.enter st 0 (fun _ => some 7) 3073 (idle 0) : Step roomy st _ _)).snoc
    (Step.enter _ 1 (fun _ => some 8) 5 (by simp [idle]))
  obtain ⟨st₁, first, calls₁⟩ := entered.chunk consistent loaded idle le_rfl mapped 0 ⟨fun _ => some 7, 3073, 0⟩ 3072
    (by simp) (fun _ => rfl) (by decide) (by decide) (by simp [st, limit])
  obtain ⟨st₂, second, calls₂⟩ := first.chunk consistent loaded idle le_rfl mapped 1 ⟨fun _ => some 8, 5, 0⟩ 5
    (by simp [calls₁]) (fun _ => rfl) (by decide) (by decide) (by simp [st, limit])
  obtain ⟨st₃, third, -⟩ := second.chunk consistent loaded idle le_rfl mapped 0 ⟨fun _ => some 7, 3073, 3072⟩ 1
    (by simp [calls₁, calls₂]) (fun _ => rfl) (by decide) (by decide) (by simp [st, limit])
  obtain ⟨bytes, off, -⟩ := shared_descriptor roomy st _ _ consistent loaded idle third
  rw [length_concat] at bytes off
  refine ⟨s, _, st₃, third, ?_, ?_⟩
  · simpa [st] using off
  · simp only [nil_append, cons_append, concat, flatMap_cons, flatMap_nil, Piece.bytes, Option.getD_some, map_const',
      length_range, append_nil] at bytes
    exact bytes

end Shared

end Xv6.Fs
