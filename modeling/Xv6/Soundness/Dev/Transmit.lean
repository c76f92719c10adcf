import Xv6.Machine.Census
import Xv6.Machine.Run
import Xv6.Model.Dev.Uart

/-! # No byte of output is lost

`uartputc_sync` does not know of `tx_busy`, and `uartwrite` does not look at the FIFO. Yet each processor that has seen
the FIFO empty adds one byte at most, and the processes add one before `tx_busy` is set, for which the FIFO is large
enough.
-/

namespace Xv6.Uart.System

open Machine Function

variable {P : Type} {s : System P} {p : P} {w : Writer} {rest : List UInt8}

structure Sound (s : System P) : Prop where
  room : ∃ n, Census s.sync (·.isSome = true) n ∧ s.fifo.length + n ≤ ncpu + if s.txBusy then 1 else 0
  order : s.line ++ s.fifo = s.written
  wakes : s.txBusy = true → s.fifo ≠ [] ∨ s.pending = true ∨ s.handling = true
  sleeps : s.txBusy = false → ∀ p rest, s.writer p ≠ .asleep rest

theorem wakeup_ne_asleep (w : Writer) (rest : List UInt8) : w.wakeup ≠ .asleep rest := by
  cases w <;> simp [Writer.wakeup]

namespace Sound

theorem length_le (sound : s.Sound) : s.fifo.length ≤ ncpu + 1 := by
  obtain ⟨n, ⟨inside, -, rfl⟩, room⟩ := sound.room
  split at room <;> omega

theorem writeThr_eq (sound : s.Sound) (c : UInt8) :
    s.writeThr c = { s with fifo := s.fifo ++ [c], pending := false, written := s.written ++ [c] } := by
  rw [writeThr, if_pos (Nat.lt_of_le_of_lt sound.length_le (by decide))]

variable [DecidableEq P]

theorem goto (sound : s.Sound) (sleeps : s.txBusy = false → ∀ rest, w ≠ .asleep rest) : (s.goto p w).Sound := by
  refine ⟨sound.room, sound.order, sound.wakes, fun free q => ?_⟩
  rcases eq_or_ne q p with rfl | other
  · simpa [System.goto] using sleeps free
  · simpa [System.goto, other] using sound.sleeps free q

theorem uartwrite (sound : s.Sound) : (s.uartwrite p rest).Sound := by
  induction rest generalizing s with
  | nil => exact sound.goto (by simp)
  | cons c rest ih =>
    rw [System.uartwrite]
    split
    next busy => exact sound.goto (by simp [busy])
    next free =>
      obtain ⟨n, census, room⟩ := sound.room
      rw [sound.writeThr_eq]
      refine ih ⟨⟨n, census, ?_⟩, by simp [← sound.order], by simp, by simp⟩
      rw [if_neg free] at room
      simp only [List.length_append, List.length_singleton, if_true]
      omega

theorem step (sound : s.Sound) (act : Act P) : (s.step act).Sound := by
  obtain ⟨n, census, room⟩ := sound.room
  cases act with
  | uartwrite p buf =>
    rw [System.step]
    split
    · exact sound.goto (by simp)
    · exact sound
  | resume p =>
    rw [System.step]
    split
    · exact sound.uartwrite
    · exact sound
  | kkill p => exact sound.goto fun _ rest => wakeup_ne_asleep _ rest
  | putcSync cpu c =>
    rw [System.step]
    split
    next idle =>
      have entered : Census (update s.sync cpu (some c)) _ (n + 1) := census.enter (by simp [idle.1]) rfl
      have most := entered.le_card
      refine ⟨⟨n + 1, entered, ?_⟩, sound.order, sound.wakes, sound.sleeps⟩
      rw [Fintype.card_fin] at most
      rw [idle.2, List.length_nil]
      split <;> omega
    next => exact sound
  | store cpu =>
    rw [System.step]
    split
    next c here =>
      rw [sound.writeThr_eq]
      refine ⟨⟨n - 1, census.leave (by simp [here]) (by simp), ?_⟩, by simp [← sound.order], by simp, sound.sleeps⟩
      rw [List.length_append, List.length_singleton]
      dsimp only
      omega
    next => exact sound
  | send =>
    rw [System.step]
    split
    next c rest here =>
      have order := sound.order
      rw [here] at room order
      rw [List.length_cons] at room
      refine ⟨⟨n, census, by dsimp only; omega⟩, by simpa using order, fun _ => ?_, sound.sleeps⟩
      cases rest <;> simp
    next => exact sound
  | interrupt =>
    rw [System.step]
    split
    · exact sound
    · exact ⟨sound.room, sound.order, fun _ => .inr (.inr rfl), sound.sleeps⟩
  | uartintr =>
    rw [System.step, System.uartintr]
    split
    · split
      next empty =>
        have most := census.le_card
        exact ⟨⟨n, census, by simpa [empty] using most⟩, sound.order, by simp, fun _ q rest => wakeup_ne_asleep _ rest⟩
      next sending => exact ⟨sound.room, sound.order, fun _ => .inl sending, sound.sleeps⟩
    · exact sound

theorem run (acts : List (Act P)) : (run System.step boot acts).Sound := by
  refine run_invariant System.step Sound ?_ (fun _ act sound => sound.step act) acts
  exact ⟨⟨0, .none_inside (by simp [boot]), by simp [boot]⟩, rfl, by simp [boot], by simp [boot]⟩

end Sound

variable [DecidableEq P]

/-- What is on the line and in the FIFO is all that was written, in that order. -/
theorem output_in_order (acts : List (Act P)) : let s := run step boot acts
    s.line ++ s.fifo = s.written ∧ s.fifo.length ≤ ncpu + 1 :=
  ⟨(Sound.run acts).order, (Sound.run acts).length_le⟩

/-- Nobody sleeps, or the device is sending, has raised its interrupt, or the handler runs. -/
theorem transmit_wakeup (acts : List (Act P)) : let s := run step boot acts
    (∀ p rest, s.writer p ≠ .asleep rest) ∨ s.txBusy = true ∧ (s.fifo ≠ [] ∨ s.pending = true ∨ s.handling = true) := by
  have sound := Sound.run acts
  cases busy : (run step boot acts).txBusy with
  | false => exact .inl (sound.sleeps busy)
  | true => exact .inr ⟨busy, sound.wakes busy⟩

end Xv6.Uart.System
