import Quarry.Proofs.Document.Reading
import Quarry.Proofs.Json.Onward

/-!
Whether a text is accepted: what the last token of a pass through it is.
-/

namespace Quarry

open Json Text

namespace Json.Reader

variable {depth : Nat} {read rest : Bytes} {r : Reader}

theorem isLast_next_of_stands (h : r.Stands depth read rest []) : r.next.event.isLast = true := by
  rw [next, andThen_of_failure h.failure]
  simp only [h.stack, readOutside, h.rootDone rfl]
  split <;> rfl

theorem eof_or_error {e : Event} (h : e.isLast = true) : e = .eof ∨ e = .error := by
  cases e <;> simp_all [Event.isLast]

/-- Whether the last token of a text is its end or a fault. -/
def outcome (r : Reader) : Except ReadError Unit :=
  if r.event = .eof then .ok () else .error r.fault

end Json.Reader

namespace Building

variable {r : Reader} {n fuel : Nat}

theorem run_ends (h : r.Ends n) (hn : n ≤ fuel) (b : Building) :
    (run fuel r b).2 =
      if (Reader.next^[n] r).event = .eof then none else some (Reader.next^[n] r).fault := by
  induction fuel generalizing r n b with
  | zero =>
    have := h.pos
    omega
  | succ fuel ih =>
    obtain ⟨m, rfl⟩ : ∃ m, n = m + 1 := ⟨n - 1, by have := h.pos; omega⟩
    rw [Function.iterate_succ_apply]
    by_cases hm : m = 0
    · subst hm
      rcases Reader.eof_or_error h.last with he | he
      · have he : r.next.event = .eof := he
        rw [run_eof he, Function.iterate_zero_apply, if_pos he]
      · have he : r.next.event = .error := he
        rw [run]
        simp [he]
    · have hl : r.next.event.isLast = false := h.before 1 (by omega) (by omega)
      rw [run_next hl]
      exact ih (h.tail (by omega)) (by omega) _

end Building

theorem Document.read_outcome {depth n : Nat} {input : Bytes}
    (h : (Reader.ofBytes depth input).Ends n) :
    (read depth input).map (fun _ => ()) =
      (Reader.next^[n] (Reader.ofBytes depth input)).outcome := by
  have hle : n ≤ fuelFor input := Nat.le_succ_of_le (h.le_length rfl)
  have hrun := Building.run_ends h hle .empty
  rw [read, parse, Reader.outcome]
  simp only [empty]
  generalize Building.run (fuelFor input) (.ofBytes depth input) .empty = p at hrun
  obtain ⟨b, e⟩ := p
  simp only at hrun
  subst hrun
  by_cases he : (Reader.next^[n] (Reader.ofBytes depth input)).event = .eof
  · rw [if_pos he, if_pos he]
    rfl
  · rw [if_neg he, if_neg he]
    rfl

/-- A text that is read on to its end is accepted. -/
theorem Document.read_of_onward {depth n : Nat} {input : Bytes} {r : Reader}
    (h : (Reader.ofBytes depth input).Onward n r) (he : r.next.event = .eof) :
    ∃ d, read depth input = .ok d := by
  obtain ⟨hends, k, hk⟩ := h.ends rfl (by rw [he]; rfl)
  have hlast : (Reader.next^[n + 1] (Reader.ofBytes depth input)).event = .eof := by
    rw [← he, hk]
  have hread := read_outcome hends
  rw [Reader.outcome, if_pos hlast] at hread
  cases hd : read depth input with
  | ok d => exact ⟨d, rfl⟩
  | error e =>
    rw [hd] at hread
    cases hread

end Quarry
