import Quarry.Proofs.Json.Consumed

/-!
Reading makes progress. However a reader is driven, it stays within its text and its depth, no byte
is read twice, each token but the last takes a byte, and a fault is the end of it.
-/

namespace Quarry.Json

open Text

/-- A part that a text has. -/
def Span.Within (s : Span) (input : Bytes) : Prop := s.start ≤ s.stop ∧ s.stop ≤ input.length

theorem Event.last_cases {e : Event} (h : e.isLast = true) : e = .eof ∨ e = .error := by
  cases e with
  | eof => exact .inl rfl
  | error => exact .inr rfl
  | _ => cases h

namespace Reader

variable {r r' : Reader} {input : Bytes} {depth : Nat}

theorem further_calls (r : Reader) (cs : List Call) : r.Further (r.calls cs) :=
  (kept_further r).calls (.refl r) cs

theorem Further.lt_position (h : r.Further r')
    (hlt : r'.cursor.rest.length < r.cursor.rest.length) : r.position < r'.position := by
  obtain ⟨chunk, hrest, hposition⟩ := h.onto
  rw [hrest, List.length_append] at hlt
  rw [position, position, hposition]
  omega

/-! ### Bounds -/

/-- Where a reader of a text may stand, and how many containers it may have opened. -/
structure Bounded (input : Bytes) (depth : Nat) (r : Reader) : Prop where
  rest : r.cursor.rest = input.drop r.position
  span : r.span.Within input
  stack : r.stack.length ≤ depth

theorem bounded_calls (depth : Nat) (input : Bytes) (cs : List Call) :
    ((ofBytes depth input).calls cs).Bounded input depth := by
  have h := further_calls (ofBytes depth input) cs
  obtain ⟨chunk, hrest, hposition⟩ := h.onto
  have hrest : input = chunk ++ ((ofBytes depth input).calls cs).cursor.rest := hrest
  have hposition : ((ofBytes depth input).calls cs).position = 0 + chunk.length := hposition
  rw [Nat.zero_add] at hposition
  refine ⟨?_, ⟨h.start le_rfl, ?_⟩, (h.stack (Nat.zero_le depth)).trans h.maxDepth.le⟩
  · rw [hposition]
    conv_rhs => rw [hrest, List.drop_left]
  · rw [span, hposition, hrest, List.length_append]
    exact Nat.le_add_right _ _

theorem Bounded.onto (h : r.Bounded input depth) {c : Cursor} (hc : r.cursor.Onto c) :
    c.position ≤ input.length := by
  obtain ⟨chunk, hrest, hposition⟩ := hc
  have hlen := congrArg List.length hrest
  have hle : r.position ≤ input.length := h.span.2
  rw [h.rest, List.length_drop, List.length_append] at hlen
  rw [position] at hle hlen
  omega

theorem Bounded.rest_length (h : r.Bounded input depth) :
    r.cursor.rest.length = input.length - r.position := by
  rw [h.rest, List.length_drop]

/-! ### The end of reading -/

theorem Healthy.failure (h : r.Healthy input) (hl : r.next.event.isLast = false) :
    r.failure = none := by
  by_contra hf
  have he : r.event = .error := h.1.resolve_left hf
  rw [next_of_failure hf, he] at hl
  cases hl

theorem Healthy.lt_position (h : r.Healthy input) (hl : r.next.event.isLast = false) :
    r.position < r.next.position :=
  (further_next r).lt_position (length_next (h.failure hl) hl)

theorem Ends.cons {n : Nat} (hl : r.next.event.isLast = false) (h : r.next.Ends n) :
    r.Ends (n + 1) := by
  refine ⟨Nat.succ_pos n, h.last, ?_⟩
  intro j hpos hj
  obtain ⟨j, rfl⟩ : ∃ i, j = i + 1 := ⟨j - 1, by omega⟩
  by_cases hzero : j = 0
  · rw [hzero]
    exact hl
  · exact h.before j (by omega) (by omega)

theorem Healthy.exists_ends (h : r.Healthy input) :
    ∃ n ≤ r.cursor.rest.length + 1, r.Ends n := by
  induction hk : r.cursor.rest.length using Nat.strong_induction_on generalizing r with
  | h k ih =>
    subst hk
    by_cases hl : r.next.event.isLast = true
    · exact ⟨1, by omega, Nat.one_pos, hl, fun j hpos hj => by omega⟩
    · rw [Bool.not_eq_true] at hl
      have hlt := length_next (h.failure hl) hl
      obtain ⟨n, hn, hends⟩ := ih _ hlt h.next rfl
      exact ⟨n + 1, by omega, hends.cons hl⟩

/-- What is answered to the calls for a token among others. -/
def answers : Reader → List Call → List Event
  | _, [] => []
  | r, .next :: cs => r.next.event :: answers r.next cs
  | r, .skip :: cs => answers r.skip.2 cs

theorem Healthy.answers (h : r.Healthy input) (cs : List Call)
    (hl : ∀ e ∈ r.answers cs, e.isLast = false) :
    r.position + (r.answers cs).length ≤ (r.calls cs).position := by
  induction cs generalizing r with
  | nil => exact le_rfl
  | cons c cs ih =>
    cases c with
    | next =>
      rw [Reader.answers, List.forall_mem_cons] at hl
      have hlt := h.lt_position hl.1
      have hle := ih h.next hl.2
      rw [Reader.answers, List.length_cons]
      calc r.position + ((r.next.answers cs).length + 1)
          ≤ r.next.position + (r.next.answers cs).length := by omega
        _ ≤ (r.calls (.next :: cs)).position := hle
    | skip =>
      have hle := ih h.skip hl
      have honto := (further_skip r).onto.le
      calc r.position + (r.skip.2.answers cs).length
          ≤ r.skip.2.position + (r.skip.2.answers cs).length := Nat.add_le_add_right honto _
        _ ≤ (r.calls (.skip :: cs)).position := hle

/-- The bound on the tokens read to come out of containers is never met. -/
theorem Healthy.readUntil_fuel (h : r.Healthy input) (target : Nat) {fuel fuel' : Nat}
    (hf : r.cursor.rest.length < fuel) (hf' : r.cursor.rest.length < fuel') :
    r.readUntil target fuel = r.readUntil target fuel' := by
  induction fuel generalizing r fuel' with
  | zero => omega
  | succ fuel ih =>
    obtain ⟨fuel', rfl⟩ : ∃ n, fuel' = n + 1 := ⟨fuel' - 1, by omega⟩
    by_cases hl : r.next.event.isLast = true
    · rw [Reader.readUntil, Reader.readUntil]
      split
      · rfl
      split
      · rfl
      split
      · rfl
      · rename_i herror _ heof
        exact absurd (Event.last_cases hl) (not_or.2 ⟨heof, herror⟩)
    · rw [Bool.not_eq_true] at hl
      have hlt := length_next (h.failure hl) hl
      have hrest : r.next.readUntil target fuel = r.next.readUntil target fuel' :=
        ih h.next (by omega) (by omega)
      rw [readUntil_next hl, readUntil_next hl, hrest]

theorem skip_span {span : Span} (h : r.skip.1 = .ok span) :
    span = ⟨r.valueStart, r.skip.2.position⟩ := by
  rcases r.skip_cases with ⟨e, -, hskip⟩ | ⟨-, hskip⟩
  · rw [hskip] at h
    cases h
  · rw [hskip] at h ⊢
    exact (Except.ok.inj h).symm

/-! ### Faults -/

theorem skip_of_failure {e : ReadError} (hs : r.Sound) (hf : r.failure = some e) :
    r.skip = (.error e, r) := by
  have hbeyond := beyond_of_failure hs (hf ▸ Option.some_ne_none e)
  rw [skip_of_some (hbeyond.symm ▸ hf), hbeyond]

theorem calls_of_failure {e : ReadError} (hs : r.Sound) (hf : r.failure = some e)
    (cs : List Call) : r.calls cs = r := by
  induction cs with
  | nil => rfl
  | cons c cs ih =>
    have hcall : r.call c = r := by
      cases c with
      | next => exact next_of_failure (hf ▸ Option.some_ne_none e)
      | skip => exact congrArg Prod.snd (skip_of_failure hs hf)
    rw [calls, List.foldl_cons, hcall]
    exact ih

/-- However a reader was driven: each further token but the last takes a byte; the reader is within
its text and depth, and so is all it passes over or scans; reading on comes to an end, also where
values are passed over meanwhile, and so does passing over a value; and after a fault every call
answers with it and changes nothing. -/
theorem calls_progress (depth : Nat) (input : Bytes) (cs : List Call) :
    let r := (ofBytes depth input).calls cs
    (r.next.event.isLast = false → r.position < r.next.position) ∧
      r.Bounded input depth ∧
      (∀ span, r.skip.1 = .ok span → span.Within input) ∧
      (∀ c, r.cursor.Onto c → Span.Within ⟨c.position, (scanNumber c).2.position⟩ input ∧
        Span.Within ⟨c.position, (scanString c).2.position⟩ input) ∧
      (∃ n ≤ input.length - r.position + 1, r.Ends n) ∧
      (∀ cs', input.length - r.position < (r.answers cs').length →
        ∃ e ∈ r.answers cs', e.isLast = true) ∧
      (∀ target fuel, r.cursor.rest.length < fuel →
        r.readUntil target fuel = r.readUntil target (r.cursor.rest.length + 1)) ∧
      ∀ e, r.failure = some e →
        r.next.event = .error ∧ r.skip.1 = .error e ∧ ∀ cs', r.calls cs' = r := by
  intro r
  have hr : r.Healthy input := (healthy_ofBytes depth input).calls cs
  have hbounded : r.Bounded input depth := bounded_calls depth input cs
  refine ⟨hr.lt_position, hbounded, ?skip, ?scan, ?ends, ?answers, ?fuel, ?fault⟩
  case skip =>
    intro span hspan
    have hskip := further_skip r
    rw [skip_span hspan]
    exact ⟨hbounded.span.1.trans hskip.onto.le, hbounded.onto hskip.onto⟩
  case scan =>
    intro c hc
    have hnumber := onto_scanNumber c
    have hstring := onto_scanString c
    exact ⟨⟨hnumber.le, hbounded.onto (hc.trans hnumber)⟩,
      ⟨hstring.le, hbounded.onto (hc.trans hstring)⟩⟩
  case ends =>
    rw [← hbounded.rest_length]
    exact hr.exists_ends
  case answers =>
    intro cs' hlong
    by_contra hnone
    have hle := hr.answers cs' (by simpa using hnone)
    have hend : (r.calls cs').position ≤ input.length :=
      hbounded.onto (further_calls r cs').onto
    omega
  case fuel =>
    intro target fuel hfuel
    exact hr.readUntil_fuel target hfuel (Nat.lt_succ_self _)
  case fault =>
    intro e he
    refine ⟨?_, congrArg Prod.fst (skip_of_failure hr.1 he), calls_of_failure hr.1 he⟩
    have hnone : r.failure ≠ none := he ▸ Option.some_ne_none e
    rw [next_of_failure hnone]
    exact hr.1.resolve_left hnone

end Reader

end Quarry.Json
