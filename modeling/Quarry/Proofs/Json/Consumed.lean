import Quarry.Proofs.Json.Stacked
import Quarry.Proofs.Json.Utf8

/-!
What a reader has consumed is UTF-8: as long as it meets no fault, and however it is driven, the text
up to the last value and the text from there on are whole characters.
-/

namespace Quarry

namespace Text

theorem isUtf8_nil : IsUtf8 [] := ⟨[], rfl⟩

theorem IsUtf8.of_append {bs bs' : Bytes} (h : IsUtf8 (bs ++ bs')) (hbs : IsUtf8 bs) : IsUtf8 bs' := by
  obtain ⟨cs, rfl⟩ := hbs
  obtain ⟨ds, hds⟩ := h
  induction cs generalizing ds with
  | nil => exact ⟨ds, hds⟩
  | cons c cs ih =>
    rw [encoded_cons, List.append_assoc] at hds
    cases ds with
    | nil =>
      obtain ⟨b, bs, hb, -⟩ := utf8EncodeChar_cases c
      rw [hb] at hds
      cases hds
    | cons d ds => exact ih ds (utf8EncodeChar_append_inj hds).2

theorem isUtf8_bytes (s : String) : IsUtf8 (bytes s) := ⟨s.toList, bytes_eq s⟩

end Text

namespace Json

open Text

/-- Up to here a text is made of whole characters. -/
def Boundary (input : Bytes) (n : Nat) : Prop :=
  ∃ read rest, input = read ++ rest ∧ n = read.length ∧ IsUtf8 read

theorem boundary_append {read : Bytes} (h : IsUtf8 read) (rest : Bytes) :
    Boundary (read ++ rest) read.length := ⟨read, rest, rfl, rfl, h⟩

theorem Boundary.isUtf8_span {input : Bytes} {m n : Nat} (hm : Boundary input m)
    (hn : Boundary input n) : IsUtf8 (Span.of ⟨m, n⟩ input) := by
  obtain ⟨a, b, rfl, rfl, ha⟩ := hm
  obtain ⟨c, d, hsplit, rfl, hc⟩ := hn
  rw [Span.of]
  simp only [List.drop_left]
  rcases List.append_eq_append_iff.1 hsplit with ⟨e, rfl, rfl⟩ | ⟨e, rfl, -⟩
  · rw [List.length_append, Nat.add_sub_cancel_left, List.take_left]
    exact hc.of_append ha
  · rw [List.length_append, Nat.sub_eq_zero_of_le (Nat.le_add_right _ _), List.take_zero]
    exact isUtf8_nil

namespace Reader

/-- What can be asked of a reader. -/
inductive Call where
  | next
  | skip

def call (r : Reader) : Call → Reader
  | .next => r.next
  | .skip => r.skip.2

def calls (r : Reader) (cs : List Call) : Reader := cs.foldl call r

/-- What a reader without a fault has read, and what stands before the last value. -/
structure Valid (input : Bytes) (r : Reader) : Prop where
  same : r.input = input
  read : ∃ read, input = read ++ r.cursor.rest ∧ r.position = read.length ∧ IsUtf8 read
  start : Boundary input r.valueStart

variable {input : Bytes} {r r' : Reader}

theorem Valid.position (h : r.Valid input) : Boundary input r.position := by
  obtain ⟨read, rfl, hposition, hutf8⟩ := h.read
  rw [hposition]
  exact boundary_append hutf8 r.cursor.rest

theorem valid_ofBytes (depth : Nat) (input : Bytes) : (ofBytes depth input).Valid input :=
  ⟨rfl, ⟨[], rfl, rfl, isUtf8_nil⟩, boundary_append isUtf8_nil input⟩

/-- Reading on over whole characters. -/
theorem Valid.onward (h : r.Valid input) {chunk rest : Bytes} (hutf8 : IsUtf8 chunk)
    (hchunk : r.cursor.rest = chunk ++ rest) (hinput : r'.input = r.input)
    (hcursor : r'.cursor = ⟨rest, r.position + chunk.length⟩)
    (hstart : r'.valueStart = r.valueStart ∨ r'.valueStart = r.position) : r'.Valid input := by
  refine ⟨hinput.trans h.same, ?_, ?_⟩
  · obtain ⟨read, hread, hposition, hvalid⟩ := h.read
    refine ⟨read ++ chunk, ?_, ?_, hvalid.append hutf8⟩
    · rw [hread, hchunk, hcursor, List.append_assoc]
    · rw [Reader.position, hcursor, hposition, List.length_append]
  · rcases hstart with hstart | hstart
    · rw [hstart]
      exact h.start
    · rw [hstart]
      exact h.position

theorem Valid.congr (h : r.Valid input) (hinput : r'.input = r.input)
    (hcursor : r'.cursor = r.cursor) (hstart : r'.valueStart = r.valueStart) : r'.Valid input := by
  apply h.onward isUtf8_nil rfl hinput _ (.inl hstart)
  rw [hcursor]
  rfl

/-! ### One token -/

theorem valid_readValue (h : r.Valid input) (hf : r.readValue.failure = none) : r.readValue.Valid input := by
  rcases readValue_cases hf with ⟨o, rest, hrest, -, hread⟩ | ⟨t, rest, hrest, hread⟩
  · rw [hread]
    exact h.onward (isUtf8_openByte o) hrest rfl rfl (.inr rfl)
  · rw [hread]
    exact h.onward t.isUtf8 hrest rfl rfl (.inr rfl)

theorem valid_next (h : r.Valid input) (hf : r.next.failure = none) : r.next.Valid input := by
  cases hs : r.stack with
  | nil =>
    rcases next_outside_cases hs hf with ⟨sp, hrest, hnext⟩ | ⟨sp, rest, hrest, -, hnext⟩
    · rw [hnext]
      exact h.onward sp.isUtf8 (by rw [hrest, List.append_nil]) rfl rfl (.inl rfl)
    · rw [hnext] at hf ⊢
      exact valid_readValue (h.onward sp.isUtf8 hrest rfl rfl (.inl rfl)) hf
  | cons f outer =>
    rcases next_inside_cases hs hf with ⟨sp, rest, hrest, hnext⟩ | ⟨l, rest, hrest, hnext⟩
    · rw [hnext]
      have hclose : IsUtf8 (sp.bytes ++ [closeByte f.isObject]) :=
        sp.isUtf8.append (isUtf8_byte (by cases f.isObject <;> decide))
      refine h.onward hclose (by rw [hrest, List.append_cons]) rfl ?_ (.inl rfl)
      rw [List.length_append]
      rfl
    · rw [hnext] at hf ⊢
      exact valid_readValue (h.onward l.isUtf8 hrest rfl rfl (.inl rfl)) hf

/-! ### Any number of calls -/

section

variable {P : Reader → Prop}

theorem Kept.calls (k : Kept P) (h : P r) (cs : List Call) : P (r.calls cs) := by
  induction cs generalizing r with
  | nil => exact h
  | cons c cs ih =>
    apply ih
    cases c with
    | next => exact k.next h
    | skip => exact k.skip h

end

/-- A reader that has met no fault, if what it consumed is UTF-8; and one that shows its fault. -/
def Healthy (input : Bytes) (r : Reader) : Prop := r.Sound ∧ (r.failure = none → r.Valid input)

theorem healthy_ofBytes (depth : Nat) (input : Bytes) : (ofBytes depth input).Healthy input :=
  ⟨.inl rfl, fun _ => valid_ofBytes depth input⟩

theorem next_of_failure (h : r.failure ≠ none) : r.next = r := by
  rw [next, andThen]
  split
  · rfl
  · exact absurd ‹_› h

theorem Healthy.next (h : r.Healthy input) : r.next.Healthy input := by
  by_cases hf : r.failure = none
  · exact ⟨sound_next hf, fun hn => valid_next (h.2 hf) hn⟩
  · rw [next_of_failure hf]
    exact h

theorem kept_healthy (input : Bytes) : Kept (Healthy input) where
  next h := h.next
  fail f _ := ⟨sound_fail f _, fun hf => absurd hf (failure_fail _ _)⟩
  skipped _ h := ⟨h.1, fun hf => (h.2 hf).congr rfl rfl rfl⟩

theorem Healthy.skip (h : r.Healthy input) : r.skip.2.Healthy input := (kept_healthy input).skip h

theorem Healthy.calls (h : r.Healthy input) (cs : List Call) : (r.calls cs).Healthy input :=
  (kept_healthy input).calls h cs

/-! ### Spans -/

/-- A reader on its way through a text. -/
structure Clean (input : Bytes) (r : Reader) : Prop where
  failure : r.failure = none
  valid : r.Valid input

theorem clean_ofBytes (depth : Nat) (input : Bytes) : (ofBytes depth input).Clean input :=
  ⟨rfl, valid_ofBytes depth input⟩

theorem Clean.healthy (h : r.Clean input) : r.Healthy input := ⟨.inl h.failure, fun _ => h.valid⟩

theorem Clean.next (h : r.Clean input) (hlast : r.next.event.isLast = false) :
    r.next.Clean input := by
  have hf := h.healthy.next.1.failure_eq_none hlast
  exact ⟨hf, h.healthy.next.2 hf⟩

theorem Valid.isUtf8_span (h : r.Valid input) : IsUtf8 (r.span.of input) :=
  h.start.isUtf8_span h.position

theorem Valid.isUtf8_input (h : r.Valid input) (hrest : r.cursor.rest = []) : IsUtf8 input := by
  obtain ⟨read, rfl, -, hutf8⟩ := h.read
  rw [hrest, List.append_nil]
  exact hutf8

theorem beyond_of_failure (h : r.Sound) (hf : r.failure ≠ none) : r.beyond = r := by
  rw [beyond, h.resolve_left hf]
  rfl

theorem failure_of_beyond (h : r.Sound) (hf : r.beyond.failure = none) : r.failure = none := by
  by_contra hne
  rw [beyond_of_failure h hne] at hf
  exact hne hf

theorem Healthy.isUtf8_skip (h : r.Healthy input) {span : Span} (hspan : r.skip.1 = .ok span) :
    IsUtf8 (span.of input) := by
  have hbeyond := (kept_healthy input).beyond h
  rcases r.skip_cases with ⟨e, -, hskip⟩ | ⟨hf, hskip⟩
  · rw [hskip] at hspan
    cases hspan
  · rw [hskip] at hspan
    cases hspan
    exact (h.2 (failure_of_beyond h.1 hf)).start.isUtf8_span (hbeyond.2 hf).position

theorem Clean.skip (h : r.Clean input) {span : Span} {r' : Reader} (hskip : r.skip = (.ok span, r')) :
    r'.Clean input ∧ IsUtf8 (span.of input) := by
  have hspan := h.healthy.isUtf8_skip (congrArg Prod.fst hskip)
  have hbeyond := (kept_healthy input).beyond h.healthy
  refine ⟨?_, hspan⟩
  rcases r.skip_cases with ⟨e, -, hcase⟩ | ⟨hf, hcase⟩
  · rw [hcase] at hskip
    cases hskip
  · rw [hcase] at hskip
    cases hskip
    exact ⟨hf, (hbeyond.2 hf).congr rfl rfl rfl⟩

theorem isLast_readValue (hf : r.readValue.failure = none) : r.readValue.event.isLast = false := by
  rcases readValue_cases hf with ⟨o, rest, -, -, hread⟩ | ⟨t, rest, -, hread⟩
  · rw [hread]
    exact startEvent_not_last o
  · rw [hread]
    exact t.event_not_last

/-- Only at the end of the text there is no further token. -/
theorem rest_of_eof (h : r.next.event = .eof) (hf : r.next.failure = none) :
    r.next.cursor.rest = [] := by
  cases hs : r.stack with
  | cons f outer =>
    rcases next_inside_cases hs hf with ⟨sp, rest, -, hnext⟩ | ⟨l, rest, -, hnext⟩
    · have hlast := endEvent_not_last f.isObject
      rw [hnext] at h
      rw [show endEvent f.isObject = .eof from h] at hlast
      cases hlast
    · rw [hnext] at h hf
      have hlast := isLast_readValue hf
      rw [h] at hlast
      cases hlast
  | nil =>
    rcases next_outside_cases hs hf with ⟨sp, -, hnext⟩ | ⟨sp, rest, -, -, hnext⟩
    · rw [hnext]
      rfl
    · rw [hnext] at h hf
      have hlast := isLast_readValue hf
      rw [h] at hlast
      cases hlast

/-- Whatever is asked of a reader, all it reports are whole characters, and a text that is read to
its end is UTF-8. -/
theorem calls_utf8 (depth : Nat) (input : Bytes) (cs : List Call) :
    let r := (ofBytes depth input).calls cs
    (r.failure = none → IsUtf8 (r.span.of input)) ∧
      (∀ span, r.skip.1 = .ok span → IsUtf8 (span.of input)) ∧
      (r.next.event = .eof → r.next.failure = none → IsUtf8 input) := by
  intro r
  have hr : r.Healthy input := (healthy_ofBytes depth input).calls cs
  refine ⟨fun hf => (hr.2 hf).isUtf8_span, fun span hspan => hr.isUtf8_skip hspan, ?_⟩
  intro heof hf
  exact (hr.next.2 hf).isUtf8_input (rest_of_eof heof hf)

end Reader

end Json

end Quarry
