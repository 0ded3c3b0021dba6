import Quarry.Document.Basic
import Quarry.Proofs.Json.Numbers
import Quarry.Proofs.Json.Strings

/-!
The values that are no containers, as they are written and as a reader meets them.
-/

namespace Quarry.Json

open Text

/-- Which event a written value without parts gives. -/
inductive Spells : Bytes → Event → Prop
  | string (q : Quoted) : Spells q.text (.string q.value)
  | number {t : Bytes} {b : Bool} (h : Figure t b) :
      Spells t (.number (String.ofList (t.map charOfByte)) b)
  | true : Spells (bytes "true") (.bool true)
  | false : Spells (bytes "false") (.bool false)
  | null : Spells (bytes "null") .null

structure Token where
  text : Bytes
  event : Event
  spells : Spells text event

namespace Token

def atom (t : Token) : Atom := (Building.atom? t.event).getD .null

theorem atom?_event (t : Token) : Building.atom? t.event = some t.atom := by
  obtain ⟨text, event, h⟩ := t
  cases h <;> rfl

theorem event_not_start (t : Token) : t.event.isStart = false := by
  obtain ⟨text, event, h⟩ := t
  cases h <;> rfl

theorem event_not_end (t : Token) : t.event.isEnd = false := by
  obtain ⟨text, event, h⟩ := t
  cases h <;> rfl

theorem event_not_last (t : Token) : t.event.isLast = false := by
  obtain ⟨text, event, h⟩ := t
  cases h <;> rfl

end Token

/-- Bytes that neither stand between values nor close a container. -/
def startsValue (b : UInt8) : Bool :=
  !Cursor.isSpace b && b != byte ',' && b != byte ':' && b != byte ']' && b != byte '\x7d'

theorem startsValue_of_isDigitByte {b : UInt8} (h : isDigitByte b = true) :
    startsValue b = true := by
  simp only [isDigitByte, Bool.and_eq_true, decide_eq_true_eq] at h
  simp only [startsValue, Cursor.isSpace, Bool.and_eq_true, Bool.not_eq_true',
    Bool.or_eq_false_iff, beq_eq_false_iff_ne, bne_iff_ne]
  refine ⟨⟨⟨⟨⟨⟨⟨?_, ?_⟩, ?_⟩, ?_⟩, ?_⟩, ?_⟩, ?_⟩, ?_⟩
  all_goals
    rintro rfl
    revert h
    decide

theorem Token.head (t : Token) : ∃ b bs, t.text = b :: bs ∧ startsValue b = true := by
  obtain ⟨text, event, h⟩ := t
  cases h with
  | string q => exact ⟨_, _, rfl, by decide⟩
  | number h =>
    obtain ⟨d, ds, rfl, hd⟩ := h.head
    refine ⟨d, ds, rfl, ?_⟩
    rcases hd with rfl | hd
    · decide
    · exact startsValue_of_isDigitByte hd
  | true => exact ⟨_, _, rfl, by decide⟩
  | false => exact ⟨_, _, rfl, by decide⟩
  | null => exact ⟨_, _, rfl, by decide⟩

namespace Reader

theorem literal_of_prefix {word : String} {e : Event} {r : Reader} {rest : Bytes}
    (h : r.cursor.rest = bytes word ++ rest) :
    r.literal word e =
      { r with cursor := ⟨rest, r.position + (bytes word).length⟩ }.finish e := by
  have hp : (bytes word).isPrefixOf r.cursor.rest = true := by
    rw [List.isPrefixOf_iff_prefix, h]
    exact List.prefix_append _ _
  have hd : r.cursor.drop (bytes word).length = ⟨rest, r.position + (bytes word).length⟩ := by
    simp [Cursor.drop, h, position]
  rw [literal, if_pos hp, hd]

/-- The reader that has passed over `n` bytes, which held a value. -/
def passed (r : Reader) (rest : Bytes) (n : Nat) (e : Event) : Reader :=
  { r with valueStart := r.position, cursor := ⟨rest, r.position + n⟩ }.finish e

theorem readValue_token {r : Reader} {rest : Bytes} (t : Token)
    (h : r.cursor.rest = t.text ++ rest) (hr : Stops rest) :
    r.readValue = r.passed rest t.text.length t.event := by
  obtain ⟨text, event, hs⟩ := t
  have hc : r.cursor = ⟨r.cursor.rest, r.position⟩ := rfl
  simp only at h ⊢
  cases hs with
  | string q =>
    have hq := scanString_quoted q rest r.position
    rw [← h, ← hc] at hq
    have hrest : r.cursor.rest = byte '"' :: (q.inner ++ [byte '"'] ++ rest) := by
      rw [h]
      simp [Quoted.text]
    have h1 : byte '"' ≠ byte '\x7b' := by decide
    have h2 : byte '"' ≠ byte '[' := by decide
    simp only [readValue, hrest, h1, h2, ↓reduceIte, hq, scanned, Except.map, passed, position]
  | @number _ b hf =>
    have hn := scanNumber_figure hf hr r.position
    rw [← h, ← hc] at hn
    obtain ⟨d, ds, rfl, hd⟩ := hf.head
    have hrest : r.cursor.rest = d :: (ds ++ rest) := by rw [h, List.cons_append]
    have hd' : (decide (d = byte '-') || isDigitByte d) = true := by
      rcases hd with rfl | hd
      · decide
      · simp [hd]
    have hne : d ≠ byte '\x7b' ∧ d ≠ byte '[' ∧ d ≠ byte '"' := by
      refine ⟨?_, ?_, ?_⟩ <;>
        · rintro rfl
          revert hd'
          decide
    simp only [readValue, hrest, hne.1, hne.2.1, hne.2.2, hd', ↓reduceIte, hn, scanned, Except.map,
      passed, position]
  | true =>
    have hrest : r.cursor.rest = byte 't' :: (bytes "rue" ++ rest) := h
    have hl := literal_of_prefix (r := { r with valueStart := r.position }) (e := .bool true) h
    simp only [readValue, hrest]
    exact hl
  | false =>
    have hrest : r.cursor.rest = byte 'f' :: (bytes "alse" ++ rest) := h
    have hl := literal_of_prefix (r := { r with valueStart := r.position }) (e := .bool false) h
    simp only [readValue, hrest]
    exact hl
  | null =>
    have hrest : r.cursor.rest = byte 'n' :: (bytes "ull" ++ rest) := h
    have hl := literal_of_prefix (r := { r with valueStart := r.position }) (e := .null) h
    simp only [readValue, hrest]
    exact hl

def openByte (isObject : Bool) : UInt8 := if isObject then byte '\x7b' else byte '['

def closeByte (isObject : Bool) : UInt8 := if isObject then byte '\x7d' else byte ']'

def startEvent (isObject : Bool) : Event := if isObject then .objectStart else .arrayStart

/-- The reader that has entered a container. -/
def entered (r : Reader) (rest : Bytes) (isObject : Bool) : Reader :=
  { r with
    valueStart := r.position
    cursor := ⟨rest, r.position + 1⟩
    stack := ⟨isObject, false⟩ :: r.stack
    event := startEvent isObject }

theorem readValue_deep {r : Reader} {rest : Bytes} {isObject : Bool}
    (h : r.cursor.rest = openByte isObject :: rest) (hd : r.maxDepth ≤ r.stack.length) :
    r.readValue.event = .error ∧ r.readValue.failure ≠ none := by
  cases isObject with
  | true =>
    have h' : r.cursor.rest = byte '\x7b' :: rest := h
    simp [readValue, h', openContainer, hd, fail]
  | false =>
    have h' : r.cursor.rest = byte '[' :: rest := h
    have hne : byte '[' ≠ byte '\x7b' := by decide
    simp [readValue, h', hne, openContainer, hd, fail]

theorem readValue_open {r : Reader} {rest : Bytes} {isObject : Bool}
    (h : r.cursor.rest = openByte isObject :: rest) (hd : r.stack.length < r.maxDepth) :
    r.readValue = r.entered rest isObject := by
  have hnext : r.cursor.next = ⟨rest, r.position + 1⟩ := next_of_rest h
  have hd' : ¬r.maxDepth ≤ r.stack.length := by omega
  cases isObject with
  | true =>
    have h' : r.cursor.rest = byte '\x7b' :: rest := h
    simp only [readValue, h', ↓reduceIte, openContainer, hd', hnext, emit, entered, startEvent]
  | false =>
    have h' : r.cursor.rest = byte '[' :: rest := h
    have hne : byte '[' ≠ byte '\x7b' := by decide
    simp only [readValue, h', hne, ↓reduceIte, openContainer, hd', hnext, emit, entered,
      startEvent, Bool.false_eq_true]

@[simp] theorem failure_fail (f : Fault) (r : Reader) : (r.fail f).failure ≠ none := by
  simp [fail]

theorem literal_cases {word : String} {e : Event} {r : Reader}
    (h : (r.literal word e).failure = none) :
    ∃ rest, r.cursor.rest = bytes word ++ rest ∧
      r.literal word e =
        { r with cursor := ⟨rest, r.position + (bytes word).length⟩ }.finish e := by
  rw [literal] at h
  split at h
  · rename_i hp
    obtain ⟨rest, hrest⟩ := List.isPrefixOf_iff_prefix.1 hp
    exact ⟨rest, hrest.symm, literal_of_prefix hrest.symm⟩
  · exact absurd h (failure_fail _ _)

theorem scanned_cases {α : Type} {r : Reader} {s : Scan α} {f : α → Event}
    (h : (r.scanned (s.1.map f, s.2)).failure = none) :
    ∃ a stop, s = (.ok a, stop) ∧
      r.scanned (s.1.map f, s.2) = { r with cursor := stop }.finish (f a) := by
  obtain ⟨a, stop⟩ := s
  cases a with
  | ok a => exact ⟨a, stop, rfl, rfl⟩
  | error e => exact absurd h (failure_fail _ _)

theorem fits_of_openContainer {r : Reader} {o : Bool} (h : (r.openContainer o).failure = none) :
    r.stack.length < r.maxDepth := by
  rw [openContainer] at h
  split at h
  · exact absurd h (failure_fail _ _)
  · rename_i hd
    simpa using hd

/-- A reader that fails at no value has entered a container or passed over a token. -/
theorem readValue_cases {r : Reader} (h : r.readValue.failure = none) :
    (∃ isObject rest, r.cursor.rest = openByte isObject :: rest ∧ r.stack.length < r.maxDepth ∧
      r.readValue = r.entered rest isObject) ∨
    ∃ (t : Token) (rest : Bytes), r.cursor.rest = t.text ++ rest ∧
      r.readValue = r.passed rest t.text.length t.event := by
  have lit {word : String} {e : Event} (hs : Spells (bytes word) e)
      (hr : r.readValue = literal word e { r with valueStart := r.position }) :
      ∃ (t : Token) (rest : Bytes), r.cursor.rest = t.text ++ rest ∧
        r.readValue = r.passed rest t.text.length t.event := by
    rw [hr] at h
    obtain ⟨rest, hrest, heq⟩ := literal_cases h
    exact ⟨⟨_, _, hs⟩, rest, hrest, hr.trans heq⟩
  cases hrest : r.cursor.rest with
  | nil =>
    simp only [readValue, hrest] at h
    exact absurd h (failure_fail _ _)
  | cons b bs =>
    by_cases hobj : b = byte '\x7b'
    · subst hobj
      refine .inl ⟨true, bs, rfl, ?_⟩
      have hopen : (openContainer true { r with valueStart := r.position }).failure = none := by
        simpa only [readValue, hrest, ↓reduceIte] using h
      have hd := fits_of_openContainer hopen
      exact ⟨hd, readValue_open hrest hd⟩
    by_cases harr : b = byte '['
    · subst harr
      refine .inl ⟨false, bs, rfl, ?_⟩
      have hopen : (openContainer false { r with valueStart := r.position }).failure = none := by
        simpa only [readValue, hrest, hobj, ↓reduceIte] using h
      have hd := fits_of_openContainer hopen
      exact ⟨hd, readValue_open hrest hd⟩
    right
    rw [← hrest]
    by_cases hstr : b = byte '"'
    · have heq : r.readValue = scanned { r with valueStart := r.position }
          ((scanString r.cursor).1.map Event.string, (scanString r.cursor).2) := by
        simp only [readValue, hrest]
        rw [if_neg hobj, if_neg harr, if_pos hstr]
      rw [heq] at h
      obtain ⟨s, stop, hscan, hr⟩ := scanned_cases h
      have hstart : r.cursor.startsWith (byte '"') = true := by
        simp [Cursor.startsWith, hrest, hstr]
      obtain ⟨q, rfl, hq, hpos⟩ := quoted_of_scanString hstart hscan
      refine ⟨⟨_, _, .string q⟩, stop.rest, hq, heq.trans (hr.trans ?_)⟩
      simp only [passed, position, ← hpos]
    by_cases hnum : (decide (b = byte '-') || isDigitByte b) = true
    · have heq : r.readValue = scanned { r with valueStart := r.position }
          ((scanNumber r.cursor).1.map fun n => Event.number n.1 n.2, (scanNumber r.cursor).2) := by
        simp only [readValue, hrest, hobj, harr, hstr, hnum, ↓reduceIte]
      rw [heq] at h
      obtain ⟨⟨text, isInteger⟩, stop, hscan, hr⟩ := scanned_cases h
      obtain ⟨t, hf, ht, hpos, rfl⟩ := figure_of_scanNumber hscan
      refine ⟨⟨_, _, .number hf⟩, stop.rest, ht, heq.trans (hr.trans ?_)⟩
      simp only [passed, position, ← hpos]
    by_cases ht : b = byte 't'
    · apply lit .true
      simp only [readValue, hrest]
      rw [if_neg hobj, if_neg harr, if_neg hstr, if_neg hnum, if_pos ht]
    by_cases hf : b = byte 'f'
    · apply lit .false
      simp only [readValue, hrest]
      rw [if_neg hobj, if_neg harr, if_neg hstr, if_neg hnum, if_neg ht, if_pos hf]
    by_cases hn : b = byte 'n'
    · apply lit .null
      simp only [readValue, hrest]
      rw [if_neg hobj, if_neg harr, if_neg hstr, if_neg hnum, if_neg ht, if_neg hf, if_pos hn]
    simp only [readValue, hrest, hobj, harr, hstr, hnum, ht, hf, hn, ↓reduceIte] at h
    exact absurd h (failure_fail _ _)

end Reader

end Quarry.Json
