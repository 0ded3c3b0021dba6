import Mathlib.Data.Nat.Basic
import Mathlib.Order.Basic
import Quarry.Json.Reader
import Quarry.Proofs.Json.Strings

/-!
Reading goes in one direction. Whatever a scanner or a reader does, also where it fails, it moves on
in the same text, and no more containers are opened than the depth allows.
-/

namespace Quarry.Json

open Text

/-! ### Cursors -/

namespace Cursor

/-- Some bytes further on in the same text. -/
def Onto (c c' : Cursor) : Prop :=
  ∃ chunk, c.rest = chunk ++ c'.rest ∧ c'.position = c.position + chunk.length

variable {c c' c'' : Cursor}

theorem Onto.refl (c : Cursor) : c.Onto c := ⟨[], rfl, rfl⟩

theorem Onto.trans (h : c.Onto c') (h' : c'.Onto c'') : c.Onto c'' := by
  obtain ⟨chunk, hrest, hposition⟩ := h
  obtain ⟨chunk', hrest', hposition'⟩ := h'
  refine ⟨chunk ++ chunk', ?_, ?_⟩
  · rw [hrest, hrest', List.append_assoc]
  · rw [hposition', hposition, List.length_append, Nat.add_assoc]

theorem Onto.le (h : c.Onto c') : c.position ≤ c'.position := by
  obtain ⟨chunk, -, hposition⟩ := h
  omega

theorem Onto.length_le (h : c.Onto c') : c'.rest.length ≤ c.rest.length := by
  obtain ⟨chunk, hrest, -⟩ := h
  rw [hrest, List.length_append]
  exact Nat.le_add_left _ _

theorem onto_drop (n : Nat) (c : Cursor) : c.Onto (c.drop n) := by
  refine ⟨c.rest.take n, (List.take_append_drop n c.rest).symm, ?_⟩
  rw [drop, List.length_take]

theorem onto_next (c : Cursor) : c.Onto c.next := onto_drop 1 c

theorem onto_dropWhile (p : UInt8 → Bool) (c : Cursor) : c.Onto (c.dropWhile p) :=
  ⟨c.rest.takeWhile p, List.takeWhile_append_dropWhile.symm, rfl⟩

theorem onto_skipSpace (c : Cursor) : c.Onto c.skipSpace := onto_dropWhile isSpace c

theorem onto_append (chunk bs : Bytes) (p : Nat) : Onto ⟨chunk ++ bs, p⟩ ⟨bs, p + chunk.length⟩ :=
  ⟨chunk, rfl, rfl⟩

end Cursor

open Cursor

/-! ### Scanners, which may fail -/

theorem onto_scanDigits (f : Fault) (c : Cursor) : c.Onto (scanDigits f c).2 := by
  rw [scanDigits]
  split
  · exact onto_dropWhile isDigitByte c
  · exact .refl c

theorem onto_scanWhole (c : Cursor) : c.Onto (scanWhole c).2 := by
  rw [scanWhole]
  split
  · exact onto_next c
  · exact onto_scanDigits _ c

theorem onto_sign (p : Bool) (c : Cursor) : c.Onto (if p then c.next else c) := by
  split
  · exact onto_next c
  · exact .refl c

theorem onto_scanFraction (c : Cursor) : c.Onto (scanFraction c).2 := by
  rw [scanFraction]
  split
  · have h := (onto_next c).trans (onto_scanDigits .missingFraction c.next)
    split
    · rename_i heq
      rwa [heq] at h
    · rename_i heq
      rwa [heq] at h
  · exact .refl c

theorem onto_scanExponent (c : Cursor) : c.Onto (scanExponent c).2 := by
  rw [scanExponent]
  split
  · have hsign := onto_sign (c.next.startsWith (byte '+') || c.next.startsWith (byte '-')) c.next
    have h := ((onto_next c).trans hsign).trans (onto_scanDigits .missingExponent _)
    dsimp only
    split
    · rename_i heq
      rwa [heq] at h
    · rename_i heq
      rwa [heq] at h
  · exact .refl c

theorem onto_scanNumber (c : Cursor) : c.Onto (scanNumber c).2 := by
  have hwhole := (onto_sign (c.startsWith (byte '-')) c).trans (onto_scanWhole _)
  rw [scanNumber]
  split
  · rename_i heq
    rwa [heq] at hwhole
  rename_i heq
  rw [heq] at hwhole
  have hfraction := hwhole.trans (onto_scanFraction _)
  split
  · rename_i heq
    rwa [heq] at hfraction
  rename_i heq
  rw [heq] at hfraction
  have hexponent := hfraction.trans (onto_scanExponent _)
  split
  · rename_i heq
    rwa [heq] at hexponent
  · rename_i heq
    rwa [heq] at hexponent

theorem onto_scanChars (bs : Bytes) (p : Nat) (read : Bytes) :
    Onto ⟨bs, p⟩ (scanChars bs p read).2 := by
  fun_induction scanChars bs p read with
  | case1 => exact .refl _
  | case2 | case3 | case16 => exact onto_append [_] _ _
  | case4 | case13 | case15 => exact onto_append [_, _] _ _
  | case9 | case10 | case11 => exact onto_append [_, _, _, _, _, _] _ _
  | case5 | case8 => exact onto_append [_, _, _, _, _, _, _, _] _ _
  | case7 => exact onto_append [_, _, _, _, _, _, _, _, _, _, _, _] _ _
  | case17 => exact (onto_append [_] _ _).trans ‹_›
  | case14 => exact (onto_append [_, _] _ _).trans ‹_›
  | case12 => exact (onto_append [_, _, _, _, _, _] _ _).trans ‹_›
  | case6 => exact (onto_append [_, _, _, _, _, _, _, _, _, _, _, _] _ _).trans ‹_›

theorem onto_scanString (c : Cursor) : c.Onto (scanString c).2 := by
  have h := (onto_next c).trans (onto_scanChars c.next.rest c.next.position [])
  rw [scanString]
  split
  · rename_i heq
    rwa [heq] at h
  · rename_i heq
    rw [heq] at h
    split <;> exact h

/-! ### Readers -/

namespace Reader

/-- Further on in the same text, with the last value and the open containers within bounds. -/
structure Further (r r' : Reader) : Prop where
  input : r'.input = r.input
  maxDepth : r'.maxDepth = r.maxDepth
  onto : r.cursor.Onto r'.cursor
  start : r.valueStart ≤ r.position → r'.valueStart ≤ r'.position
  stack : r.stack.length ≤ r.maxDepth → r'.stack.length ≤ r'.maxDepth

variable {r r' r'' : Reader}

theorem Further.refl (r : Reader) : r.Further r := ⟨rfl, rfl, .refl _, id, id⟩

theorem Further.trans (h : r.Further r') (h' : r'.Further r'') : r.Further r'' :=
  ⟨h'.input.trans h.input, h'.maxDepth.trans h.maxDepth, h.onto.trans h'.onto,
    h'.start ∘ h.start, h'.stack ∘ h.stack⟩

/-- A reader whose cursor goes on in its text. -/
theorem further_cursor {c : Cursor} (h : r.cursor.Onto c) (hc : r'.cursor = c)
    (hinput : r'.input = r.input) (hdepth : r'.maxDepth = r.maxDepth)
    (hstart : r'.valueStart = r.valueStart) (hstack : r'.stack.length = r.stack.length) :
    r.Further r' := by
  subst hc
  refine ⟨hinput, hdepth, h, ?_, ?_⟩
  · intro hle
    rw [hstart]
    exact hle.trans h.le
  · intro hle
    rwa [hstack, hdepth]

theorem further_fail (f : Fault) (r : Reader) : r.Further (r.fail f) :=
  further_cursor (.refl _) rfl rfl rfl rfl rfl

theorem further_scanned {s : Scan Event} (h : r.cursor.Onto s.2) : r.Further (r.scanned s) := by
  obtain ⟨a, stop⟩ := s
  cases a with
  | ok e => exact further_cursor h rfl rfl rfl rfl rfl
  | error f => exact further_cursor h rfl rfl rfl rfl rfl

theorem further_literal (word : String) (e : Event) (r : Reader) : r.Further (r.literal word e) := by
  rw [literal]
  split
  · exact further_cursor (onto_drop _ r.cursor) rfl rfl rfl rfl rfl
  · exact further_fail _ r

theorem further_openContainer (o : Bool) (r : Reader) : r.Further (r.openContainer o) := by
  rw [openContainer]
  split
  · exact further_fail _ r
  · rename_i hdepth
    refine ⟨rfl, rfl, onto_next r.cursor, fun hle => hle.trans (onto_next r.cursor).le, ?_⟩
    intro _
    exact Nat.not_le.1 hdepth

theorem further_readValue (r : Reader) : r.Further r.readValue := by
  have hstart : r.Further { r with valueStart := r.position } :=
    ⟨rfl, rfl, .refl _, fun _ => le_rfl, id⟩
  apply hstart.trans
  rw [readValue]
  dsimp only
  split
  · exact further_fail _ _
  split
  · exact further_openContainer _ _
  split
  · exact further_openContainer _ _
  split
  · exact further_scanned (onto_scanString r.cursor)
  split
  · exact further_scanned (onto_scanNumber r.cursor)
  split
  · exact further_literal _ _ _
  split
  · exact further_literal _ _ _
  split
  · exact further_literal _ _ _
  · exact further_fail _ _

theorem further_readName (r : Reader) : r.Further r.readName := by
  rw [readName]
  split
  · have hname := onto_scanString r.cursor
    split
    · rename_i heq
      rw [heq] at hname
      exact further_cursor hname rfl rfl rfl rfl rfl
    · rename_i stop heq
      rw [heq] at hname
      have hspace := hname.trans (onto_skipSpace stop)
      dsimp only
      split
      · have hcolon := (onto_next stop.skipSpace).trans (onto_skipSpace stop.skipSpace.next)
        exact further_cursor (hspace.trans hcolon) rfl rfl rfl rfl rfl
      · exact further_cursor hspace rfl rfl rfl rfl rfl
  · exact further_fail _ r

theorem further_readComma (f : Frame) (r : Reader) : r.Further (r.readComma f) := by
  rw [readComma]
  split
  · split
    · have hcomma := (onto_next r.cursor).trans (onto_skipSpace r.cursor.next)
      exact further_cursor hcomma rfl rfl rfl rfl rfl
    · exact further_fail _ r
  · exact .refl r

theorem Further.andThen {k : Reader → Reader} (h : r.Further r') (hk : r.Further (k r')) :
    r.Further (r'.andThen k) := by
  rw [Reader.andThen]
  split
  · exact h
  · exact hk

theorem further_readInside {f : Frame} {outer : List Frame} (hs : r.stack = f :: outer) :
    r.Further (r.readInside f outer) := by
  rw [readInside]
  split
  · exact further_fail _ r
  split
  · refine ⟨rfl, rfl, onto_next r.cursor, fun hle => hle.trans (onto_next r.cursor).le, ?_⟩
    intro hle
    rw [hs] at hle
    exact (Nat.le_succ _).trans hle
  · have hcomma := further_readComma f r
    apply hcomma.andThen
    have hframe : r.Further { r.readComma f with stack := ⟨f.isObject, true⟩ :: outer } := by
      refine ⟨hcomma.input, hcomma.maxDepth, hcomma.onto, hcomma.start, ?_⟩
      intro hle
      rw [hs] at hle
      exact hle.trans hcomma.maxDepth.ge
    dsimp only
    split
    · have hname := hframe.trans (further_readName _)
      exact hname.andThen (hname.trans (further_readValue _))
    · exact hframe.trans (further_readValue _)

theorem further_readOutside (r : Reader) : r.Further r.readOutside := by
  rw [readOutside]
  split
  · exact further_cursor (.refl _) rfl rfl rfl rfl rfl
  split
  · exact further_fail _ r
  · exact further_readValue r

theorem further_next (r : Reader) : r.Further r.next := by
  apply (Further.refl r).andThen
  have hspace : r.Further { r with
      key := none
      eventsRead := r.eventsRead + 1
      cursor := r.cursor.skipSpace } :=
    further_cursor (onto_skipSpace r.cursor) rfl rfl rfl rfl rfl
  apply hspace.trans
  dsimp only
  split
  · exact further_readOutside _
  · exact further_readInside ‹_›

/-! ### Passing over values -/

/-- Behind the value that the reader stands on, or at the fault before. -/
def beyond (r : Reader) : Reader :=
  if r.event.isStart then r.readUntil r.stack.length (r.cursor.rest.length + 1) else r

theorem skip_of_some {e : ReadError} (h : r.beyond.failure = some e) :
    r.skip = (.error e, r.beyond) := by
  rw [beyond] at h ⊢
  simp only [skip, h]

theorem skip_of_none (h : r.beyond.failure = none) :
    r.skip = (.ok ⟨r.valueStart, r.beyond.position⟩,
      { r.beyond with skipped := r.beyond.skipped + 1 }) := by
  rw [beyond] at h ⊢
  simp only [skip, h]

theorem skip_cases (r : Reader) :
    (∃ e, r.beyond.failure = some e ∧ r.skip = (.error e, r.beyond)) ∨
      r.beyond.failure = none ∧ r.skip = (.ok ⟨r.valueStart, r.beyond.position⟩,
        { r.beyond with skipped := r.beyond.skipped + 1 }) := by
  rcases Option.eq_none_or_eq_some r.beyond.failure with hf | ⟨e, hf⟩
  · exact .inr ⟨hf, skip_of_none hf⟩
  · exact .inl ⟨e, hf, skip_of_some hf⟩

/-- What reading a token, failing and counting keep is kept when a value is passed over. -/
structure Kept (P : Reader → Prop) : Prop where
  next {r : Reader} (h : P r) : P r.next
  fail {r : Reader} (f : Fault) (h : P r) : P (r.fail f)
  skipped {r : Reader} (n : Nat) (h : P r) : P { r with skipped := n }

section Kept

variable {P : Reader → Prop}

theorem Kept.readUntil (k : Kept P) (h : P r) (target fuel : Nat) : P (r.readUntil target fuel) := by
  induction fuel generalizing r with
  | zero => exact k.fail _ h
  | succ fuel ih =>
    rw [Reader.readUntil]
    split
    · exact k.next h
    split
    · exact k.next h
    split
    · exact k.fail _ (k.next h)
    · exact ih (k.next h)

theorem Kept.beyond (k : Kept P) (h : P r) : P r.beyond := by
  rw [Reader.beyond]
  split
  · exact k.readUntil h _ _
  · exact h

theorem Kept.skip (k : Kept P) (h : P r) : P r.skip.2 := by
  rcases r.skip_cases with ⟨e, -, hskip⟩ | ⟨-, hskip⟩
  · rw [hskip]
    exact k.beyond h
  · rw [hskip]
    exact k.skipped _ (k.beyond h)

end Kept

theorem kept_further (r : Reader) : Kept r.Further where
  next h := h.trans (further_next _)
  fail f h := h.trans (further_fail f _)
  skipped _ h := h.trans (further_cursor (.refl _) rfl rfl rfl rfl rfl)

theorem further_beyond (r : Reader) : r.Further r.beyond := (kept_further r).beyond (.refl r)

theorem further_skip (r : Reader) : r.Further r.skip.2 := (kept_further r).skip (.refl r)

end Reader

end Quarry.Json
