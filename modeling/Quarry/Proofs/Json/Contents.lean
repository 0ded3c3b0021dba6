import Quarry.Proofs.Json.Derivations
import Quarry.Proofs.Json.Scalars

/-!
The contents of a string cut into what stands for one character each: they are the letters of the
grammar, and they are what the parser of values takes up to the closing quote.
-/

namespace Quarry.Json

open Text

namespace Parser

/-! ### Hexadecimal digits -/

theorem hexValue?_digits : ∀ v < 16, hexValue? (Nat.digitChar v) = some v ∧
    hexValue? (Nat.digitChar v).toUpper = some v := by
  decide

theorem digitChar_ascii : ∀ v < 16, (Nat.digitChar v).toNat < 128 ∧
    (Nat.digitChar v).toUpper.toNat < 128 := by
  decide

theorem hexValue?_low : ∀ n < 128, (hexValue? (Char.ofNat n)).all
    (fun v => decide (v < 16 ∧ (Char.ofNat n = Nat.digitChar v ∨
      Char.ofNat n = (Nat.digitChar v).toUpper))) := by
  decide

theorem hexValue?_ascii {c : Char} (h : (hexValue? c).isSome) : c.toNat < 128 := by
  have hle : ∀ {d : Char}, c ≤ d → c.toNat ≤ d.toNat := id
  rw [hexValue?] at h
  split at h
  · exact ascii_of_isDigit ‹_›
  split at h
  · rename_i hc
    rw [Bool.and_eq_true, decide_eq_true_eq, decide_eq_true_eq] at hc
    exact lt_of_le_of_lt (hle hc.2) (by decide)
  split at h
  · rename_i hc
    rw [Bool.and_eq_true, decide_eq_true_eq, decide_eq_true_eq] at hc
    exact lt_of_le_of_lt (hle hc.2) (by decide)
  · cases h

theorem hex_of_hexValue? {c : Char} {v : Nat} (h : hexValue? c = some v) : Hex (byte c) v := by
  have hc := hexValue?_low c.toNat (hexValue?_ascii (h ▸ rfl))
  rw [Char.ofNat_toNat, h, Option.all_some, decide_eq_true_eq] at hc
  obtain ⟨hv, rfl | rfl⟩ := hc
  · exact .lower hv
  · exact .upper hv

theorem exists_hexValue? {b : UInt8} {v : Nat} (h : Hex b v) :
    ∃ c, b = byte c ∧ c.toNat < 128 ∧ hexValue? c = some v := by
  cases h with
  | lower hv => exact ⟨_, rfl, (digitChar_ascii v hv).1, (hexValue?_digits v hv).1⟩
  | upper hv => exact ⟨_, rfl, (digitChar_ascii v hv).2, (hexValue?_digits v hv).2⟩

theorem hex4?_eq_some_iff {a b c d : Char} {n : Nat} : hex4? a b c d = some n ↔
    ∃ w x y z, hexValue? a = some w ∧ hexValue? b = some x ∧ hexValue? c = some y ∧
      hexValue? d = some z ∧ 4096 * w + 256 * x + 16 * y + z = n := by
  simp only [hex4?, Option.bind_eq_bind, Option.bind_eq_some_iff, pure, Option.some.injEq]
  constructor
  · rintro ⟨w, hw, x, hx, y, hy, z, hz, rfl⟩
    exact ⟨w, x, y, z, hw, hx, hy, hz, by ring⟩
  · rintro ⟨w, x, y, z, hw, hx, hy, hz, rfl⟩
    exact ⟨w, hw, x, hx, y, hy, z, hz, by ring⟩

theorem encoded_hex4 {a b c d : Char} {n : Nat} (h : hex4? a b c d = some n) :
    encoded [a, b, c, d] = [byte a, byte b, byte c, byte d] ∧
      Hex4 (encoded [a, b, c, d]) n ∧ n < 0x10000 := by
  obtain ⟨w, x, y, z, hw, hx, hy, hz, rfl⟩ := hex4?_eq_some_iff.1 h
  have hascii : ∀ e ∈ [a, b, c, d], e.toNat < 128 := by
    intro e he
    simp only [List.mem_cons, List.not_mem_nil, or_false] at he
    rcases he with rfl | rfl | rfl | rfl
    · exact hexValue?_ascii (hw ▸ rfl)
    · exact hexValue?_ascii (hx ▸ rfl)
    · exact hexValue?_ascii (hy ▸ rfl)
    · exact hexValue?_ascii (hz ▸ rfl)
  have hbytes := encoded_ascii hascii
  have hmake := Hex4.make (hex_of_hexValue? hw) (hex_of_hexValue? hx) (hex_of_hexValue? hy)
    (hex_of_hexValue? hz)
  have hw' := (hex_of_hexValue? hw).lt
  have hx' := (hex_of_hexValue? hx).lt
  have hy' := (hex_of_hexValue? hy).lt
  have hz' := (hex_of_hexValue? hz).lt
  rw [hbytes]
  exact ⟨rfl, hmake, by omega⟩

theorem exists_hex4? {q : Bytes} {n : Nat} (h : Hex4 q n) :
    ∃ a b c d, q = encoded [a, b, c, d] ∧ hex4? a b c d = some n := by
  obtain ⟨ha, hb, hc, hd⟩ := h
  obtain ⟨a, rfl, ha, hw⟩ := exists_hexValue? ha
  obtain ⟨b, rfl, hb, hx⟩ := exists_hexValue? hb
  obtain ⟨c, rfl, hc, hy⟩ := exists_hexValue? hc
  obtain ⟨d, rfl, hd, hz⟩ := exists_hexValue? hd
  refine ⟨a, b, c, d, ?_, hex4?_eq_some_iff.2 ⟨_, _, _, _, hw, hx, hy, hz, rfl⟩⟩
  rw [encoded_ascii]
  · rfl
  · simp [ha, hb, hc, hd]

/-! ### Pieces -/

/-- A character, and what may stand for it between quotes. -/
inductive Piece : Char → List Char → Prop
  | plain {c : Char} (hq : c ≠ '"') (hs : c ≠ '\\') (hc : 0x20 ≤ c.toNat) : Piece c [c]
  | simple {c e : Char} (he : simpleEscape? e = some c) : Piece c ['\\', e]
  | unicode {c h1 h2 h3 h4 : Char} (h : hex4? h1 h2 h3 h4 = some c.toNat) :
      Piece c ['\\', 'u', h1, h2, h3, h4]
  | pair {c h1 h2 h3 h4 l1 l2 l3 l4 : Char} {high low : Nat} (h : hex4? h1 h2 h3 h4 = some high)
      (h' : hex4? l1 l2 l3 l4 = some low) (hh : 0xD800 ≤ high ∧ high < 0xDC00)
      (hl : 0xDC00 ≤ low ∧ low < 0xE000)
      (hc : c.toNat = 0x10000 + (high - 0xD800) * 0x400 + (low - 0xDC00)) :
      Piece c ['\\', 'u', h1, h2, h3, h4, '\\', 'u', l1, l2, l3, l4]

/-- A text whose beginning holds the given characters up to a quote, and the rest of it. -/
inductive Contents : List Char → List Char → List Char → Prop
  | close (rest : List Char) : Contents ('"' :: rest) [] rest
  | piece {c : Char} {t cs w rest : List Char} (h : Piece c t) (hs : Contents cs w rest) :
      Contents (t ++ cs) (c :: w) rest

theorem simpleEscape?_u : simpleEscape? 'u' = none := by decide

theorem mem_escapes {c e : Char} (h : simpleEscape? e = some c) : (e, c) ∈ escapes := by
  rw [simpleEscape?] at h
  repeat' split at h
  all_goals cases h
  · rename_i he
    rcases he with rfl | rfl | rfl <;> decide
  all_goals rename_i he; subst he; decide

theorem escapes_simple : ∀ p ∈ escapes, simpleEscape? p.1 = some p.2 ∧ p.1.toNat < 128 := by decide

theorem encoded_pair (hs ls : List Char) : encoded ('\\' :: 'u' :: hs ++ '\\' :: 'u' :: ls) =
    unicodeMark ++ encoded hs ++ (unicodeMark ++ encoded ls) :=
  encoded_append ('\\' :: 'u' :: hs) ('\\' :: 'u' :: ls)

theorem Piece.letter {c : Char} {t : List Char} (h : Piece c t) : Letter Hex4 c (encoded t) := by
  cases h with
  | plain hq hs hc =>
    rw [encoded_cons, encoded_nil, List.append_nil]
    exact .plain hq hs hc
  | simple he =>
    have hmem := mem_escapes he
    rw [encoded_cons, encoded_cons, encoded_nil, List.append_nil,
      utf8EncodeChar_ascii (c := '\\') (by decide), utf8EncodeChar_ascii (escapes_simple _ hmem).2]
    exact .simple hmem
  | unicode h =>
    exact .unicode (encoded_hex4 h).2.1
  | @pair h1 h2 h3 h4 l1 l2 l3 l4 high low h h' hh hl hc =>
    have hletter := Letter.pair (encoded_hex4 h).2.1 (encoded_hex4 h').2.1 hh hl hc
    rwa [← encoded_pair] at hletter

theorem exists_piece {c : Char} {bs : Bytes} (h : Letter Hex4 c bs) :
    ∃ t, bs = encoded t ∧ Piece c t := by
  cases h with
  | plain hq hs hc => exact ⟨[c], (List.append_nil _).symm, .plain hq hs hc⟩
  | @simple e c h =>
    obtain ⟨he, hascii⟩ := escapes_simple _ h
    refine ⟨['\\', e], ?_, .simple he⟩
    rw [encoded_cons, encoded_cons, encoded_nil, List.append_nil,
      utf8EncodeChar_ascii (c := '\\') (by decide), utf8EncodeChar_ascii hascii]
    rfl
  | unicode h =>
    obtain ⟨h1, h2, h3, h4, rfl, hn⟩ := exists_hex4? h
    exact ⟨_, rfl, .unicode hn⟩
  | pair h h' hh hl hc =>
    obtain ⟨h1, h2, h3, h4, rfl, hn⟩ := exists_hex4? h
    obtain ⟨l1, l2, l3, l4, rfl, hn'⟩ := exists_hex4? h'
    exact ⟨_, (encoded_pair _ _).symm, .pair hn hn' hh hl hc⟩

/-! ### Reading -/

theorem Piece.ne_nil {c : Char} {t : List Char} (h : Piece c t) : t ≠ [] := by
  cases h <;> exact List.cons_ne_nil _ _

theorem ofList_reverse_cons (c : Char) (read w : List Char) :
    String.ofList ((c :: read).reverse ++ w) = String.ofList (read.reverse ++ c :: w) := by
  rw [List.reverse_cons, List.append_assoc, List.singleton_append]

section

variable {r : Rules} (hr : r.pairs = true)
include hr

theorem stringChars_piece {c : Char} {t : List Char} (h : Piece c t) (cs read : List Char) :
    stringChars r (t ++ cs) read = stringChars r cs (c :: read) := by
  cases h with
  | plain hq hs hc => exact stringChars_plain r hq hs (Nat.not_lt.2 hc) cs read
  | simple he =>
    apply stringChars_simple r _ he
    rintro rfl
    cases simpleEscape?_u.symm.trans he
  | unicode h =>
    have hpaired : (!r.pairs || decide (c.toNat < 0xD800) || decide (0xE000 ≤ c.toNat)) =
        true := by
      have hvalid : c.toNat < 0xD800 ∨ 0xDFFF < c.toNat ∧ c.toNat < 0x110000 := c.valid
      simp only [Bool.or_eq_true, decide_eq_true_eq]
      omega
    rw [stringChars.eq_def]
    simp only [List.cons_append, List.nil_append, ↓reduceIte,
      if_neg (show ¬ '\\' = '"' by decide), h, hpaired, Char.ofNat_toNat]
  | @pair h1 h2 h3 h4 l1 l2 l3 l4 high low h h' hh hl hc =>
    have hhigh : (!r.pairs || decide (high < 0xD800) || decide (0xE000 ≤ high)) = false := by
      simp only [hr, Bool.not_true, Bool.false_or, Bool.or_eq_false_iff, decide_eq_false_iff_not]
      omega
    have hlow : (decide (0xDC00 ≤ low) && decide (low < 0xE000)) = true := by
      simp only [Bool.and_eq_true, decide_eq_true_eq]
      exact hl
    rw [stringChars.eq_def]
    simp only [List.cons_append, List.nil_append, ↓reduceIte,
      if_neg (show ¬ '\\' = '"' by decide), h, hhigh, h', hlow, Bool.false_eq_true,
      if_neg (show ¬ 0xDC00 ≤ high by omega), ← hc, Char.ofNat_toNat]

theorem stringChars_mark {cs read rest : List Char} {s : String}
    (h : stringChars r ('\\' :: 'u' :: cs) read = .ok (s, rest)) :
    ∃ c t cs', Piece c t ∧ '\\' :: 'u' :: cs = t ++ cs' ∧
      stringChars r cs' (c :: read) = .ok (s, rest) := by
  rw [stringChars.eq_def] at h
  simp only [↓reduceIte, if_neg (show ¬ '\\' = '"' by decide)] at h
  split at h
  · rename_i h1 h2 h3 h4 cs
    split at h
    · cases h
    rename_i high hhigh
    have hbound := (encoded_hex4 hhigh).2.2
    split at h
    · rename_i hsingle
      simp only [hr, Bool.not_true, Bool.false_or, Bool.or_eq_true,
        decide_eq_true_eq] at hsingle
      have hn : (Char.ofNat high).toNat = high := toNat_ofNat (by omega)
      exact ⟨_, _, cs, .unicode (hn.symm ▸ hhigh), rfl, h⟩
    rename_i hsurrogate
    simp only [hr, Bool.not_true, Bool.false_or, Bool.or_eq_true, decide_eq_true_eq] at hsurrogate
    split at h
    · cases h
    rename_i hfirst
    split at h
    · cases h
    · cases h
    · rename_i l1 l2 l3 l4 cs
      split at h
      · cases h
      rename_i low hlow
      split at h
      · rename_i hsecond
        rw [Bool.and_eq_true, decide_eq_true_eq, decide_eq_true_eq] at hsecond
        have hn := toNat_ofNat (n := 0x10000 + (high - 0xD800) * 0x400 + (low - 0xDC00)) (by omega)
        exact ⟨_, _, cs, .pair hhigh hlow (by omega) hsecond hn, rfl, h⟩
      · cases h
    · cases h
    · cases h
  · cases h

/-- Each turn of the parser takes a piece, unless it is the last. -/
theorem stringChars_cases {cs read rest : List Char} {s : String}
    (h : stringChars r cs read = .ok (s, rest)) :
    (cs = '"' :: rest ∧ s = String.ofList read.reverse) ∨
      ∃ c t cs', Piece c t ∧ cs = t ++ cs' ∧
        stringChars r cs' (c :: read) = .ok (s, rest) := by
  have hturn := h
  rw [stringChars.eq_def] at h
  split at h
  · cases h
  rename_i c cs
  split at h
  · rename_i hc
    cases h
    exact .inl ⟨hc ▸ rfl, rfl⟩
  rename_i hq
  right
  split at h
  · rename_i hs
    subst hs
    split at h
    · cases h
    rename_i e cs
    by_cases hu : e = 'u'
    · subst hu
      exact stringChars_mark hr hturn
    rw [if_neg hu] at h
    split at h
    · rename_i c he
      exact ⟨c, _, cs, .simple he, rfl, h⟩
    · cases h
  · rename_i hs
    split at h
    · cases h
    · rename_i hc
      exact ⟨c, [c], cs, .plain hq hs (Nat.le_of_not_lt hc), rfl, h⟩

theorem contents_of_stringChars {read rest : List Char} {s : String} (n : Nat) :
    ∀ {cs : List Char}, cs.length ≤ n → stringChars r cs read = .ok (s, rest) →
      ∃ w, Contents cs w rest ∧ s = String.ofList (read.reverse ++ w) := by
  induction n generalizing read with
  | zero =>
    intro cs hlen h
    cases List.length_eq_zero_iff.1 (Nat.le_zero.1 hlen)
    cases h
  | succ n ih =>
    intro cs hlen h
    rcases stringChars_cases hr h with ⟨rfl, rfl⟩ | ⟨c, t, cs', ht, rfl, hrest⟩
    · exact ⟨[], .close rest, by rw [List.append_nil]⟩
    · have hpos := List.length_pos_iff.2 ht.ne_nil
      rw [List.length_append] at hlen
      obtain ⟨w, hw, rfl⟩ := ih (by omega) hrest
      exact ⟨c :: w, .piece ht hw, ofList_reverse_cons c read w⟩

theorem stringChars_contents {cs w rest : List Char} (h : Contents cs w rest) (read : List Char) :
    stringChars r cs read = .ok (String.ofList (read.reverse ++ w), rest) := by
  induction h generalizing read with
  | close rest =>
    rw [List.append_nil]
    exact stringChars_quote r rest read
  | piece ht _ ih => rw [stringChars_piece hr ht, ih, ofList_reverse_cons]

theorem stringChars_eq_ok {cs read rest : List Char} {s : String} :
    stringChars r cs read = .ok (s, rest) ↔
      ∃ w, Contents cs w rest ∧ s = String.ofList (read.reverse ++ w) := by
  constructor
  · exact contents_of_stringChars hr cs.length (Nat.le_refl _)
  · rintro ⟨w, hw, rfl⟩
    exact stringChars_contents hr hw read

end

/-! ### Letters -/

theorem Contents.letters {cs w rest : List Char} (h : Contents cs w rest) :
    ∃ t, cs = t ++ '"' :: rest ∧ Letters Hex4 w (encoded t) := by
  induction h with
  | close rest => exact ⟨[], rfl, .nil⟩
  | @piece c t cs w rest ht _ ih =>
    obtain ⟨ts, rfl, hts⟩ := ih
    refine ⟨t ++ ts, (List.append_assoc _ _ _).symm, ?_⟩
    rw [encoded_append]
    exact .cons ht.letter hts

theorem exists_contents {w : List Char} {bs : Bytes} (h : Letters Hex4 w bs) :
    ∃ t, bs = encoded t ∧ ∀ rest, Contents (t ++ '"' :: rest) w rest := by
  induction h with
  | nil => exact ⟨[], rfl, .close⟩
  | cons h _ ih =>
    obtain ⟨t, rfl, ht⟩ := exists_piece h
    obtain ⟨ts, rfl, hts⟩ := ih
    refine ⟨t ++ ts, (encoded_append t ts).symm, fun rest => ?_⟩
    rw [List.append_assoc]
    exact .piece ht (hts rest)

end Parser

end Quarry.Json
