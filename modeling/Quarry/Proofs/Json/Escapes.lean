import Quarry.Json.Printer
import Quarry.Json.Writer
import Quarry.Proofs.Json.Strings
import Quarry.Proofs.Text.Encoding

/-!
Strings as they are written, by the printer of values and by the writer of names.
-/

namespace Quarry.Json

open Text

theorem glyphs_plain {bs : Bytes} (h : ∀ b ∈ bs, b ≠ byte '"' ∧ b ≠ byte '\\' ∧ ¬b < 0x20) :
    Glyphs bs bs := by
  induction bs with
  | nil => exact .nil
  | cons b bs ih =>
    obtain ⟨hq, hs, hc⟩ := h b List.mem_cons_self
    exact (ih fun c hc => h c (List.mem_cons_of_mem b hc)).cons (Glyph.plain hq hs hc)

theorem toNat_ne {c d : Char} (h : c ≠ d) : c.toNat ≠ d.toNat := by
  intro hn
  apply h
  rw [← Char.ofNat_toNat c, hn, Char.ofNat_toNat]

/-- Characters that are written as they are. -/
theorem glyphs_encoded {c : Char} (hq : c ≠ '"') (hs : c ≠ '\\') (hc : ¬c.toNat < 0x20) :
    Glyphs (encoded [c]) (encoded [c]) := by
  refine glyphs_plain fun b hb => ?_
  have hq' : (byte '"').toNat = 34 := rfl
  have hs' : (byte '\\').toNat = 92 := rfl
  by_cases hlow : c.toNat < 128
  · rw [encoded_ascii (by simpa using hlow), List.map_singleton, List.mem_singleton] at hb
    subst hb
    have hn := toNat_byte hlow
    have h34 : c.toNat ≠ 34 := toNat_ne hq
    have h92 : c.toNat ≠ 92 := toNat_ne hs
    refine ⟨fun h => ?_, fun h => ?_, fun h => ?_⟩
    · rw [h] at hn
      omega
    · rw [h] at hn
      omega
    · have hlt := UInt8.lt_iff_toNat_lt.1 h
      rw [hn] at hlt
      exact hc hlt
  · rw [encoded_cons, encoded_nil, List.append_nil] at hb
    have hhigh := utf8EncodeChar_high (by omega) b hb
    refine ⟨?_, ?_, fun h => ?_⟩
    · rintro rfl
      omega
    · rintro rfl
      omega
    · have hlt : b.toNat < 32 := UInt8.lt_iff_toNat_lt.1 h
      omega

theorem encoded_singleton (c : Char) : encoded [c] = bytes c.toString := by
  rw [← bytes_ofList]
  rfl

theorem glyphs_simple {e c : Char} (he : e.toNat < 128) (h : simpleEscape? (byte e) = some c) :
    Glyphs (encoded ['\\', e]) (encoded [c]) := by
  have htext : encoded ['\\', e] = [byte '\\', byte e] := encoded_ascii (by
    intro d hd
    rcases List.mem_cons.1 hd with rfl | hd
    · decide
    · obtain rfl := List.mem_singleton.1 hd
      exact he)
  rw [htext, encoded_singleton]
  exact (Glyph.simple h).single

theorem glyphs_unicode {c : Char} {cs : List Char} {h1 h2 h3 h4 : UInt8}
    (htext : encoded cs = [byte '\\', byte 'u', h1, h2, h3, h4])
    (h : hex4? h1 h2 h3 h4 = some c.toNat) (hlow : c.toNat < 0xD800) :
    Glyphs (encoded cs) (encoded [c]) := by
  have hglyph := (Glyph.unicode h (by simp [isHighSurrogate]; omega)
    (by simp [isLowSurrogate]; omega)).single
  rw [Char.ofNat_toNat] at hglyph
  rwa [htext, encoded_singleton]

/-- A way to write characters one by one. -/
structure Escaping (f : Char → List Char) : Prop where
  glyphs : ∀ c, Glyphs (encoded (f c)) (encoded [c])

theorem Escaping.glyphs_flatMap {f : Char → List Char} (h : Escaping f) (cs : List Char) :
    Glyphs (encoded (cs.flatMap f)) (encoded cs) := by
  induction cs with
  | nil => exact .nil
  | cons c cs ih =>
    rw [List.flatMap_cons, encoded_append, ← List.singleton_append (l := cs), encoded_append]
    exact (h.glyphs c).append ih

/-- A string with its characters escaped, between quotes. -/
def Escaping.quoted {f : Char → List Char} (h : Escaping f) (s : String) : Quoted where
  inner := encoded (s.toList.flatMap f)
  value := s
  spells := by
    rw [bytes_eq]
    exact h.glyphs_flatMap s.toList

theorem Escaping.text_quoted {f : Char → List Char} (h : Escaping f) (s : String) :
    (h.quoted s).text = encoded ('"' :: s.toList.flatMap f ++ ['"']) := by
  have hq : String.utf8EncodeChar '"' = [byte '"'] := rfl
  rw [List.cons_append, encoded_cons, encoded_append, encoded_cons, encoded_nil, hq]
  rfl

set_option maxRecDepth 3000 in
theorem hex4?_digits : ∀ n < 160, hex4? (byte '0') (byte '0')
    (byte (Nat.digitChar (n / 16))) (byte (Nat.digitChar (n % 16))) = some n := by
  decide

set_option maxRecDepth 3000 in
theorem hex4_digits : ∀ n < 160, hex4 n =
    ['0', '0', Nat.digitChar (n / 16), Nat.digitChar (n % 16)] := by
  decide

theorem digitChar_ascii : ∀ n < 16, (Nat.digitChar n).toNat < 128 := by decide

theorem encoded_unicode {n : Nat} (h : n < 160) :
    encoded ['\\', 'u', '0', '0', Nat.digitChar (n / 16), Nat.digitChar (n % 16)] =
      [byte '\\', byte 'u', byte '0', byte '0', byte (Nat.digitChar (n / 16)),
        byte (Nat.digitChar (n % 16))] := by
  have h1 := digitChar_ascii (n / 16) (by omega)
  have h2 := digitChar_ascii (n % 16) (by omega)
  refine encoded_ascii fun c hc => ?_
  simp only [List.mem_cons, List.not_mem_nil, or_false] at hc
  rcases hc with rfl | rfl | rfl | rfl | rfl | rfl
  · decide
  · decide
  · decide
  · decide
  · exact h1
  · exact h2

theorem glyphs_control {c : Char} (h : c.toNat < 160) :
    Glyphs (encoded ['\\', 'u', '0', '0', Nat.digitChar (c.toNat / 16),
      Nat.digitChar (c.toNat % 16)]) (encoded [c]) :=
  glyphs_unicode (encoded_unicode h) (hex4?_digits c.toNat h) (by omega)

theorem escaping_printer : Escaping Printer.escape := by
  refine ⟨fun c => ?_⟩
  rw [Printer.escape]
  split
  · rename_i h
    subst h
    exact glyphs_simple (by decide) (by decide)
  rename_i hq
  split
  · rename_i h
    subst h
    exact glyphs_simple (by decide) (by decide)
  rename_i hs
  repeat' split
  all_goals rename_i h
  · exact h ▸ glyphs_simple (by decide) (by decide)
  · exact h ▸ glyphs_simple (by decide) (by decide)
  · exact h ▸ glyphs_simple (by decide) (by decide)
  · exact h ▸ glyphs_simple (by decide) (by decide)
  · exact h ▸ glyphs_simple (by decide) (by decide)
  · exact glyphs_control (by omega)
  · exact glyphs_encoded hq hs h

theorem escaping_writer : Escaping escapeChar := by
  refine ⟨fun c => ?_⟩
  rw [escapeChar]
  split
  · rename_i h
    subst h
    exact glyphs_simple (by decide) (by decide)
  rename_i hq
  split
  · rename_i h
    subst h
    exact glyphs_simple (by decide) (by decide)
  rename_i hs
  repeat' split
  all_goals rename_i h
  · exact h ▸ glyphs_simple (by decide) (by decide)
  · exact h ▸ glyphs_simple (by decide) (by decide)
  · exact h ▸ glyphs_simple (by decide) (by decide)
  · simp only [isControl, Bool.or_eq_true, Bool.and_eq_true, decide_eq_true_eq] at h
    rw [hex4_digits c.toNat (by omega)]
    exact glyphs_control (by omega)
  · simp only [isControl, Bool.or_eq_true, Bool.and_eq_true, decide_eq_true_eq] at h
    exact glyphs_encoded hq hs (by omega)

/-- The name of a member as the writer puts it. -/
theorem text_quoted_writer (k : String) : (escaping_writer.quoted k).text = stringBytes k := by
  rw [Escaping.text_quoted, stringBytes, bytes_ofList]

theorem text_quoted_printer (s : String) :
    (escaping_printer.quoted s).text = encoded (Printer.string s) :=
  escaping_printer.text_quoted s

end Quarry.Json
