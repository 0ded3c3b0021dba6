import Mathlib.Tactic
import Quarry.Json.Scan

/-!
Which byte sequences the scanner takes for the contents of a string, and what it reads from them.
-/

namespace Quarry.Json

open Text

/-- One character of a string as it is written, and the bytes it stands for. -/
inductive Glyph : Bytes → Bytes → Prop
  | plain {b : UInt8} (hq : b ≠ byte '"') (hs : b ≠ byte '\\') (hc : ¬b < 0x20) : Glyph [b] [b]
  | simple {e : UInt8} {c : Char} (he : simpleEscape? e = some c) :
      Glyph [byte '\\', e] (bytes c.toString)
  | unicode {a b c d : UInt8} {n : Nat} (hn : hex4? a b c d = some n)
      (hh : isHighSurrogate n = false) (hl : isLowSurrogate n = false) :
      Glyph [byte '\\', byte 'u', a, b, c, d] (bytes (Char.ofNat n).toString)
  | pair {a b c d e f g h : UInt8} {high low : Nat} (hn : hex4? a b c d = some high)
      (hh : isHighSurrogate high = true) (hm : hex4? e f g h = some low)
      (hl : isLowSurrogate low = true) :
      Glyph [byte '\\', byte 'u', a, b, c, d, byte '\\', byte 'u', e, f, g, h]
        (bytes (ofSurrogates high low).toString)

/-- The contents of a string without its quotes, and the bytes they stand for. -/
inductive Glyphs : Bytes → Bytes → Prop
  | nil : Glyphs [] []
  | cons {t u ts us : Bytes} (head : Glyph t u) (tail : Glyphs ts us) : Glyphs (t ++ ts) (u ++ us)

theorem Glyphs.append {t u ts us : Bytes} (h : Glyphs t u) (hs : Glyphs ts us) :
    Glyphs (t ++ ts) (u ++ us) := by
  induction h with
  | nil => exact hs
  | cons head _ ih => simpa only [List.append_assoc] using ih.cons head

theorem Glyph.single {t u : Bytes} (h : Glyph t u) : Glyphs t u := by
  simpa using Glyphs.nil.cons h

theorem simpleEscape?_u : simpleEscape? (byte 'u') = none := by decide

theorem scanChars_glyph {t u : Bytes} (h : Glyph t u) (rest : Bytes) (p : Nat) (acc : Bytes) :
    scanChars (t ++ rest) p acc = scanChars rest (p + t.length) (u.reverse ++ acc) := by
  have hbq : byte '\\' ≠ byte '"' := by decide
  rw [scanChars.eq_def]
  cases h with
  | plain hq hs hc => simp [hq, hs, hc]
  | @simple e c he =>
    have hu : e ≠ byte 'u' := by
      rintro rfl
      simp [simpleEscape?_u] at he
    simp [hbq, hu, he]
  | unicode hn hh hl => simp [hbq, hn, hh, hl]
  | pair hn hh hm hl => simp [hbq, hn, hh, hm, hl]

/-- The scanner reads every string that is written so, whatever follows it. -/
theorem scanChars_glyphs {t u : Bytes} (h : Glyphs t u) (rest : Bytes) (p : Nat) (acc : Bytes) :
    scanChars (t ++ byte '"' :: rest) p acc =
      (.ok (acc.reverse ++ u), ⟨rest, p + t.length + 1⟩) := by
  induction h generalizing p acc with
  | nil =>
    rw [scanChars.eq_def]
    simp
  | cons head _ ih =>
    rw [List.append_assoc, scanChars_glyph head, ih]
    simp [Nat.add_assoc]

/-- The scanner reads nothing else. -/
theorem glyphs_of_scanChars {bs acc out : Bytes} {p : Nat} {stop : Cursor}
    (h : scanChars bs p acc = (.ok out, stop)) :
    ∃ t u, Glyphs t u ∧ bs = t ++ byte '"' :: stop.rest ∧ stop.position = p + t.length + 1 ∧
      out = acc.reverse ++ u := by
  have step {t u rest : Bytes} {q : Nat} {before : Bytes} (hg : Glyph t u)
      (ih : ∃ ts us, Glyphs ts us ∧ rest = ts ++ byte '"' :: stop.rest ∧
        stop.position = q + t.length + ts.length + 1 ∧
          out = (u.reverse ++ before).reverse ++ us) :
      ∃ ts us, Glyphs ts us ∧ t ++ rest = ts ++ byte '"' :: stop.rest ∧
        stop.position = q + ts.length + 1 ∧ out = before.reverse ++ us := by
    obtain ⟨ts, us, hts, hrest, hpos, hout⟩ := ih
    refine ⟨t ++ ts, u ++ us, hts.cons hg, by simp [hrest], ?_, by simpa using hout⟩
    rw [hpos, List.length_append]
    omega
  fun_induction scanChars bs p acc with
  | case2 =>
    simp only [Prod.mk.injEq, Except.ok.injEq] at h
    obtain ⟨rfl, rfl⟩ := h
    exact ⟨[], [], .nil, by simp⟩
  | case6 _ _ _ _ _ _ _ _ hhigh _ _ hmark _ _ _ _ _ _ hhex hlow _ ih =>
    obtain ⟨rfl, rfl⟩ := hmark
    exact step (.pair (by assumption) hhigh hhex hlow) (ih h)
  | case12 _ _ _ _ _ _ _ _ hhex hhigh hlow _ ih =>
    exact step (.unicode hhex (by simpa using hhigh) (by simpa using hlow)) (ih h)
  | case14 _ _ _ _ _ _ hescape _ ih => exact step (.simple hescape) (ih h)
  | case17 _ _ _ _ hq hs hc ih => exact step (.plain hq hs hc) (ih h)
  | _ => simp at h

/-- A string with its quotes. -/
structure Quoted where
  inner : Bytes
  value : String
  spells : Glyphs inner (bytes value)

def Quoted.text (q : Quoted) : Bytes := byte '"' :: q.inner ++ [byte '"']

theorem scanString_quoted (q : Quoted) (rest : Bytes) (p : Nat) :
    scanString ⟨q.text ++ rest, p⟩ = (.ok q.value, ⟨rest, p + q.text.length⟩) := by
  have hscan := scanChars_glyphs q.spells rest (p + 1) []
  have hnext : Cursor.next ⟨q.text ++ rest, p⟩ = ⟨q.inner ++ byte '"' :: rest, p + 1⟩ := by
    simp [Quoted.text, Cursor.next_cons]
  rw [scanString, hnext]
  simp only [hscan, List.reverse_nil, List.nil_append, ofBytes?_bytes]
  simp [Quoted.text, Nat.add_assoc, Nat.add_comm 1]

theorem quoted_of_scanString {c stop : Cursor} {s : String} (hc : c.startsWith (byte '"') = true)
    (h : scanString c = (.ok s, stop)) :
    ∃ q : Quoted, q.value = s ∧ c.rest = q.text ++ stop.rest ∧
      stop.position = c.position + q.text.length := by
  obtain ⟨rest, p⟩ := c
  obtain ⟨bs, rfl⟩ : ∃ bs, rest = byte '"' :: bs := by
    cases rest with
    | nil => simp [Cursor.startsWith] at hc
    | cons b bs => exact ⟨bs, by simpa [Cursor.startsWith] using hc⟩
  simp only [scanString, Cursor.next_cons] at h
  split at h
  · simp at h
  · rename_i out stop' hscan
    split at h
    · rename_i s' hs
      simp only [Prod.mk.injEq, Except.ok.injEq] at h
      obtain ⟨rfl, rfl⟩ := h
      obtain ⟨t, u, hg, hbs, hpos, hout⟩ := glyphs_of_scanChars hscan
      have hu : u = bytes s' := by
        rw [List.reverse_nil, List.nil_append] at hout
        rw [← hout]
        exact (bytes_of_ofBytes? hs).symm
      subst hu
      refine ⟨⟨t, s', hg⟩, rfl, by simp [Quoted.text, hbs], ?_⟩
      simp only [hpos, Quoted.text, List.length_cons, List.length_append, List.length_nil]
      omega
    · simp at h

end Quarry.Json
