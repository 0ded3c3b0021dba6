import Quarry.Json.Parser
import Quarry.Proofs.Json.Figures

/-!
Numbers and strings as they are printed, read by the parser of values.
-/

namespace Quarry.Json

namespace Parser

theorem bind_of_ok {ε α β : Type} {p : Except ε α} {f : α → Except ε β} {a : α} (h : p = .ok a) :
    p >>= f = f a := by
  rw [h]
  rfl

theorem bind_of_error {ε α β : Type} {p : Except ε α} {f : α → Except ε β} {e : ε}
    (h : p = .error e) : p >>= f = .error e := by
  rw [h]
  rfl

/-! ### Numbers -/

def NoDigit (rest : List Char) : Prop := ∀ c ∈ rest.head?, c.isDigit = false

/-- What may follow a number without continuing it. -/
def Ends (rest : List Char) : Prop :=
  ∀ c ∈ rest.head?, c.isDigit = false ∧ c ≠ '.' ∧ c ≠ 'e' ∧ c ≠ 'E'

theorem Ends.noDigit {rest : List Char} (h : Ends rest) : NoDigit rest := fun c hc => (h c hc).1

theorem ends_nil : Ends [] := fun _ h => by cases h

theorem ends_cons {c : Char} (h : c = ',' ∨ c = ']' ∨ c = '\x7d') (cs : List Char) :
    Ends (c :: cs) := by
  intro d hd
  cases hd
  rcases h with rfl | rfl | rfl <;> decide

theorem span_digits {ds rest : List Char} (h : IsDigits ds) (hr : NoDigit rest) :
    (ds ++ rest).span Char.isDigit = (ds, rest) := by
  have hstop : rest.takeWhile Char.isDigit = [] ∧ rest.dropWhile Char.isDigit = rest := by
    cases rest with
    | nil => exact ⟨rfl, rfl⟩
    | cons c cs => simp [hr c rfl]
  rw [List.span_eq_takeWhile_dropWhile, List.takeWhile_append_of_pos h,
    List.dropWhile_append_of_pos h, hstop.1, hstop.2, List.append_nil]

theorem digits_eq {ds rest : List Char} (h : IsDigits ds) (hne : ds ≠ []) (hr : NoDigit rest) :
    digits (ds ++ rest) = .ok (ds, rest) := by
  obtain ⟨d, ds, rfl⟩ := List.exists_cons_of_ne_nil hne
  rw [digits, span_digits h hr]

theorem whole_eq {ws rest : List Char} (h : IsDigits ws) (hne : ws ≠ [])
    (hz : ws = ['0'] ∨ ws.head? ≠ some '0') (hr : NoDigit rest) :
    whole (ws ++ rest) = .ok (ws, rest) := by
  rcases hz with rfl | hz
  · cases rest with
    | nil => rfl
    | cons c cs =>
      show (if c.isDigit then _ else _) = _
      rw [hr c rfl]
      rfl
  · obtain ⟨d, ws, rfl⟩ := List.exists_cons_of_ne_nil hne
    have hd : d ≠ '0' := fun hd => hz (by rw [hd]; rfl)
    rw [List.cons_append, whole]
    · exact digits_eq h hne hr
    · exact fun c cs heq => absurd (List.cons.inj heq).1 hd

theorem fraction_eq {fs : List Char} {b : Bool} (h : PointDigits fs b) :
    ∃ frac, frac.isSome = b ∧ ∀ rest, NoDigit rest → rest.head? ≠ some '.' →
      fraction (fs ++ rest) = .ok (frac, rest) := by
  cases h with
  | none =>
    refine ⟨none, rfl, fun rest _ hdot => ?_⟩
    rw [List.nil_append, fraction]
    rintro cs rfl
    exact hdot rfl
  | @some ds h hne =>
    refine ⟨some ds, rfl, fun rest hr _ => ?_⟩
    rw [List.cons_append, fraction, digits_eq h hne hr]
    rfl

theorem exponent_eq {es : List Char} {b : Bool} (h : LetterDigits es b) :
    ∃ exp, exp.isSome = b ∧ ∀ rest, Ends rest → exponent (es ++ rest) = .ok (exp, rest) := by
  cases h with
  | none =>
    refine ⟨none, rfl, fun rest hr => ?_⟩
    cases rest with
    | nil => rfl
    | cons c cs =>
      obtain ⟨-, -, he, hE⟩ := hr c rfl
      rw [List.nil_append, exponent, if_neg (by simp [he, hE])]
  | @some e sign ds he hs h hne =>
    refine ⟨some (if (Numeral.signOf (sign ++ ds)).1 then -(Numeral.natOfDigits ds : Int)
      else Numeral.natOfDigits ds), rfl, fun rest hr => ?_⟩
    have hsign (tail : List Char) : Numeral.signOf (sign ++ (ds ++ tail)) =
        ((Numeral.signOf (sign ++ ds)).1, ds ++ tail) := by
      rcases hs with rfl | rfl | rfl
      · obtain ⟨d, ds, rfl⟩ := List.exists_cons_of_ne_nil hne
        have hd := h d List.mem_cons_self
        rw [List.nil_append, List.nil_append, List.cons_append, Numeral.signOf_digits hd,
          Numeral.signOf_digits hd]
      · rfl
      · rfl
    rw [List.cons_append, List.append_assoc, exponent, if_pos he, hsign rest]
    simp only [digits_eq h hne hr.noDigit]
    rfl

/-- A number is read up to what cannot continue it. Without fraction and exponent its digits count. -/
theorem anyNumber_unsigned {cs : List Char} {b : Bool} (h : Unsigned cs b) :
    ∃ ds frac exp, (b = true → ds = cs ∧ frac = none ∧ exp = none) ∧
      ∀ rest, Ends rest → anyNumber (cs ++ rest) = .ok (makeNumber false ds frac exp, rest) ∧
        anyNumber ('-' :: (cs ++ rest)) = .ok (makeNumber true ds frac exp, rest) := by
  obtain ⟨ws, fs, es, hasFrac, hasExp, rfl, ⟨hds, hne, hz⟩, hf, he, rfl⟩ := h.chars
  obtain ⟨frac, hfrac, hfraction⟩ := fraction_eq hf
  obtain ⟨exp, hexp, hexponent⟩ := exponent_eq he
  refine ⟨ws, frac, exp, fun hb => ?_, fun rest hr => ?_⟩
  · simp only [Bool.and_eq_true, Bool.not_eq_true'] at hb
    obtain ⟨rfl, rfl⟩ := hb
    cases hf
    cases he
    exact ⟨by simp, Option.isSome_eq_false_iff.1 hfrac |> Option.isNone_iff_eq_none.1,
      Option.isSome_eq_false_iff.1 hexp |> Option.isNone_iff_eq_none.1⟩
  · have hletter : NoDigit (es ++ rest) ∧ (es ++ rest).head? ≠ some '.' := by
      cases he with
      | none => exact ⟨hr.noDigit, fun h => (hr _ h).2.1 rfl⟩
      | some he =>
        rcases he with rfl | rfl
        · exact ⟨fun c hc => by cases hc; rfl, fun h => by cases h⟩
        · exact ⟨fun c hc => by cases hc; rfl, fun h => by cases h⟩
    have hpoint : NoDigit (fs ++ (es ++ rest)) := by
      cases hf with
      | none => exact hletter.1
      | some => exact fun c hc => by cases hc; rfl
    obtain ⟨d, ws, rfl⟩ := List.exists_cons_of_ne_nil hne
    have hd : d ≠ '-' := by
      rintro rfl
      exact absurd (hds '-' List.mem_cons_self) (by decide)
    have hwhole := whole_eq hds hne hz hpoint
    have hfraction := hfraction _ hletter.1 hletter.2
    have hexponent := hexponent rest hr
    simp only [List.cons_append] at hwhole
    simp only [List.append_assoc, List.cons_append]
    constructor
    · unfold anyNumber
      split
      rename_i heq
      split at heq
      · rename_i hcons
        exact absurd (List.cons.inj hcons).1 hd
      · cases heq
        exact (bind_of_ok hwhole).trans ((bind_of_ok hfraction).trans (bind_of_ok hexponent))
    · unfold anyNumber
      exact (bind_of_ok hwhole).trans ((bind_of_ok hfraction).trans (bind_of_ok hexponent))

end Parser

/-- A number whose text is read as the number. -/
structure Number.ReadsBack (n : Number) : Prop where
  inRange : Parser.Number.inRange n = true
  anyNumber : ∀ rest, Parser.Ends rest → Parser.anyNumber (n.text.toList ++ rest) = .ok (n, rest)

namespace Parser

theorem readsBack_int {z : Int} (hlow : -9223372036854775808 ≤ z) (hhigh : z < UInt64.size) :
    (Number.int z).ReadsBack := by
  refine ⟨rfl, fun rest hr => ?_⟩
  cases z with
  | ofNat n =>
    obtain ⟨ds, frac, exp, hint, hread⟩ := anyNumber_unsigned (unsigned_toDigits n)
    obtain ⟨rfl, rfl, rfl⟩ := hint rfl
    have hn : n < UInt64.size := Int.ofNat_lt.1 hhigh
    have htext : (Number.int (Int.ofNat n)).text.toList = Nat.toDigits 10 n :=
      Numeral.toList_toString_ofNat n
    rw [htext, (hread rest hr).1]
    simp only [makeNumber, Numeral.natOfDigits_toDigits, Bool.false_eq_true, ↓reduceIte, hn]
    rfl
  | negSucc n =>
    obtain ⟨ds, frac, exp, hint, hread⟩ := anyNumber_unsigned (unsigned_toDigits (n + 1))
    obtain ⟨rfl, rfl, rfl⟩ := hint rfl
    have hn : ¬(n + 1 = 0 ∨ 9223372036854775808 < n + 1) := by omega
    have htext : (Number.int (Int.negSucc n)).text.toList = '-' :: Nat.toDigits 10 (n + 1) :=
      Numeral.toList_toString_negSucc n
    rw [htext, List.cons_append, (hread rest hr).2]
    simp only [makeNumber, Numeral.natOfDigits_toDigits, ↓reduceIte, if_neg hn]
    rfl

/-- A finite number is read as some number. -/
theorem anyNumber_finite {x : Float} (hx : x.isFinite = true) :
    ∃ n, ∀ rest, Ends rest → anyNumber ((Number.float x).text.toList ++ rest) = .ok (n, rest) := by
  have hmag := unsigned_magnitude numberLayout (Numeral.Dyadic.ofFloat x)
  obtain ⟨ds, frac, exp, -, hread⟩ := anyNumber_unsigned hmag
  rw [Number.text, if_pos hx, Numeral.Layout.finite]
  cases Numeral.isNegative x with
  | true =>
    refine ⟨makeNumber true ds frac exp, fun rest hr => ?_⟩
    rw [String.toList_append]
    exact (hread rest hr).2
  | false =>
    refine ⟨makeNumber false ds frac exp, fun rest hr => ?_⟩
    rw [String.toList_append]
    exact (hread rest hr).1

/-! ### Strings -/

theorem stringChars_quote (r : Rules) (cs read : List Char) :
    stringChars r ('"' :: cs) read = .ok (String.ofList read.reverse, cs) := by
  rw [stringChars.eq_def]
  rfl

theorem stringChars_simple (r : Rules) {e c : Char} (hu : e ≠ 'u') (he : simpleEscape? e = some c)
    (cs read : List Char) :
    stringChars r ('\\' :: e :: cs) read = stringChars r cs (c :: read) := by
  rw [stringChars.eq_def]
  simp only [↓reduceIte, if_neg hu, he, if_neg (show ¬ '\\' = '"' by decide)]

theorem stringChars_unicode (r : Rules) {a b : Char} {n : Nat} (hn : hex4? '0' '0' a b = some n)
    (hlow : n < 0xD800) (cs read : List Char) :
    stringChars r ('\\' :: 'u' :: '0' :: '0' :: a :: b :: cs) read =
      stringChars r cs (Char.ofNat n :: read) := by
  have hpaired : (!r.pairs || decide (n < 0xD800) || decide (0xE000 ≤ n)) = true := by simp [hlow]
  rw [stringChars.eq_def]
  simp only [↓reduceIte, if_neg (show ¬ '\\' = '"' by decide), hn, hpaired]

theorem stringChars_plain (r : Rules) {c : Char} (hq : c ≠ '"') (hs : c ≠ '\\')
    (hc : ¬c.toNat < 0x20) (cs read : List Char) :
    stringChars r (c :: cs) read = stringChars r cs (c :: read) := by
  rw [stringChars.eq_def]
  simp only [if_neg hq, if_neg hs, if_neg hc]

theorem hex4?_control : ∀ n < 32, hex4? '0' '0' (Nat.digitChar (n / 16)) (Nat.digitChar (n % 16)) =
    some n := by decide

theorem stringChars_escape (r : Rules) (c : Char) (cs read : List Char) :
    stringChars r (Printer.escape c ++ cs) read = stringChars r cs (c :: read) := by
  unfold Printer.escape
  by_cases hq : c = '"'
  · rw [if_pos hq, hq]
    exact stringChars_simple r (by decide) rfl cs read
  by_cases hs : c = '\\'
  · rw [if_neg hq, if_pos hs, hs]
    exact stringChars_simple r (by decide) rfl cs read
  rw [if_neg hq, if_neg hs]
  repeat' split
  all_goals rename_i h
  · exact h ▸ stringChars_simple r (by decide) rfl cs read
  · exact h ▸ stringChars_simple r (by decide) rfl cs read
  · exact h ▸ stringChars_simple r (by decide) rfl cs read
  · exact h ▸ stringChars_simple r (by decide) rfl cs read
  · exact h ▸ stringChars_simple r (by decide) rfl cs read
  · have hread := stringChars_unicode r (hex4?_control c.toNat h) (by omega) cs read
    rwa [Char.ofNat_toNat] at hread
  · exact stringChars_plain r hq hs h cs read

theorem stringChars_escaped (r : Rules) (ds rest read : List Char) :
    stringChars r (ds.flatMap Printer.escape ++ '"' :: rest) read =
      .ok (String.ofList (read.reverse ++ ds), rest) := by
  induction ds generalizing read with
  | nil =>
    rw [List.append_nil]
    exact stringChars_quote r rest read
  | cons d ds ih =>
    rw [List.flatMap_cons, List.append_assoc, stringChars_escape, ih, List.reverse_cons,
      List.append_assoc, List.singleton_append]

/-- A printed string is its opening quote and what is read up to the closing one. -/
theorem stringChars_string (r : Rules) (s : String) (rest : List Char) :
    ∃ cs, Printer.string s ++ rest = '"' :: cs ∧ stringChars r cs [] = .ok (s, rest) := by
  refine ⟨s.toList.flatMap Printer.escape ++ '"' :: rest, ?_, ?_⟩
  · rw [Printer.string, List.cons_append, List.cons_append, List.append_assoc]
    rfl
  · rw [stringChars_escaped, List.reverse_nil, List.nil_append, String.ofList_toList]

end Parser

end Quarry.Json
