import Quarry.Proofs.Expr.Lexing
import Quarry.Proofs.Json.Figures

/-!
Numbers as they are printed are tokens.
-/

namespace Quarry.Expr

namespace Lexer

open Json (IsDigits)

/-- What stands after a token does not belong to it. -/
def Parted (cs : List Char) : Prop :=
  ∀ c rest, cs = c :: rest → isWordChar c = false ∧ (c = '.' → startsWithDigit rest = false)

theorem Parted.ends {cs : List Char} (h : Parted cs) : Ends cs := by
  intro c hc
  obtain ⟨rest, rfl⟩ := List.head?_eq_some_iff.1 hc
  exact (h c rest rfl).1

theorem parted_nil : Parted [] := fun _ _ h => by cases h

theorem parted_cons {c : Char} (hc : c ∈ punctuation ∨ c = ' ') (hdot : c ≠ '.')
    (cs : List Char) : Parted (c :: cs) := by
  rintro _ _ ⟨⟩
  refine ⟨?_, fun h => absurd h hdot⟩
  rcases hc with hc | rfl
  · exact isWordChar_punctuation hc
  · rw [← Bool.not_eq_true]
    exact fun h => absurd (not_isBlank_of_isWordChar h) (by decide)

theorem parted_closeParen (cs : List Char) : Parted (')' :: cs) :=
  parted_cons (.inl (by decide)) (by decide) cs

theorem parted_blank (cs : List Char) : Parted (' ' :: cs) :=
  parted_cons (.inr rfl) (by decide) cs

theorem parted_dot {c : Char} (hc : c.isDigit = false) (cs : List Char) :
    Parted ('.' :: c :: cs) := by
  rintro _ _ ⟨⟩
  refine ⟨isWordChar_punctuation (by decide), fun _ => ?_⟩
  rw [startsWithDigit, List.head?_cons, Option.any_some, hc]

/-! ### The characters of a number -/

theorem numberChars_cons (f : Bool) (c : Char) (cs : List Char) : numberChars f (c :: cs) =
    if c.isDigit then (c :: (numberChars f cs).1, (numberChars f cs).2)
    else if c = '.' && !f && startsWithDigit cs then
      (c :: (numberChars true cs).1, (numberChars true cs).2)
    else if (c = 'e' || c = 'E') && exponentFollows cs then
      match cs with
      | s :: cs => if isSign s then (c :: s :: (numberChars true cs).1, (numberChars true cs).2)
        else (c :: (numberChars true (s :: cs)).1, (numberChars true (s :: cs)).2)
      | [] => ([c], f, [])
    else ([], f, c :: cs) :=
  numberChars.eq_def f (c :: cs)

theorem numberChars_parted {cs : List Char} (h : Parted cs) (f : Bool) :
    numberChars f cs = ([], f, cs) := by
  cases cs with
  | nil => rw [numberChars]
  | cons c cs =>
    obtain ⟨hword, hdot⟩ := h c cs rfl
    have hdigit : ¬c.isDigit = true := fun hd => by simp [isWordChar_of_isDigit hd] at hword
    have hpoint : ¬(c = '.' && !f && startsWithDigit cs) = true := by
      simp only [Bool.and_eq_true, decide_eq_true_eq, not_and]
      rintro ⟨hc, -⟩
      simp [hdot hc]
    have hexp : ¬((c = 'e' || c = 'E') && exponentFollows cs) = true := by
      simp only [Bool.and_eq_true, Bool.or_eq_true, decide_eq_true_eq, not_and]
      rintro (rfl | rfl)
      · exact absurd hword (by decide)
      · exact absurd hword (by decide)
    rw [numberChars_cons, if_neg hdigit, if_neg hpoint, if_neg hexp]

theorem numberChars_digits {ds : List Char} (h : IsDigits ds) (f : Bool) (cs : List Char) :
    numberChars f (ds ++ cs) = (ds ++ (numberChars f cs).1, (numberChars f cs).2) := by
  induction ds with
  | nil => rfl
  | cons d ds ih =>
    have hd := h d List.mem_cons_self
    rw [List.cons_append, numberChars_cons, if_pos hd,
      ih fun c hc => h c (List.mem_cons_of_mem d hc)]
    rfl

theorem startsWithDigit_append {ds : List Char} (h : IsDigits ds) (hne : ds ≠ [])
    (cs : List Char) : startsWithDigit (ds ++ cs) = true := by
  obtain ⟨d, ds, rfl⟩ := List.exists_cons_of_ne_nil hne
  rw [List.cons_append, startsWithDigit, List.head?_cons, Option.any_some]
  exact h d List.mem_cons_self

theorem numberChars_point {ds : List Char} (h : IsDigits ds) (hne : ds ≠ []) (cs : List Char) :
    numberChars false ('.' :: (ds ++ cs)) =
      ('.' :: (ds ++ (numberChars true cs).1), (numberChars true cs).2) := by
  rw [numberChars_cons, if_neg (by decide), if_pos (by simp [startsWithDigit_append h hne]),
    numberChars_digits h]

theorem numberChars_exponent {e : Char} {sign ds : List Char} (he : e = 'e' ∨ e = 'E')
    (hs : sign = [] ∨ sign = ['+'] ∨ sign = ['-']) (h : IsDigits ds) (hne : ds ≠ []) (f : Bool)
    (cs : List Char) :
    numberChars f (e :: (sign ++ (ds ++ cs))) =
      (e :: (sign ++ (ds ++ (numberChars true cs).1)), (numberChars true cs).2) := by
  have hdigit := startsWithDigit_append h hne cs
  have hrest := numberChars_digits h true cs
  obtain ⟨d, ds, rfl⟩ := List.exists_cons_of_ne_nil hne
  rw [List.cons_append] at hdigit
  have hd := h d List.mem_cons_self
  have hsign : ¬isSign d = true := by
    intro hsign
    simp only [isSign, Bool.or_eq_true, beq_iff_eq] at hsign
    rcases hsign with rfl | rfl
    · exact absurd hd (by decide)
    · exact absurd hd (by decide)
  have hletter : ¬e.isDigit = true ∧ e ≠ '.' := by
    rcases he with rfl | rfl <;> decide
  rw [numberChars_cons, if_neg hletter.1, if_neg (by simp [hletter.2])]
  rcases hs with rfl | rfl | rfl
  · rw [List.nil_append, List.cons_append, if_pos (by simp [he, exponentFollows, hd])]
    dsimp only
    rw [if_neg hsign, ← List.cons_append, hrest]
    rfl
  · rw [List.singleton_append, if_pos (by simp [he, exponentFollows, isSign, hdigit])]
    dsimp only
    rw [if_pos (by decide), hrest]
    rfl
  · rw [List.singleton_append, if_pos (by simp [he, exponentFollows, isSign, hdigit])]
    dsimp only
    rw [if_pos (by decide), hrest]
    rfl

/-! ### Integers and decimals -/

theorem Lexes.number {cs rest : List Char} {f : Bool} {t : Token} {ts : List Token}
    (hd : startsWithDigit cs = true) (hn : numberChars false (cs ++ rest) = (cs, f, rest))
    (ht : if f then ∃ x, Numeral.ofText? (String.ofList cs) = some x ∧ t = .float x
      else ∃ n, (Numeral.integer? (String.ofList cs)).bind Scalar.long? = some n ∧ t = .integer n)
    (h : Lexes rest ts) : Lexes (cs ++ rest) (t :: ts) := by
  cases cs with
  | nil => cases hd
  | cons c cs =>
    have hc : c.isDigit = true := hd
    have hword := isWordChar_of_isDigit hc
    have hstart : ¬isWordStart c = true := by simp [not_isWordStart_of_isDigit hc]
    rw [List.cons_append] at hn ⊢
    refine Lexes.token (not_isBlank_of_isWordChar hword) (fun p => ⟨p + (c :: cs).length, ?_⟩)
      (by simp) h
    rw [tokenAt_of_not_punctuation (not_punctuation hword), if_neg hstart, if_pos hc,
      Lexer.number, hn]
    cases f with
    | true =>
      obtain ⟨x, hx, rfl⟩ := ht
      dsimp only
      rw [if_pos rfl, hx]
    | false =>
      obtain ⟨n, hn, rfl⟩ := ht
      dsimp only
      rw [if_neg Bool.false_ne_true, hn]

theorem Lexes.integer {n : Nat} {m : Int64} {rest : List Char} {ts : List Token}
    (hm : m.toInt = n) (hr : Parted rest) (h : Lexes rest ts) :
    Lexes (Nat.toDigits 10 n ++ rest) (.integer m :: ts) := by
  have hdigits := Json.isDigits_toDigits n
  refine Lexes.number (f := false) ?_ ?_ ⟨m, ?_, rfl⟩ h
  · have hstart := startsWithDigit_append hdigits Nat.toDigits_ne_nil []
    rwa [List.append_nil] at hstart
  · rw [numberChars_digits hdigits, numberChars_parted hr, List.append_nil]
  · have htext : String.ofList (Nat.toDigits 10 n) = toString (n : Int) := by
      rw [← Numeral.toList_toString_ofNat, String.ofList_toList]
      rfl
    rw [htext, Numeral.integer?_toString, Option.bind_some, ← hm, Scalar.long?_toInt]

theorem numberChars_pointDigits {fs cs : List Char} {b : Bool} (h : Json.PointDigits fs b) :
    numberChars false (fs ++ cs) = (fs ++ (numberChars b cs).1, (numberChars b cs).2) := by
  cases h with
  | none => rfl
  | some h hne => exact numberChars_point h hne cs

theorem numberChars_letterDigits {es cs : List Char} {f b : Bool} (h : Json.LetterDigits es b) :
    numberChars f (es ++ cs) =
      (es ++ (numberChars (f || b) cs).1, (numberChars (f || b) cs).2) := by
  cases h with
  | none =>
    rw [Bool.or_false]
    rfl
  | some he hs h hne =>
    rw [List.cons_append, List.append_assoc, numberChars_exponent he hs h hne, Bool.or_true,
      List.cons_append, List.append_assoc]

/-- A decimal has a fraction or an exponent, by which it is told from an integer. -/
theorem numberChars_unsigned {cs rest : List Char} (hu : Json.Unsigned cs false)
    (hr : Parted rest) : startsWithDigit cs = true ∧
      numberChars false (cs ++ rest) = (cs, true, rest) := by
  obtain ⟨ws, fs, es, hasFrac, hasExp, rfl, ⟨hds, hne, -⟩, hf, he, hfloat⟩ := hu.chars
  refine ⟨startsWithDigit_append hds hne _, ?_⟩
  have hor : (hasFrac || hasExp) = true := by
    cases hasFrac <;> cases hasExp <;> simp at hfloat ⊢
  rw [List.append_assoc, numberChars_digits hds, List.append_assoc, numberChars_pointDigits hf,
    numberChars_letterDigits he, hor, numberChars_parted hr, List.append_nil]

theorem Lexes.float {cs rest : List Char} {x : Float} {ts : List Token}
    (hu : Json.Unsigned cs false) (hx : Numeral.ofText? (String.ofList cs) = some x)
    (hr : Parted rest) (h : Lexes rest ts) : Lexes (cs ++ rest) (.float x :: ts) := by
  obtain ⟨hstart, hchars⟩ := numberChars_unsigned hu hr
  exact Lexes.number (f := true) hstart hchars ⟨x, hx, rfl⟩ h

end Lexer

end Quarry.Expr
