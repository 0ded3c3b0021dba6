import Quarry.Proofs.Expr.Printing

/-!
The texts of names and of literals.
-/

namespace Quarry.Expr

open Lexer

/-! ### Names -/

/-- The names that the printer writes by itself. -/
def printedNames : List String :=
  functions.map UnaryOp.name ++ ["Length", "Count"] ++ [Connective.and, .or].map Connective.name ++
    [BinaryOp.contains, .startsWith, .endsWith].map BinaryOp.symbol ++
    [AggregateOp.min, .max, .sum, .average].map AggregateOp.name ++
    [Quantifier.any, .all].map Quantifier.name ++ ["inf", "NaN"]

def isWord : List Char → Bool
  | [] => false
  | c :: cs => isWordStart c && cs.all isWordChar

theorem of_isWord {cs : List Char} (h : isWord cs = true) : IsWord cs := by
  cases cs with
  | nil => cases h
  | cons c cs =>
    obtain ⟨hc, hcs⟩ := Bool.and_eq_true_iff.1 h
    exact ⟨c, cs, rfl, hc, fun d hd => List.all_eq_true.1 hcs d hd⟩

theorem printedNames_all : printedNames.all
    (fun x => isWord x.toList && decide (Lexer.word x = .identifier x)) = true := by
  decide

theorem proper_of_mem {x : String} (h : x ∈ printedNames) : Proper x := by
  obtain ⟨hword, hname⟩ := Bool.and_eq_true_iff.1 (List.all_eq_true.1 printedNames_all x h)
  exact ⟨of_isWord hword, of_decide_eq_true hname⟩

theorem proper_function {op : UnaryOp} (h : op ∈ functions) : Proper op.name := by
  refine proper_of_mem ?_
  simp only [printedNames, List.mem_append]
  exact .inl (.inl (.inl (.inl (.inl (.inl (List.mem_map_of_mem h))))))

theorem proper_connective (k : Connective) : Proper k.name :=
  proper_of_mem (by cases k <;> decide)

theorem proper_method {op : BinaryOp} (h : op.isMethod = true) : Proper op.symbol :=
  proper_of_mem (by cases op <;> first | decide | cases h)

theorem proper_aggregate (op : AggregateOp) : Proper op.name :=
  proper_of_mem (by cases op <;> decide)

theorem proper_quantifier (q : Quantifier) : Proper q.name :=
  proper_of_mem (by cases q <;> decide)

/-! ### Words, strings and integers -/

theorem prints_null : Prints 8 (.literal .null) (atomText .null).toList := by
  have hword : IsWord "null".toList := of_isWord (by decide)
  exact .constant .null (Spells.word hword)

theorem prints_bool (b : Bool) : Prints 8 (.literal (.bool b)) (atomText (.bool b)).toList := by
  cases b with
  | true =>
    have hword : IsWord "true".toList := of_isWord (by decide)
    exact .constant (.bool true) (Spells.word hword)
  | false =>
    have hword : IsWord "false".toList := of_isWord (by decide)
    exact .constant (.bool false) (Spells.word hword)

theorem prints_string (s : String) :
    Prints 8 (.literal (.string s)) (atomText (.string s)).toList := by
  refine .constant (.string s) ⟨fun _ hus => .string hus, ?_⟩
  exact ⟨'\'', _, toList_quoted s, by decide⟩

theorem exists_digit {cs : List Char} (h : startsWithDigit cs = true) :
    ∃ c ds, cs = c :: ds ∧ c.isDigit = true := by
  cases cs with
  | nil => cases h
  | cons c cs => exact ⟨c, cs, rfl, h⟩

/-- The text of a number. -/
theorem Spells.number {cs : List Char} {t : Token} (h : startsWithDigit cs = true)
    (hlex : ∀ {rest us}, Parted rest → Lexes rest us → Lexes (cs ++ rest) (t :: us)) :
    Spells cs [t] := by
  refine ⟨hlex, ?_⟩
  obtain ⟨c, ds, rfl, hc⟩ := exists_digit h
  refine ⟨c, ds, rfl, ?_⟩
  rintro rfl
  exact Bool.noConfusion hc

theorem prints_natural {m : Nat} {n : Int64} (h : n.toInt = m) :
    Prints 8 (.literal (.long n)) (Nat.toDigits 10 m) := by
  refine .constant (.long n) (.number ?_ (.integer h))
  have hstart := startsWithDigit_append (Json.isDigits_toDigits m) Nat.toDigits_ne_nil []
  rwa [List.append_nil] at hstart

theorem prints_long {n : Int64} (hn : Int64.minValue < n) :
    Prints (if Atom.isNegative (.long n) then 6 else 8) (.literal (.long n))
      (atomText (.long n)).toList := by
  have htext : (atomText (.long n)).toList = (toString n.toInt).toList := rfl
  rw [htext]
  by_cases hneg : n < 0
  · have hlt := Int64.lt_iff_toInt_lt.1 hneg
    obtain ⟨m, hm⟩ := Int.eq_negSucc_of_lt_zero hlt
    have hopp : (-n).toInt = (m + 1 : Nat) := by
      rw [toInt_neg hn, hm]
      rfl
    have hp := ((prints_natural hopp).loosen (m := 6) (by decide) (by decide)).minus ?_
    · rw [Atom.isNegative, if_pos (by simpa using hneg), hm, Numeral.toList_toString_negSucc]
      rwa [Parser.negated, Int64.neg_neg] at hp
    · rintro k ⟨⟩
      exact minValue_lt_of_nonneg (by rw [Int64.le_iff_toInt_le, hopp]; exact Int.natCast_nonneg _)
  · have hge := Int64.le_iff_toInt_le.1 (Int64.not_lt.1 hneg)
    obtain ⟨m, hm⟩ := Int.eq_ofNat_of_zero_le hge
    rw [Atom.isNegative, if_neg (by simpa using hneg), hm, ← Int.ofNat_eq_natCast,
      Numeral.toList_toString_ofNat]
    exact prints_natural hm

/-! ### Floating-point numbers -/

theorem isFinite_iff (x : Float) :
    x.isFinite = true ↔ x.isNaN = false ∧ x.isInf = false := by
  have heq : x.isFinite = (!x.isNaN && !x.isInf) := by
    rw [Float.isFinite, Float.isNaN, Float.isInf, Float.Model.isFinite, Float.Model.isNaN,
      Float.Model.isInf]
    cases x.toModel.unpack <;> rfl
  rw [heq, Bool.and_eq_true, Bool.not_eq_true', Bool.not_eq_true']

/-- A number is read after a minus sign as it is without one, but with its sign changed. -/
theorem ofText?_minus {c : Char} {cs : List Char} {x : Float} (hc : c.isDigit = true)
    (hx : x.isNaN = false) (h : Numeral.ofText? (String.ofList ('-' :: c :: cs)) = some x) :
    ∃ z, Numeral.ofText? (String.ofList (c :: cs)) = some z ∧ -z = x := by
  rw [Numeral.ofText?, String.toList_ofList, Numeral.signOf] at h
  rw [Numeral.ofText?, String.toList_ofList, Numeral.signOf_digits hc]
  dsimp only at h ⊢
  split at h
  · rename_i hword
    cases h
    exact ⟨_, if_pos hword, rfl⟩
  · rename_i hword
    rw [if_neg hword]
    split at h
    · cases h
      exact absurd hx (by decide)
    · rename_i hnan
      rw [if_neg hnan]
      obtain ⟨z, hz, rfl⟩ := Option.map_eq_some_iff.1 h
      rw [hz]
      exact ⟨z, rfl, rfl⟩

/-- A number that is read back from its text. -/
def ReadsBack (x : Float) : Prop := Numeral.ofText? (Scalar.numberLayout.write x) = some x

theorem prints_decimal {cs : List Char} {x : Float} (hu : Json.Unsigned cs false)
    (hx : Numeral.ofText? (String.ofList cs) = some x) : Prints 8 (.literal (.double x)) cs := by
  exact .constant (.double x) (.number (numberChars_unsigned hu parted_nil).1 (.float hu hx))

theorem prints_finite {x : Float} (hx : x.isFinite = true) (hread : ReadsBack x) :
    Prints (if Atom.isNegative (.double x) then 6 else 8) (.literal (.double x))
      (atomText (.double x)).toList := by
  have hparts := (isFinite_iff x).1 hx
  have hwrite : Scalar.numberLayout.write x = Scalar.numberLayout.finite x := by
    rw [Numeral.Layout.write, hparts.1, hparts.2, if_neg Bool.false_ne_true,
      if_neg Bool.false_ne_true]
  have htext : atomText (.double x) = Scalar.numberLayout.finite x := hwrite
  have hu := Json.unsigned_magnitude Scalar.numberLayout (Numeral.Dyadic.ofFloat x)
  rw [ReadsBack, hwrite, Numeral.Layout.finite] at hread
  rw [htext, Atom.isNegative, Numeral.Layout.finite]
  generalize Scalar.numberLayout.magnitude (Numeral.Dyadic.ofFloat x) = m at hread hu
  by_cases hneg : Numeral.isNegative x = true
  · rw [if_pos hneg] at hread
    rw [if_pos hneg, if_pos hneg, String.toList_append]
    obtain ⟨c, cs, hcs, hc⟩ : ∃ c cs, m.toList = c :: cs ∧ c.isDigit = true :=
      exists_digit (numberChars_unsigned hu parted_nil).1
    have hm : "-" ++ m = String.ofList ('-' :: c :: cs) := String.toList_inj.1 (by simp [hcs])
    rw [hm] at hread
    obtain ⟨z, hz, rfl⟩ := ofText?_minus hc hparts.1 hread
    have hp := ((prints_decimal hu (hcs ▸ hz)).loosen (m := 6) (by decide) (by decide)).minus
      fun _ he => by cases he
    exact hp
  · rw [if_neg hneg, String.empty_append] at hread
    rw [if_neg hneg, if_neg hneg, String.empty_append]
    exact prints_decimal hu (by rwa [String.ofList_toList])

/-! ### Numbers that are not finite -/

/-- Infinity and not-a-number are written as words, which are names for the parser. -/
def rereadDouble (x : Float) : Expr :=
  if x.isNaN then .field "NaN" none
  else if x.isInf then
    if Numeral.isNegative x then .unary .negate (.field "inf" none) else .field "inf" none
  else .literal (.double x)

theorem rereadDouble_eq_iff {x : Float} :
    rereadDouble x = .literal (.double x) ↔ x.isFinite = true := by
  rw [isFinite_iff, rereadDouble]
  cases x.isNaN with
  | true =>
    rw [if_pos rfl]
    constructor
    · intro h
      cases h
    · rintro ⟨h, -⟩
      cases h
  | false =>
    rw [if_neg Bool.false_ne_true]
    cases x.isInf with
    | true =>
      rw [if_pos rfl]
      constructor
      · intro h
        split at h <;> cases h
      · rintro ⟨-, h⟩
        cases h
    | false => simp

theorem rereadDouble_ne_long (x : Float) (n : Int64) : rereadDouble x ≠ .literal (.long n) := by
  rw [rereadDouble]
  split
  · simp
  · split
    · split <;> simp
    · simp

/-- How tightly a literal binds. -/
theorem literal_le (a : Atom) : (if a.isNegative then 6 else 8) ≤ 8 := by
  split <;> decide

theorem prints_infinite {x : Float} (hx : x.isFinite = false) :
    Prints (if Atom.isNegative (.double x) then 6 else 8) (rereadDouble x)
      (atomText (.double x)).toList := by
  have hname {s : String} (hs : s ∈ printedNames) : Prints 8 (.field s none) s.toList := by
    have hp := Prints.field (proper_of_mem hs) .nil
    rwa [String.append_empty] at hp
  have htext : atomText (.double x) = Scalar.numberLayout.write x := rfl
  have hlevel : Atom.isNegative (.double x) = Numeral.isNegative x := rfl
  rw [htext, hlevel, rereadDouble, Numeral.Layout.write]
  by_cases hnan : x.isNaN = true
  · rw [if_pos hnan, if_pos hnan]
    exact (hname (s := "NaN") (by decide)).loosen (literal_le (.double x)) (Nat.le_refl 8)
  have hinf : x.isInf = true := by
    rw [← Bool.not_eq_false]
    intro hinf
    rw [(isFinite_iff x).2 ⟨Bool.not_eq_true _ ▸ hnan, hinf⟩] at hx
    cases hx
  rw [if_neg hnan, if_neg hnan, if_pos hinf, if_pos hinf]
  have hp := hname (s := "inf") (by decide)
  by_cases hneg : Numeral.isNegative x = true
  · rw [if_pos hneg, if_pos hneg, if_pos hneg]
    exact (hp.loosen (m := 6) (by decide) (by decide)).minus fun _ he => by cases he
  · rw [if_neg hneg, if_neg hneg, if_neg hneg]
    exact hp

end Quarry.Expr
