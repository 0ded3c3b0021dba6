import Quarry.Proofs.Expr.Soundness
import Quarry.Proofs.Json.Grammar
import Quarry.Proofs.Json.Scalars

/-!
What the trees of the grammar mean as values, and that the parser of values takes a number for what
its text says.
-/

namespace Quarry.Json

/-- The number that a text stands for: an integer if 64 bits hold it, else the nearest
floating-point number. Minus zero is no integer. -/
def Number.ofText (text : String) (isInteger : Bool) : Number :=
  let float := Number.float ((Numeral.ofText? text).getD Numeral.nan)
  match if isInteger && text != "-0" then Numeral.integer? text else none with
  | some n => if -9223372036854775808 ≤ n ∧ n < UInt64.size then .int n else float
  | none => float

namespace Tree

/-- Members and elements keep their order. -/
def value : Tree → Value
  | null => .null
  | bool b => .bool b
  | number text isInteger => .number (.ofText text isInteger)
  | string s => .string s
  | group true ps => .object (membersOf ps)
  | group false ps => .array (itemsOf ps)
where
  membersOf : List (Option String × Tree) → List (String × Value)
    | [] => []
    | (k, t) :: ps => (k.getD "", t.value) :: membersOf ps
  itemsOf : List (Option String × Tree) → List Value
    | [] => []
    | (_, t) :: ps => t.value :: itemsOf ps

/-- Whether floating point has no infinity for any of the numbers. -/
def inRange : Tree → Bool
  | number text isInteger => Parser.Number.inRange (.ofText text isInteger)
  | group _ ps => allInRange ps
  | _ => true
where
  allInRange : List (Option String × Tree) → Bool
    | [] => true
    | (_, t) :: ps => t.inRange && allInRange ps

/-- Not nested too deep, and without a number out of range. -/
def Fits (depth : Nat) (t : Tree) : Prop := t.nesting ≤ depth ∧ t.inRange = true

def AllFit (depth : Nat) (ps : List (Option String × Tree)) : Prop :=
  nesting.nestingOf ps ≤ depth ∧ inRange.allInRange ps = true

theorem fits_group {depth : Nat} {o : Bool} {ps : List (Option String × Tree)} :
    (group o ps).Fits depth ↔ depth ≠ 0 ∧ AllFit (depth - 1) ps := by
  rw [Fits, AllFit, nesting, inRange]
  constructor
  · rintro ⟨hn, hr⟩
    exact ⟨by omega, by omega, hr⟩
  · rintro ⟨hd, hn, hr⟩
    exact ⟨by omega, hr⟩

theorem allFit_nil (depth : Nat) : AllFit depth [] := ⟨Nat.zero_le _, rfl⟩

theorem allFit_cons {depth : Nat} {k : Option String} {t : Tree}
    {ps : List (Option String × Tree)} :
    AllFit depth ((k, t) :: ps) ↔ t.Fits depth ∧ AllFit depth ps := by
  rw [AllFit, Fits, AllFit, nesting.nestingOf, inRange.allInRange, Nat.max_le, Bool.and_eq_true]
  tauto

end Tree

namespace Parser

open Numeral Text
open Quarry.Expr.Parser (bind_eq_ok)

variable {cs ds ws fs es rest : List Char} {b b' : Bool}

/-! ### The parts of a number that was read -/

theorem digits_sound (h : digits cs = .ok (ds, rest)) :
    cs = ds ++ rest ∧ IsDigits ds ∧ ds ≠ [] := by
  have hall : IsDigits (cs.takeWhile Char.isDigit) := List.all_eq_true.1 List.all_takeWhile
  have hcut : cs.takeWhile Char.isDigit ++ cs.dropWhile Char.isDigit = cs :=
    List.takeWhile_append_dropWhile
  rw [digits, List.span_eq_takeWhile_dropWhile] at h
  split at h
  · cases h
  · cases h
  · rename_i ds' rest' hcases hne heq
    cases h
    obtain ⟨hds, hrest⟩ := Prod.mk.inj heq
    rw [hds] at hall hcut
    rw [hrest] at hcut
    refine ⟨hcut.symm, hall, ?_⟩
    rintro rfl
    cases rest with
    | nil => exact hcases rfl rfl
    | cons c cs => exact hne c cs rfl rfl

theorem whole_sound (h : whole cs = .ok (ws, rest)) :
    cs = ws ++ rest ∧ IsDigits ws ∧ ws ≠ [] ∧ (ws = ['0'] ∨ ws.head? ≠ some '0') := by
  unfold whole at h
  split at h
  · split at h
    · cases h
    · cases h
      exact ⟨rfl, IsDigits.zeros 1, List.cons_ne_nil _ _, .inl rfl⟩
  · rename_i hzero
    obtain ⟨rfl, hws, hne⟩ := digits_sound h
    refine ⟨rfl, hws, hne, ?_⟩
    obtain ⟨w, ws, rfl⟩ := List.exists_cons_of_ne_nil hne
    by_cases hw : w = '0'
    · subst hw
      left
      cases hcut : ws ++ rest with
      | nil => rw [(List.append_eq_nil_iff.1 hcut).1]
      | cons c cs => exact absurd (congrArg (List.cons '0') hcut) (hzero c cs)
    · right
      simpa using hw

theorem fraction_sound {frac : Option (List Char)} (h : fraction cs = .ok (frac, rest)) :
    ∃ fs, cs = fs ++ rest ∧ PointDigits fs frac.isSome ∧ frac.getD [] = fs.tail := by
  unfold fraction at h
  split at h
  · rename_i cs
    cases hds : digits cs with
    | error e =>
      rw [hds] at h
      cases h
    | ok p =>
      obtain ⟨ds, rest'⟩ := p
      rw [hds] at h
      cases h
      obtain ⟨rfl, hall, hne⟩ := digits_sound hds
      exact ⟨'.' :: ds, rfl, .some hall hne, rfl⟩
  · cases h
    exact ⟨[], rfl, .none, rfl⟩

theorem signOf_cases {negative : Bool} (h : signOf cs = (negative, rest)) :
    ∃ sign, (sign = [] ∨ sign = ['+'] ∨ sign = ['-']) ∧ cs = sign ++ rest ∧
      ∀ ds, IsDigits ds → ds ≠ [] → signOf (sign ++ ds) = (negative, ds) := by
  unfold signOf at h
  split at h
  · cases h
    exact ⟨['-'], .inr (.inr rfl), rfl, fun _ _ _ => rfl⟩
  · cases h
    exact ⟨['+'], .inr (.inl rfl), rfl, fun _ _ _ => rfl⟩
  · cases h
    refine ⟨[], .inl rfl, rfl, fun ds hds hne => ?_⟩
    obtain ⟨d, ds, rfl⟩ := List.exists_cons_of_ne_nil hne
    exact signOf_digits (hds d List.mem_cons_self)

theorem digitsOf_eq (h : IsDigits ds) (hr : NoDigit rest) : digitsOf (ds ++ rest) = (ds, rest) :=
  span_digits h hr

theorem noDigit_nil : NoDigit [] := ends_nil.noDigit

theorem exponent_sound {exp : Option Int} (h : exponent cs = .ok (exp, rest)) :
    ∃ es, cs = es ++ rest ∧ LetterDigits es exp.isSome ∧ exponentOf? es = some (exp.getD 0) := by
  unfold exponent at h
  split at h
  · cases h
    exact ⟨[], rfl, .none, rfl⟩
  rename_i e cs
  split at h
  · rename_i he
    rcases hsplit : signOf cs with ⟨negative, tail⟩
    obtain ⟨sign, hs, rfl, hsign⟩ := signOf_cases hsplit
    rw [hsplit] at h
    dsimp only at h
    cases hds : digits tail with
    | error e =>
      rw [hds] at h
      cases h
    | ok p =>
      obtain ⟨ds, rest'⟩ := p
      obtain ⟨rfl, hall, hne⟩ := digits_sound hds
      rw [hds] at h
      cases h
      refine ⟨e :: (sign ++ ds), ?_, .some he hs hall hne, ?_⟩
      · rw [List.cons_append, List.append_assoc]
      · have hdigits := digitsOf_eq hall noDigit_nil
        rw [List.append_nil] at hdigits
        rw [exponentOf?, if_pos he, hsign ds hall hne]
        simp [hdigits, hne]
  · cases h
    exact ⟨[], rfl, .none, rfl⟩

/-! ### The value of a number -/

theorem decimal?_parts (hws : IsDigits ws) (hne : ws ≠ []) (hf : PointDigits fs b)
    (he : LetterDigits es b') :
    decimal? (ws ++ (fs ++ es)) = (exponentOf? es).map (ofParts ws fs.tail) := by
  have hempty : ws.isEmpty = false := List.isEmpty_eq_false_iff.2 hne
  have hes : NoDigit es ∧ es.head? ≠ some '.' := by
    cases he with
    | none => exact ⟨noDigit_nil, fun h => by cases h⟩
    | some he =>
      rcases he with rfl | rfl
      · exact ⟨fun c hc => by cases hc; rfl, fun h => by cases h⟩
      · exact ⟨fun c hc => by cases hc; rfl, fun h => by cases h⟩
  cases hf with
  | none =>
    rw [List.nil_append, decimal?, digitsOf_eq hws hes.1]
    dsimp only
    split
    · exact absurd rfl hes.2
    · rw [hempty]
      rfl
  | some hds _ =>
    rw [decimal?, digitsOf_eq hws (fun c hc => by cases hc; rfl)]
    simp only [List.cons_append, digitsOf_eq hds hes.1, hempty, List.tail_cons, Bool.false_and,
      Bool.false_eq_true, ↓reduceIte]

/-- No word for infinity or for what is no number begins with a digit. -/
theorem ofText?_digit {c : Char} (hc : c.isDigit = true) (cs : List Char) :
    ofText? (String.ofList (c :: cs)) = (decimal? (c :: cs)).map (withSign false) ∧
      ofText? (String.ofList ('-' :: c :: cs)) = (decimal? (c :: cs)).map (withSign true) := by
  have hlower : c.toLower = c := by
    have hn := isDigit_iff.1 hc
    refine dif_neg ?_
    rintro ⟨hle, -⟩
    have hn' : 65 ≤ c.toNat := hle
    omega
  have hword {d : Char} {ds : List Char} (hd : d.isDigit = false) :
      String.ofList ((c :: cs).map Char.toLower) ≠ String.ofList (d :: ds) := by
    rw [List.map_cons, hlower]
    intro h
    rw [(List.cons.inj (String.ofList_injective h)).1, hd] at hc
    cases hc
  have hinf : ¬(String.ofList ((c :: cs).map Char.toLower) = "inf" ∨
      String.ofList ((c :: cs).map Char.toLower) = "infinity") := by
    rintro (h | h)
    · exact hword (d := 'i') (by decide) h
    · exact hword (d := 'i') (by decide) h
  have hnan : String.ofList ((c :: cs).map Char.toLower) ≠ "nan" :=
    hword (d := 'n') (by decide)
  constructor
  · rw [ofText?, String.toList_ofList, signOf_digits hc]
    exact (if_neg hinf).trans (if_neg hnan)
  · rw [ofText?, String.toList_ofList, signOf]
    exact (if_neg hinf).trans (if_neg hnan)

theorem natOfDigits_eq_zero (hws : IsDigits ws) (hne : ws ≠ [])
    (hz : ws = ['0'] ∨ ws.head? ≠ some '0') : natOfDigits ws = 0 ↔ ws = ['0'] := by
  have hgrows : ∀ (ds : List Char) (n : Nat),
      n ≤ ds.foldl (fun n c => 10 * n + digitValue c) n := by
    intro ds
    induction ds with
    | nil => exact fun n => Nat.le_refl n
    | cons d ds ih =>
      intro n
      rw [List.foldl_cons]
      exact Nat.le_trans (by omega) (ih _)
  constructor
  · intro h
    refine hz.resolve_right fun hhead => ?_
    obtain ⟨w, ws, rfl⟩ := List.exists_cons_of_ne_nil hne
    have hw := isDigit_iff.1 (hws w List.mem_cons_self)
    have hle : 10 * 0 + digitValue w ≤ natOfDigits (w :: ws) := hgrows ws _
    have hzero : w.toNat = '0'.toNat := by
      have hnat : '0'.toNat = 48 := rfl
      rw [h, digitValue] at hle
      omega
    exact hhead (congrArg some (Char.toNat_inj.1 hzero))
  · rintro rfl
    rfl

theorem integer?_digits (hws : IsDigits ws) (hne : ws ≠ []) (negative : Bool) :
    integer? (String.ofList ((if negative then ['-'] else []) ++ ws)) =
      some (if negative then -(natOfDigits ws : Int) else natOfDigits ws) := by
  have hall : (ws.isEmpty || !ws.all Char.isDigit) = false := by
    rw [List.all_eq_true.2 hws, List.isEmpty_eq_false_iff.2 hne]
    rfl
  obtain ⟨w, ws, rfl⟩ := List.exists_cons_of_ne_nil hne
  cases negative with
  | true =>
    rw [integer?, String.toList_ofList]
    simp only [↓reduceIte, List.singleton_append, signOf, hall, Bool.false_eq_true]
  | false =>
    rw [integer?, String.toList_ofList]
    simp only [Bool.false_eq_true, ↓reduceIte, List.nil_append,
      signOf_digits (hws w List.mem_cons_self), hall]

theorem decimal?_digits (hws : IsDigits ws) (hne : ws ≠ []) :
    decimal? ws = some (ofParts ws [] 0) := by
  have hparts := decimal?_parts hws hne .none .none
  rwa [List.append_nil, List.append_nil] at hparts

theorem makeNumber_digits (hws : IsDigits ws) (hne : ws ≠ []) :
    makeNumber false ws none none = .ofText (String.ofList ws) true := by
  have hint := integer?_digits hws hne false
  have hdecimal := decimal?_digits hws hne
  obtain ⟨w, ws, rfl⟩ := List.exists_cons_of_ne_nil hne
  have hw := hws w List.mem_cons_self
  have hfloat := (ofText?_digit hw ws).1
  have htext : (true && String.ofList (w :: ws) != "-0") = true := by
    rw [Bool.true_and, bne_iff_ne]
    intro h
    rw [(List.cons.inj (String.ofList_injective h)).1] at hw
    cases hw
  rw [hdecimal] at hfloat
  simp only [Bool.false_eq_true, ↓reduceIte, List.nil_append] at hint
  rw [Number.ofText, htext, hint, hfloat, makeNumber]
  simp only [Bool.false_eq_true, ↓reduceIte]
  by_cases hn : natOfDigits (w :: ws) < UInt64.size
  · rw [if_pos hn, if_pos ⟨by omega, by omega⟩]
  · rw [if_neg hn, if_neg (by omega)]
    rfl

theorem makeNumber_minus (hws : IsDigits ws) (hne : ws ≠ [])
    (hz : ws = ['0'] ∨ ws.head? ≠ some '0') :
    makeNumber true ws none none = .ofText (String.ofList ('-' :: ws)) true := by
  have hint := integer?_digits hws hne true
  have hdecimal := decimal?_digits hws hne
  have hzero := natOfDigits_eq_zero hws hne hz
  obtain ⟨w, ws, rfl⟩ := List.exists_cons_of_ne_nil hne
  have hfloat := (ofText?_digit (hws w List.mem_cons_self) ws).2
  have htext : (true && String.ofList ('-' :: w :: ws) != "-0") =
      !decide (natOfDigits (w :: ws) = 0) := by
    rw [Bool.true_and, Bool.eq_iff_iff, bne_iff_ne, Bool.not_eq_true', decide_eq_false_iff_not,
      hzero]
    apply not_congr
    constructor
    · intro h
      exact (List.cons.inj (String.ofList_injective h)).2
    · intro h
      rw [h]
  rw [hdecimal] at hfloat
  simp only [↓reduceIte, List.singleton_append] at hint
  rw [Number.ofText, htext, hint, hfloat, makeNumber]
  simp only [↓reduceIte]
  by_cases hn : natOfDigits (w :: ws) = 0
  · rw [if_pos (.inl hn), decide_eq_true hn]
    rfl
  rw [decide_eq_false hn]
  by_cases hlarge : 9223372036854775808 < natOfDigits (w :: ws)
  · rw [if_pos (.inr hlarge)]
    exact (if_neg (by omega)).symm
  · rw [if_neg (by omega)]
    exact (if_pos ⟨by omega, by omega⟩).symm

theorem makeNumber_eq {frac : Option (List Char)} {exp : Option Int} (hws : IsDigits ws)
    (hne : ws ≠ []) (hz : ws = ['0'] ∨ ws.head? ≠ some '0') (hf : PointDigits fs frac.isSome)
    (he : LetterDigits es exp.isSome) (hfrac : frac.getD [] = fs.tail)
    (hexp : exponentOf? es = some (exp.getD 0)) :
    let isInteger := !frac.isSome && !exp.isSome
    makeNumber false ws frac exp = .ofText (String.ofList (ws ++ (fs ++ es))) isInteger ∧
      makeNumber true ws frac exp = .ofText (String.ofList ('-' :: (ws ++ (fs ++ es)))) isInteger := by
  intro isInteger
  by_cases hint : isInteger = true
  · rw [hint]
    simp only [isInteger, Bool.and_eq_true, Bool.not_eq_true', Option.isSome_eq_false_iff,
      Option.isNone_iff_eq_none] at hint
    obtain ⟨rfl, rfl⟩ := hint
    cases hf
    cases he
    rw [List.append_nil, List.append_nil]
    exact ⟨makeNumber_digits hws hne, makeNumber_minus hws hne hz⟩
  · have hdecimal := decimal?_parts hws hne hf he
    rw [hexp, Option.map_some, ← hfrac] at hdecimal
    have hfloat (negative : Bool) : makeNumber negative ws frac exp =
        .float (withSign negative (ofParts ws (frac.getD []) (exp.getD 0))) := by
      rw [makeNumber]
      rintro rfl rfl
      exact hint rfl
    rw [Bool.not_eq_true] at hint
    rw [hfloat, hfloat, hint]
    obtain ⟨w, ws, rfl⟩ := List.exists_cons_of_ne_nil hne
    obtain ⟨hplain, hminus⟩ := ofText?_digit (hws w List.mem_cons_self) (ws ++ (fs ++ es))
    rw [List.cons_append] at hdecimal ⊢
    rw [Number.ofText, Number.ofText, hplain, hminus, hdecimal]
    exact ⟨rfl, rfl⟩

theorem exponent_chars (h : LetterDigits es b) :
    (∀ c ∈ es, c.toNat < 128) ∧ Exponent (es.map byte) b := by
  cases h with
  | none => exact ⟨fun _ hc => (List.not_mem_nil hc).elim, .none⟩
  | @some e sign ds he hs h hne =>
    have hascii : e.toNat < 128 ∧ (byte e = byte 'e' ∨ byte e = byte 'E') := by
      rcases he with rfl | rfl
      · exact ⟨by decide, .inl rfl⟩
      · exact ⟨by decide, .inr rfl⟩
    have hsign : (∀ c ∈ sign, c.toNat < 128) ∧ (sign.map byte = [] ∨ sign.map byte = [byte '+'] ∨
        sign.map byte = [byte '-']) := by
      rcases hs with rfl | rfl | rfl
      · exact ⟨by simp, .inl rfl⟩
      · exact ⟨List.forall_mem_singleton.2 (by decide), .inr (.inl rfl)⟩
      · exact ⟨List.forall_mem_singleton.2 (by decide), .inr (.inr rfl)⟩
    refine ⟨?_, ?_⟩
    · rw [List.forall_mem_cons, List.forall_mem_append]
      exact ⟨hascii.1, hsign.1, ascii_digits h⟩
    · rw [List.map_cons, List.map_append]
      exact .some hascii.2 hsign.2 (h.digits hne)

theorem fraction_chars (h : PointDigits fs b) :
    (∀ c ∈ fs, c.toNat < 128) ∧ Fraction (fs.map byte) b := by
  cases h with
  | none => exact ⟨fun _ hc => (List.not_mem_nil hc).elim, .none⟩
  | some h hne =>
    rw [List.forall_mem_cons]
    exact ⟨⟨by decide, ascii_digits h⟩, .some (h.digits hne)⟩

theorem unsigned_parts (hws : IsDigits ws) (hne : ws ≠ [])
    (hz : ws = ['0'] ∨ ws.head? ≠ some '0') (hf : PointDigits fs b) (he : LetterDigits es b') :
    Unsigned (ws ++ (fs ++ es)) (!b && !b') := by
  obtain ⟨hfascii, hf⟩ := fraction_chars hf
  obtain ⟨heascii, he⟩ := exponent_chars he
  have hw : Whole (ws.map byte) := by
    rcases hz with rfl | hz
    · exact .zero
    · exact hws.whole hne hz
  refine ⟨?_, _, _, _, b, b', by rw [List.map_append, List.map_append], hw, hf, he, rfl⟩
  rw [List.forall_mem_append, List.forall_mem_append]
  exact ⟨ascii_digits hws, hfascii, heascii⟩

/-- A number that was read is a number of the grammar, and what its text stands for. -/
theorem anyNumber_sound {n : Number} (h : anyNumber cs = .ok (n, rest)) :
    ∃ t isInteger, cs = t ++ rest ∧ Written t isInteger ∧
      n = .ofText (String.ofList t) isInteger := by
  unfold anyNumber at h
  split at h
  rename_i negative tail hsplit
  obtain ⟨⟨ws, cs1⟩, hwhole, h⟩ := bind_eq_ok.1 h
  obtain ⟨⟨frac, cs2⟩, hfraction, h⟩ := bind_eq_ok.1 h
  obtain ⟨⟨exp, cs3⟩, hexponent, h⟩ := bind_eq_ok.1 h
  cases h
  obtain ⟨rfl, hws, hne, hz⟩ := whole_sound hwhole
  obtain ⟨fs, rfl, hf, hfrac⟩ := fraction_sound hfraction
  obtain ⟨es, rfl, he, hexp⟩ := exponent_sound hexponent
  have hunsigned := unsigned_parts hws hne hz hf he
  obtain ⟨hplain, hminus⟩ := makeNumber_eq hws hne hz hf he hfrac hexp
  split at hsplit
  · cases hsplit
    exact ⟨_, _, by simp, hunsigned.negative, hminus⟩
  · cases hsplit
    exact ⟨_, _, by simp, hunsigned.written, hplain⟩

theorem figure_isInteger {t : Bytes} (h : Figure t b) (h' : Figure t b') : b = b' := by
  have hstops : Stops [] := fun c hc => by cases hc
  have hscan := (scanNumber_figure h hstops 0).symm.trans (scanNumber_figure h' hstops 0)
  exact (Prod.mk.inj (Except.ok.inj (Prod.mk.inj hscan).1)).2

theorem unsigned_of_written {t : List Char} (h : Written t b) :
    Unsigned t b ∨ ∃ u, t = '-' :: u ∧ Unsigned u b := by
  obtain ⟨hascii, h⟩ := h
  generalize hbs : t.map byte = bs at h
  obtain ⟨hs, hw, hf, he⟩ := h
  rcases hs with rfl | rfl
  · rw [List.nil_append] at hbs
    exact .inl ⟨hascii, _, _, _, _, _, hbs, hw, hf, he, rfl⟩
  · rw [List.singleton_append] at hbs
    obtain ⟨u, rfl, hu⟩ := cons_of_map (by decide) hascii hbs
    have hrest : ∀ c ∈ u, c.toNat < 128 := fun c hc => hascii c (List.mem_cons_of_mem _ hc)
    exact .inr ⟨u, rfl, hrest, _, _, _, _, _, hu, hw, hf, he, rfl⟩

/-- A number of the grammar is read as what its text stands for. -/
theorem anyNumber_written {t : List Char} (h : Written t b) (hr : Ends rest) :
    anyNumber (t ++ rest) = .ok (.ofText (String.ofList t) b, rest) := by
  obtain ⟨n, hn⟩ : ∃ n, anyNumber (t ++ rest) = .ok (n, rest) := by
    rcases unsigned_of_written h with hu | ⟨u, rfl, hu⟩
    · obtain ⟨ds, frac, exp, -, hread⟩ := anyNumber_unsigned hu
      exact ⟨_, (hread rest hr).1⟩
    · obtain ⟨ds, frac, exp, -, hread⟩ := anyNumber_unsigned hu
      exact ⟨_, (hread rest hr).2⟩
  obtain ⟨t', b', ht, h', rfl⟩ := anyNumber_sound hn
  obtain rfl := List.append_cancel_right ht
  obtain rfl := figure_isInteger h.figure h'.figure
  exact hn

end Parser

end Quarry.Json
