import Quarry.Proofs.Expr.Grammar

/-!
The shape of the expressions that are derived from tokens.
-/

namespace Quarry.Expr

variable {N : String → Prop}

/-- A token that a text can hold, if its names are those of `N`. -/
def Fine (N : String → Prop) : Token → Prop
  | .integer n => 0 ≤ n
  | .identifier x => N x
  | _ => True

/-- The text of the steps of a field. -/
inductive StepsText (N : String → Prop) : String → Prop
  | nil : StepsText N ""
  | member {x s : String} (hx : N x) (hs : StepsText N s) : StepsText N ("." ++ x ++ s)
  | index {n : Int64} {s : String} (hn : 0 ≤ n) (hs : StepsText N s) :
      StepsText N ("[" ++ toString n.toInt ++ "]" ++ s)
  | every {s : String} (hs : StepsText N s) : StepsText N ("[*]" ++ s)

inductive Formed (N : String → Prop) : Expr → Prop
  | field {x s : String} (hx : N x) (hs : StepsText N s) : Formed N (.field (x ++ s) none)
  | literal {a : Atom} (ha : ∀ n, a = .long n → Int64.minValue < n) : Formed N (.literal a)
  | unary {op : UnaryOp} {e : Expr} (h : Formed N e) : Formed N (.unary op e)
  | binary {op : BinaryOp} {l r : Expr} (hl : Formed N l) (hr : Formed N r) :
      Formed N (.binary op l r)
  | aggregate {op : AggregateOp} {e b : Expr} {x : String} (h : Formed N e)
      (he : e.isField = true) (hx : N x) (hb : Formed N b) : Formed N (.aggregate op e x b)
  | count {e : Expr} (h : Formed N e) (he : e.isField = true) : Formed N (.count e)
  | connect {k : Connective} {es : List Expr} (hne : es ≠ []) (hs : ∀ e ∈ es, Formed N e) :
      Formed N (.connect k es)
  | not {e : Expr} (h : Formed N e) : Formed N (.not e)
  | quantifier {q : Quantifier} {e b : Expr} {x : String} (h : Formed N e)
      (he : e.isField = true) (hx : N x) (hb : Formed N b) : Formed N (.quantifier q e x b)

theorem Formed.long {n : Int64} (h : Formed N (.literal (.long n))) : Int64.minValue < n := by
  cases h with
  | literal ha => exact ha n rfl

/-! ### Integers -/

theorem minValue_lt_of_nonneg {n : Int64} (h : 0 ≤ n) : Int64.minValue < n := by
  rw [Int64.lt_iff_toInt_lt]
  rw [Int64.le_iff_toInt_le] at h
  have h0 : (0 : Int64).toInt = 0 := rfl
  have hm : Int64.minValue.toInt = -9223372036854775808 := rfl
  omega

theorem minValue_lt_of_toInt {n m : Int64} (hm : m.toInt = -n.toInt) : Int64.minValue < m := by
  rw [Int64.lt_iff_toInt_lt]
  have hn := n.toInt_lt
  have h : Int64.minValue.toInt = -9223372036854775808 := rfl
  omega

theorem toInt_neg {n : Int64} (h : Int64.minValue < n) : (-n).toInt = -n.toInt := by
  rw [Int64.lt_iff_toInt_lt] at h
  rw [Int64.toInt_neg]
  have hn := n.toInt_lt
  have hm : Int64.minValue.toInt = -9223372036854775808 := rfl
  exact Int.bmod_eq_of_le (by omega) (by omega)

theorem neg_eq_of_toInt {n m : Int64} (hm : m.toInt = -n.toInt) : -n = m := by
  apply Int64.toInt_inj.1
  have hlt := m.toInt_lt
  have hle := m.le_toInt
  rw [Int64.toInt_neg, ← hm]
  exact Int.bmod_eq_of_le (by omega) (by omega)

/-! ### What is derived -/

section

variable {ts mid rest : List Token} {t : Token}

theorem fine_suffix (h : ∀ t ∈ ts, Fine N t) (hs : mid <:+ ts) : ∀ t ∈ mid, Fine N t :=
  fun t ht => h t (hs.subset ht)

theorem fine_tail (h : ∀ u ∈ t :: ts, Fine N u) : ∀ u ∈ ts, Fine N u :=
  fine_suffix h (List.suffix_cons t ts)

theorem fine_head (h : ∀ u ∈ t :: ts, Fine N u) : Fine N t := h t List.mem_cons_self

theorem Steps.stepsText {s : String} (h : Steps s ts rest) (hts : ∀ t ∈ ts, Fine N t) :
    StepsText N s := by
  induction h with
  | done _ => exact .nil
  | cons h _ ih =>
    have hs := ih (fine_suffix hts h.shorter.suffix)
    cases h with
    | member _ => exact .member (fine_head (fine_tail hts)) hs
    | index hn => exact .index hn hs
    | every => exact .every hs

theorem Constant.formed {a : Atom} (h : Constant t a) (ht : Fine N t) :
    Formed N (.literal a) := by
  refine .literal fun n hn => ?_
  subst hn
  cases h with
  | long n => exact minValue_lt_of_nonneg ht

end

mutual

theorem Derives.formed {n : Nat} {e : Expr} {ts rest : List Token} (h : Derives n e ts rest)
    (hts : ∀ t ∈ ts, Fine N t) : Formed N e := by
  match h with
  | .single _ h => exact h.formed hts
  | .connect _ h hs _ =>
    refine .connect (List.cons_ne_nil _ _) ?_
    exact List.forall_mem_cons.2 ⟨h.formed hts, hs.formed (fine_suffix hts h.shorter.suffix)⟩
  | .compare _ hl hr =>
    exact .binary (hl.formed hts) (hr.formed (fine_tail (fine_suffix hts hl.shorter.suffix)))
  | .chain _ h hs => exact hs.formed (h.formed hts) (fine_suffix hts h.shorter.suffix)
  | .not h => exact .not (h.formed (fine_tail hts))
  | .negateLong _ hm =>
    refine .literal fun _ he => ?_
    cases he
    exact minValue_lt_of_toInt hm
  | .negateDouble h => exact .literal fun _ he => by cases he
  | .negate h _ => exact .unary (h.formed (fine_tail hts))
  | .calls h hs => exact hs.formed (h.formed hts) (fine_suffix hts h.shorter.suffix)
  | .constant h => exact h.formed (fine_head hts)
  | .group h => exact h.formed (fine_tail hts)
  | .function _ h => exact .unary (h.formed (fine_tail (fine_tail hts)) _ List.mem_cons_self)
  | .connective h hne => exact .connect hne (h.formed (fine_tail (fine_tail hts)))
  | .field h => exact .field (fine_head hts) (h.stepsText (fine_tail hts))

theorem Operands.formed {n : Nat} {mark : Token} {es : List Expr} {ts rest : List Token}
    (h : Operands n mark es ts rest) (hts : ∀ t ∈ ts, Fine N t) : ∀ e ∈ es, Formed N e := by
  match h with
  | .nil => exact fun e he => absurd he List.not_mem_nil
  | .cons h hs =>
    have hts := fine_tail hts
    exact List.forall_mem_cons.2 ⟨h.formed hts, hs.formed (fine_suffix hts h.shorter.suffix)⟩

theorem Terms.formed {n : Nat} {l e : Expr} {ts rest : List Token} (h : Terms n l e ts rest)
    (hl : Formed N l) (hts : ∀ t ∈ ts, Fine N t) : Formed N e := by
  match h with
  | .nil => exact hl
  | .cons _ h hs =>
    have hts := fine_tail hts
    exact hs.formed (.binary hl (h.formed hts)) (fine_suffix hts h.shorter.suffix)

theorem Calls.formed {e r : Expr} {ts rest : List Token} (h : Calls e r ts rest)
    (he : Formed N e) (hts : ∀ t ∈ ts, Fine N t) : Formed N r := by
  match h with
  | .nil => exact he
  | .cons h hs =>
    have hts := fine_tail hts
    exact hs.formed (h.formed he hts) (fine_suffix hts h.shorter.suffix)

theorem Method.formed {e r : Expr} {ts rest : List Token} (h : Method e r ts rest)
    (he : Formed N e) (hts : ∀ t ∈ ts, Fine N t) : Formed N r := by
  match h with
  | .test _ h => exact .binary he (h.formed (fine_tail (fine_tail hts)) _ List.mem_cons_self)
  | .length => exact .unary he
  | .count hf => exact .count he hf
  | .quantifier _ hf h =>
    have hts := fine_tail (fine_tail hts)
    exact .quantifier he hf (fine_head hts) (h.formed (fine_tail (fine_tail hts)))
  | .aggregate _ hf h =>
    have hts := fine_tail (fine_tail hts)
    exact .aggregate he hf (fine_head hts) (h.formed (fine_tail (fine_tail hts)))

theorem Arguments.formed {es : List Expr} {ts rest : List Token} (h : Arguments es ts rest)
    (hts : ∀ t ∈ ts, Fine N t) : ∀ e ∈ es, Formed N e := by
  match h with
  | .nil => exact fun e he => absurd he List.not_mem_nil
  | .last h => exact List.forall_mem_cons.2 ⟨h.formed hts, fun e he => absurd he List.not_mem_nil⟩
  | .cons h hs =>
    have hmid := fine_tail (fine_suffix hts h.shorter.suffix)
    exact List.forall_mem_cons.2 ⟨h.formed hts, hs.formed hmid⟩

end

end Quarry.Expr
