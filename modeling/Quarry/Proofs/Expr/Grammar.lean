import Quarry.Expr.Parser

/-!
The grammar of expressions over tokens, in which a phrase is related to the tokens from its first on
and to those after its last.
-/

namespace Quarry.Expr

/-! ### Operators and their levels -/

def connectives : List (Nat × Token × Connective) := [(1, .or, .or), (2, .and, .and)]

def comparisons : List (Token × BinaryOp) :=
  [(.equal, .equal), (.notEqual, .notEqual), (.less, .lessThan), (.greater, .greaterThan),
    (.lessOrEqual, .lessThanOrEqual), (.greaterOrEqual, .greaterThanOrEqual)]

/-- Operators that associate to the left. -/
def chains : List (Nat × Token × BinaryOp) :=
  [(4, .plus, .add), (4, .minus, .subtract), (5, .star, .multiply), (5, .slash, .divide),
    (5, .percent, .modulo)]

def functions : List UnaryOp := [.abs, .ceiling, .floor, .exp, .log, .sqrt, .negate]

/-- Whether the expression is a number literal, which a minus sign changes in place. -/
def isNumber : Expr → Bool
  | .literal (.long _) => true
  | .literal (.double _) => true
  | _ => false

/-! ### Constants and fields -/

inductive Constant : Token → Atom → Prop
  | double (x : Float) : Constant (.float x) (.double x)
  | long (n : Int64) : Constant (.integer n) (.long n)
  | string (s : String) : Constant (.string s) (.string s)
  | bool (b : Bool) : Constant (.boolean b) (.bool b)
  | null : Constant .null .null

/-- A step of a field. A name before a parenthesis is a call. -/
inductive Step : String → List Token → List Token → Prop
  | member {x : String} {ts : List Token} (h : ts.head? ≠ some .openParen) :
      Step ("." ++ x) (.dot :: .identifier x :: ts) ts
  | index {n : Int64} {ts : List Token} (h : 0 ≤ n) :
      Step ("[" ++ toString n.toInt ++ "]") (.openBracket :: .integer n :: .closeBracket :: ts) ts
  | every {ts : List Token} : Step "[*]" (.openBracket :: .star :: .closeBracket :: ts) ts

/-- As many steps as there are. -/
inductive Steps : String → List Token → List Token → Prop
  | done {ts : List Token} (h : ∀ s mid, ¬Step s ts mid) : Steps "" ts ts
  | cons {s s' : String} {ts mid rest : List Token} (h : Step s ts mid) (hs : Steps s' mid rest) :
      Steps (s ++ s') ts rest

/-! ### Expressions -/

mutual

/-- An expression of a level: 1 disjunctions, 2 conjunctions, 3 comparisons, 4 sums, 5 products,
6 signed expressions, 7 expressions with calls after them, 8 all others. -/
inductive Derives : Nat → Expr → List Token → List Token → Prop
  | single {n : Nat} {e : Expr} {ts rest : List Token} (hn : n < 8)
      (h : Derives (n + 1) e ts rest) : Derives n e ts rest
  | connect {n : Nat} {mark : Token} {k : Connective} {e : Expr} {es : List Expr}
      {ts mid rest : List Token} (hk : (n, mark, k) ∈ connectives) (h : Derives (n + 1) e ts mid)
      (hs : Operands n mark es mid rest) (hne : es ≠ []) : Derives n (.connect k (e :: es)) ts rest
  | compare {t : Token} {op : BinaryOp} {l r : Expr} {ts mid rest : List Token}
      (hop : (t, op) ∈ comparisons) (hl : Derives 4 l ts (t :: mid)) (hr : Derives 4 r mid rest) :
      Derives 3 (.binary op l r) ts rest
  | chain {n : Nat} {l e : Expr} {ts mid rest : List Token} (hn : n = 4 ∨ n = 5)
      (h : Derives (n + 1) l ts mid) (hs : Terms n l e mid rest) : Derives n e ts rest
  | not {e : Expr} {ts rest : List Token} (h : Derives 6 e ts rest) :
      Derives 6 (.not e) (.bang :: ts) rest
  | negateLong {n m : Int64} {ts rest : List Token} (h : Derives 6 (.literal (.long n)) ts rest)
      (hm : m.toInt = -n.toInt) : Derives 6 (.literal (.long m)) (.minus :: ts) rest
  | negateDouble {x : Float} {ts rest : List Token}
      (h : Derives 6 (.literal (.double x)) ts rest) :
      Derives 6 (.literal (.double (-x))) (.minus :: ts) rest
  | negate {e : Expr} {ts rest : List Token} (h : Derives 6 e ts rest) (he : isNumber e = false) :
      Derives 6 (.unary .negate e) (.minus :: ts) rest
  | calls {e r : Expr} {ts mid rest : List Token} (h : Derives 8 e ts mid)
      (hs : Calls e r mid rest) : Derives 7 r ts rest
  | constant {t : Token} {a : Atom} {rest : List Token} (h : Constant t a) :
      Derives 8 (.literal a) (t :: rest) rest
  | group {e : Expr} {ts rest : List Token} (h : Derives 1 e ts (.closeParen :: rest)) :
      Derives 8 e (.openParen :: ts) rest
  | function {op : UnaryOp} {e : Expr} {ts rest : List Token} (hop : op ∈ functions)
      (h : Arguments [e] ts rest) :
      Derives 8 (.unary op e) (.identifier op.name :: .openParen :: ts) rest
  | connective {k : Connective} {es : List Expr} {ts rest : List Token} (h : Arguments es ts rest)
      (hne : es ≠ []) : Derives 8 (.connect k es) (.identifier k.name :: .openParen :: ts) rest
  | field {x s : String} {ts rest : List Token} (h : Steps s ts rest) :
      Derives 8 (.field (x ++ s) none) (.identifier x :: ts) rest

/-- Further operands of one connective. -/
inductive Operands : Nat → Token → List Expr → List Token → List Token → Prop
  | nil {n : Nat} {mark : Token} {ts : List Token} : Operands n mark [] ts ts
  | cons {n : Nat} {mark : Token} {e : Expr} {es : List Expr} {ts mid rest : List Token}
      (h : Derives (n + 1) e ts mid) (hs : Operands n mark es mid rest) :
      Operands n mark (e :: es) (mark :: ts) rest

/-- Further operands after the left one, and all of it. -/
inductive Terms : Nat → Expr → Expr → List Token → List Token → Prop
  | nil {n : Nat} {e : Expr} {ts : List Token} : Terms n e e ts ts
  | cons {n : Nat} {t : Token} {op : BinaryOp} {l r e : Expr} {ts mid rest : List Token}
      (hop : (n, t, op) ∈ chains) (h : Derives (n + 1) r ts mid)
      (hs : Terms n (.binary op l r) e mid rest) : Terms n l e (t :: ts) rest

/-- Calls after a receiver, and all of it. -/
inductive Calls : Expr → Expr → List Token → List Token → Prop
  | nil {e : Expr} {ts : List Token} : Calls e e ts ts
  | cons {e e' r : Expr} {ts mid rest : List Token} (h : Method e e' ts mid)
      (hs : Calls e' r mid rest) : Calls e r (.dot :: ts) rest

inductive Method : Expr → Expr → List Token → List Token → Prop
  | test {e a : Expr} {op : BinaryOp} {ts rest : List Token} (hop : op.isMethod = true)
      (h : Arguments [a] ts rest) :
      Method e (.binary op e a) (.identifier op.symbol :: .openParen :: ts) rest
  | length {e : Expr} {rest : List Token} :
      Method e (.unary .length e) (.identifier "Length" :: .openParen :: .closeParen :: rest) rest
  | count {e : Expr} {rest : List Token} (he : e.isField = true) :
      Method e (.count e) (.identifier "Count" :: .openParen :: .closeParen :: rest) rest
  | quantifier {e b : Expr} {x : String} {ts rest : List Token} (q : Quantifier)
      (he : e.isField = true) (h : Derives 1 b ts (.closeParen :: rest)) :
      Method e (.quantifier q e x b)
        (.identifier q.name :: .openParen :: .identifier x :: .arrow :: ts) rest
  | aggregate {e b : Expr} {x : String} {ts rest : List Token} (op : AggregateOp)
      (he : e.isField = true) (h : Derives 1 b ts (.closeParen :: rest)) :
      Method e (.aggregate op e x b)
        (.identifier op.name :: .openParen :: .identifier x :: .arrow :: ts) rest

/-- Arguments and the parenthesis after them; a comma may follow the last. -/
inductive Arguments : List Expr → List Token → List Token → Prop
  | nil {rest : List Token} : Arguments [] (.closeParen :: rest) rest
  | last {e : Expr} {ts rest : List Token} (h : Derives 1 e ts (.closeParen :: rest)) :
      Arguments [e] ts rest
  | cons {e : Expr} {es : List Expr} {ts mid rest : List Token}
      (h : Derives 1 e ts (.comma :: mid)) (hs : Arguments es mid rest) :
      Arguments (e :: es) ts rest

end

theorem Operands.eq_of_nil {n : Nat} {mark : Token} {ts rest : List Token}
    (h : Operands n mark [] ts rest) : ts = rest := by
  cases h
  rfl

/-! ### What is left of the tokens -/

/-- Part of the end of a list, but not all of it. -/
def Shorter (rest ts : List Token) : Prop := ∃ t mid, ts = t :: mid ∧ rest <:+ mid

section

variable {t : Token} {ts mid rest : List Token}

theorem Shorter.of_suffix (h : rest <:+ ts) : Shorter rest (t :: ts) := ⟨t, ts, rfl, h⟩

theorem Shorter.suffix (h : Shorter rest ts) : rest <:+ ts := by
  obtain ⟨t, mid, rfl, h⟩ := h
  exact h.trans (List.suffix_cons t mid)

theorem Shorter.left (h : Shorter mid ts) (hr : rest <:+ mid) : Shorter rest ts := by
  obtain ⟨t, us, rfl, h⟩ := h
  exact .of_suffix (hr.trans h)

theorem Shorter.length_lt (h : Shorter rest ts) : rest.length < ts.length := by
  obtain ⟨t, mid, rfl, h⟩ := h
  exact Nat.lt_succ_of_le h.length_le

theorem Shorter.ne_nil (h : Shorter rest ts) : ts ≠ [] := by
  obtain ⟨t, mid, rfl, -⟩ := h
  exact List.cons_ne_nil t mid

theorem suffix_of_cons (h : t :: rest <:+ ts) : rest <:+ ts := (List.suffix_cons t rest).trans h

theorem Step.shorter {s : String} (h : Step s ts rest) : Shorter rest ts := by
  cases h with
  | member _ => exact .of_suffix (List.suffix_cons _ _)
  | index _ => exact .of_suffix ⟨[_, _], rfl⟩
  | every => exact .of_suffix ⟨[_, _], rfl⟩

theorem Steps.suffix {s : String} (h : Steps s ts rest) : rest <:+ ts := by
  induction h with
  | done _ => exact List.suffix_refl _
  | cons h _ ih => exact ih.trans h.shorter.suffix

end

mutual

theorem Derives.shorter {n : Nat} {e : Expr} {ts rest : List Token} (h : Derives n e ts rest) :
    Shorter rest ts := by
  match h with
  | .single _ h => exact h.shorter
  | .connect _ h hs _ => exact h.shorter.left hs.suffix
  | .compare _ hl hr => exact hl.shorter.left (hr.shorter.suffix.trans (List.suffix_cons _ _))
  | .chain _ h hs => exact h.shorter.left hs.suffix
  | .not h => exact .of_suffix h.shorter.suffix
  | .negateLong h _ => exact .of_suffix h.shorter.suffix
  | .negateDouble h => exact .of_suffix h.shorter.suffix
  | .negate h _ => exact .of_suffix h.shorter.suffix
  | .calls h hs => exact h.shorter.left hs.suffix
  | .constant _ => exact .of_suffix (List.suffix_refl _)
  | .group h => exact .of_suffix (suffix_of_cons h.shorter.suffix)
  | .function _ h => exact .of_suffix (h.shorter.suffix.trans (List.suffix_cons _ _))
  | .connective h _ => exact .of_suffix (h.shorter.suffix.trans (List.suffix_cons _ _))
  | .field h => exact .of_suffix h.suffix

theorem Operands.suffix {n : Nat} {mark : Token} {es : List Expr} {ts rest : List Token}
    (h : Operands n mark es ts rest) : rest <:+ ts := by
  match h with
  | .nil => exact List.suffix_refl _
  | .cons h hs => exact (h.shorter.left hs.suffix).suffix.trans (List.suffix_cons _ _)

theorem Terms.suffix {n : Nat} {l e : Expr} {ts rest : List Token} (h : Terms n l e ts rest) :
    rest <:+ ts := by
  match h with
  | .nil => exact List.suffix_refl _
  | .cons _ h hs => exact (h.shorter.left hs.suffix).suffix.trans (List.suffix_cons _ _)

theorem Calls.suffix {e r : Expr} {ts rest : List Token} (h : Calls e r ts rest) :
    rest <:+ ts := by
  match h with
  | .nil => exact List.suffix_refl _
  | .cons h hs => exact (h.shorter.left hs.suffix).suffix.trans (List.suffix_cons _ _)

theorem Method.shorter {e r : Expr} {ts rest : List Token} (h : Method e r ts rest) :
    Shorter rest ts := by
  match h with
  | .test _ h => exact .of_suffix (h.shorter.suffix.trans (List.suffix_cons _ _))
  | .length => exact .of_suffix ⟨[_, _], rfl⟩
  | .count _ => exact .of_suffix ⟨[_, _], rfl⟩
  | .quantifier _ _ h => exact .of_suffix ((suffix_of_cons h.shorter.suffix).trans ⟨[_, _, _], rfl⟩)
  | .aggregate _ _ h => exact .of_suffix ((suffix_of_cons h.shorter.suffix).trans ⟨[_, _, _], rfl⟩)

theorem Arguments.shorter {es : List Expr} {ts rest : List Token} (h : Arguments es ts rest) :
    Shorter rest ts := by
  match h with
  | .nil => exact .of_suffix (List.suffix_refl _)
  | .last h => exact h.shorter.left (List.suffix_cons _ _)
  | .cons h hs => exact h.shorter.left (hs.shorter.suffix.trans (List.suffix_cons _ _))

end

end Quarry.Expr
