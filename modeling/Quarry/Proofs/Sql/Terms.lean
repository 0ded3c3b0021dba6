import Mathlib.Data.List.Forall2
import Quarry.Proofs.Expr.Soundness
import Quarry.Sql

/-!
Conditions as trees. A term is SQL with the parentheses that are written, and an expression has a
term whose text is its condition.
-/

namespace Quarry.Sql

open Expr.Parser (bind_eq_ok)

inductive Operator where
  | or
  | and
  | equal
  | notEqual
  | less
  | lessEqual
  | greater
  | greaterEqual
  | add
  | subtract
  | multiply
  | divide
  | modulo
deriving Repr, DecidableEq

namespace Operator

def symbol : Operator → String
  | or => "OR"
  | and => "AND"
  | equal => "="
  | notEqual => "<>"
  | less => "<"
  | lessEqual => "<="
  | greater => ">"
  | greaterEqual => ">="
  | add => "+"
  | subtract => "-"
  | multiply => "*"
  | divide => "/"
  | modulo => "%"

end Operator

inductive Term where
  /-- The column, or the value of a row. -/
  | place (base : String)
  | number (text : String)
  | string (value : String)
  | constant (name : String)
  | star
  | blank
  | call (function : String) (arguments : Term)
  | both (argument rest : Term)
  | group (inner : Term)
  | minus (operand : Term)
  | not (operand : Term)
  | infixed (op : Operator) (left right : Term)
  /-- `IS NULL`, or `IS NOT NULL`. -/
  | nullTest (isNull : Bool) (operand : Term)
  | select (value source : Term) (row : String)
  | selectWhere (value source : Term) (row : String) (predicate : Term)
deriving Repr, DecidableEq

namespace Term

def spaced (a b : String) : String := a ++ " " ++ b

def text : Term → String
  | .place base => base
  | .number text => text
  | .string value => quote value
  | .constant name => name
  | .star => "*"
  | .blank => ""
  | .call f a => f ++ ("(" ++ a.text ++ ")")
  | .both a b => spaced (a.text ++ ",") b.text
  | .group a => "(" ++ a.text ++ ")"
  | .minus a => "-" ++ a.text
  | .not a => spaced "NOT" a.text
  | .infixed op l r => spaced l.text (spaced op.symbol r.text)
  | .nullTest isNull a => spaced a.text (if isNull then "IS NULL" else "IS NOT NULL")
  | .select v s r =>
    spaced "SELECT" (spaced v.text (spaced "FROM" (spaced s.text (spaced "AS" r))))
  | .selectWhere v s r p =>
    spaced "SELECT" (spaced v.text (spaced "FROM" (spaced s.text (spaced "AS"
      (spaced r (spaced "WHERE" p.text))))))

/-! ### The terms of expressions -/

/-- A call on a place. -/
def callOn (function base : String) (steps : List Segment) : Term :=
  if steps.isEmpty then .call function (.place base)
  else .call function (.both (.place base) (.string (jsonPath steps)))

def signed (isNegative : Bool) (magnitude : String) : Term :=
  if isNegative then .minus (.number magnitude) else .number magnitude

def magnitude (x : Float) : String :=
  if x.isNaN then "NaN"
  else if x.isInf then "inf"
  else Scalar.numberLayout.magnitude (Numeral.Dyadic.ofFloat x)

def literal : Atom → Term
  | .string s => .string s
  | .double x => signed (!x.isNaN && Numeral.isNegative x) (magnitude x)
  | .long n => signed (n.toInt < 0) (toString n.toInt.natAbs)
  | .bool true => .constant "TRUE"
  | .bool false => .constant "FALSE"
  | .null => .constant "NULL"

def unary (op : UnaryOp) (value : Term) : Term :=
  match op with
  | .abs => .call "abs" value
  | .ceiling => .call "ceil" value
  | .floor => .call "floor" value
  | .exp => .call "exp" value
  | .log => .call "ln" value
  | .sqrt => .call "sqrt" value
  | .negate => .minus (.group value)
  | .length => .call "length" value

def binary (op : BinaryOp) (l r : Term) : Term :=
  .group <|
    match op with
    | .contains => .infixed .greater (.call "instr" (.both l r)) (.number "0")
    | .startsWith =>
      .infixed .equal (.call "substr" (.both l (.both (.number "1") (.call "length" r)))) r
    | .endsWith => .infixed .equal (.call "substr" (.both l (.minus (.call "length" r)))) r
    | .equal => .infixed .equal l r
    | .notEqual => .infixed .notEqual l r
    | .lessThan => .infixed .less l r
    | .lessThanOrEqual => .infixed .lessEqual l r
    | .greaterThan => .infixed .greater l r
    | .greaterThanOrEqual => .infixed .greaterEqual l r
    | .add => .infixed .add l r
    | .subtract => .infixed .subtract l r
    | .multiply => .infixed .multiply l r
    | .divide => .infixed .divide l r
    | .modulo => .infixed .modulo l r

def testsNull? (op : BinaryOp) (right : Expr) : Option Bool :=
  match op, right with
  | .equal, .literal .null => some true
  | .notEqual, .literal .null => some false
  | _, _ => none

def connector : Connective → Operator
  | .and => .and
  | .or => .or

def connective (k : Connective) : List Term → Term
  | [] => .group .blank
  | m :: ms => .group (ms.foldl (.infixed (connector k)) m)

def aggregate (op : AggregateOp) (source : Term) (row : String) (value : Term) : Term :=
  let function := match op with
    | .min => "MIN"
    | .max => "MAX"
    | .sum => "SUM"
    | .average => "AVG"
  .group (.select (.call function value) source row)

def quantifier (q : Quantifier) (source : Term) (row : String) (predicate : Term) : Term :=
  match q with
  | .any => .call "EXISTS" (.selectWhere (.number "1") source row predicate)
  | .all => .not (.call "EXISTS" (.selectWhere (.number "1") source row (.not (.group predicate))))
  | .count => .group (.selectWhere (.call "COUNT" .star) source row predicate)

end Term

def fieldTerm (t : Table) (scope : Scope) (e : Expr) : Except Error Term := do
  let (base, steps) ← locate t scope e
  return if steps.isEmpty then .place base else .callOn "json_extract" base steps

/-- A call on the place that a field leads to. -/
def placeTerm (function : String) (t : Table) (scope : Scope) (e : Expr) : Except Error Term := do
  let (base, steps) ← locate t scope e
  return .callOn function base steps

mutual

/-- The term of an expression. -/
def term (t : Table) (scope : Scope) : Expr → Except Error Term
  | .field name path => fieldTerm t scope (.field name path)
  | .literal a => .ok (.literal a)
  | .unary op e => do
    return .unary op (← term t scope e)
  | .binary op l r => do
    let left ← term t scope l
    match Term.testsNull? op r with
    | some isNull => return .group (.nullTest isNull left)
    | none => return .binary op left (← term t scope r)
  | .connect k es => do
    return .connective k (← terms t scope es)
  | .not e => do
    return .not (.group (← term t scope e))
  | .count f => placeTerm "json_array_length" t scope f
  | .quantifier q f x b => do
    let source ← placeTerm "json_each" t scope f
    return .quantifier q source (row (x :: scope)) (← term t (x :: scope) b)
  | .aggregate op f x b => do
    let source ← placeTerm "json_each" t scope f
    return .aggregate op source (row (x :: scope)) (← term t (x :: scope) b)

def terms (t : Table) (scope : Scope) : List Expr → Except Error (List Term)
  | [] => .ok []
  | e :: es => do
    return (← term t scope e) :: (← terms t scope es)

end

/-! ### Their texts -/

namespace Term

theorem toString_self (s : String) : toString s = s := rfl

theorem text_callOn (function base : String) (steps : List Segment) :
    (callOn function base steps).text = Sql.call function base steps := by
  apply String.toList_inj.1
  rw [callOn, Sql.call]
  split
  · simp [text, toString_self]
  · simp [text, spaced, toString_self]

theorem text_signed (isNegative : Bool) (magnitude : String) :
    (signed isNegative magnitude).text = (if isNegative then "-" else "") ++ magnitude := by
  rw [signed]
  split
  · rfl
  · exact String.empty_append.symm

theorem text_literal (a : Atom) : (literal a).text = Sql.literal a := by
  cases a with
  | null => rfl
  | bool b => cases b <;> rfl
  | string s => rfl
  | long n =>
    rw [literal, Sql.literal, text_signed]
    cases n.toInt with
    | ofNat m => exact String.empty_append
    | negSucc m =>
      rw [decide_eq_true (Int.negSucc_lt_zero m)]
      rfl
  | double x =>
    rw [literal, Sql.literal, text_signed, magnitude, Numeral.Layout.write]
    by_cases hnan : x.isNaN = true
    · rw [if_pos hnan, if_pos hnan, hnan, Bool.not_true, Bool.false_and, if_neg Bool.false_ne_true,
        String.empty_append]
    · rw [if_neg hnan, if_neg hnan, Bool.eq_false_iff.2 hnan, Bool.not_false, Bool.true_and]
      by_cases hinf : x.isInf = true
      · rw [if_pos hinf, if_pos hinf]
        split
        · rfl
        · exact String.empty_append
      · rw [if_neg hinf, if_neg hinf, Numeral.Layout.finite]

theorem text_unary (op : UnaryOp) (value : Term) :
    (unary op value).text = Sql.unary op value.text := by
  apply String.toList_inj.1
  cases op <;> simp [unary, Sql.unary, text, toString_self]

theorem text_binary (op : BinaryOp) (l r : Term) :
    (binary op l r).text = Sql.binary op l.text r.text := by
  apply String.toList_inj.1
  unfold Sql.binary
  cases op <;> simp [binary, Sql.infixed, Operator.symbol, BinaryOp.symbol, text, spaced,
    toString_self]

theorem nullTest?_eq (op : BinaryOp) (r : Expr) : nullTest? op r =
    (testsNull? op r).map fun isNull => if isNull then "IS NULL" else "IS NOT NULL" := by
  cases r with
  | literal a => cases op <;> cases a <;> rfl
  | _ => cases op <;> rfl

theorem testsNull?_eq_some {op : BinaryOp} {r : Expr} {isNull : Bool}
    (h : testsNull? op r = some isNull) :
    r = .literal .null ∧ op = if isNull then .equal else .notEqual := by
  unfold testsNull? at h
  split at h
  · cases h
    exact ⟨rfl, rfl⟩
  · cases h
    exact ⟨rfl, rfl⟩
  · cases h

theorem intercalate_append (mark a b : String) (ss : List String) :
    mark.intercalate ((a ++ mark ++ b) :: ss) = a ++ mark ++ mark.intercalate (b :: ss) := by
  cases ss with
  | nil => rw [String.intercalate_singleton, String.intercalate_singleton]
  | cons s ss =>
    rw [String.intercalate_cons_cons, String.intercalate_cons_cons]
    simp only [String.append_assoc]

theorem text_foldl (op : Operator) (m : Term) (ms : List Term) :
    (ms.foldl (.infixed op) m).text =
      (" " ++ op.symbol ++ " ").intercalate (m.text :: ms.map text) := by
  induction ms generalizing m with
  | nil => exact String.intercalate_singleton.symm
  | cons n ms ih =>
    have htext : (infixed op m n).text = m.text ++ (" " ++ op.symbol ++ " ") ++ n.text := by
      simp only [text, spaced, String.append_assoc]
    rw [List.foldl_cons, ih, htext, intercalate_append, List.map_cons,
      String.intercalate_cons_cons]

theorem text_connective (k : Connective) (ms : List Term) :
    (connective k ms).text = Sql.connective k (ms.map text) := by
  have hmark : Sql.connective k (ms.map text) =
      "(" ++ (" " ++ (connector k).symbol ++ " ").intercalate (ms.map text) ++ ")" := by
    cases k <;> rfl
  rw [hmark]
  cases ms with
  | nil => rfl
  | cons m ms => rw [connective, text, text_foldl, List.map_cons]

theorem text_nullTest (isNull : Bool) (m : Term) :
    let test := if isNull then "IS NULL" else "IS NOT NULL"
    (group (.nullTest isNull m)).text = s!"({m.text} {test})" := by
  apply String.toList_inj.1
  simp [text, spaced, toString_self]

theorem text_not_group (m : Term) : (Term.not (.group m)).text = "NOT (" ++ m.text ++ ")" := by
  apply String.toList_inj.1
  simp [text, spaced]

theorem text_aggregate (op : AggregateOp) (source : Term) (row : String) (value : Term) :
    (aggregate op source row value).text = Sql.aggregate op source.text row value.text := by
  apply String.toList_inj.1
  unfold Sql.aggregate
  cases op <;> simp [aggregate, text, spaced, toString_self]

theorem text_quantifier (q : Quantifier) (source : Term) (row : String) (predicate : Term) :
    (quantifier q source row predicate).text =
      Sql.quantifier q source.text row predicate.text := by
  apply String.toList_inj.1
  unfold Sql.quantifier
  cases q <;> simp [quantifier, text, spaced, toString_self]

end Term

theorem fieldTerm_text (t : Table) (scope : Scope) (e : Expr) :
    field t scope e = (fieldTerm t scope e).map Term.text := by
  rw [field, fieldTerm]
  cases locate t scope e with
  | error err => rfl
  | ok p =>
    obtain ⟨base, steps⟩ := p
    show Except.ok (if steps.isEmpty then base else call "json_extract" base steps) =
      Except.ok (Term.text (if steps.isEmpty then .place base else .callOn "json_extract" base steps))
    split
    · rfl
    · rw [Term.text_callOn]

theorem placeTerm_text (function : String) (t : Table) (scope : Scope) (e : Expr) :
    (placeTerm function t scope e).map Term.text =
      (locate t scope e).map fun p => call function p.1 p.2 := by
  rw [placeTerm]
  cases locate t scope e with
  | error err => rfl
  | ok p => exact congrArg Except.ok (Term.text_callOn function p.1 p.2)

theorem rows_eq (t : Table) (scope : Scope) (e : Expr) :
    rows t scope e = (placeTerm "json_each" t scope e).map Term.text := by
  rw [placeTerm_text, rows]
  cases locate t scope e <;> rfl

mutual

theorem condition_eq (t : Table) : (e : Expr) → (scope : Scope) →
    condition t scope e = (term t scope e).map Term.text
  | .field name path, scope => fieldTerm_text t scope (.field name path)
  | .literal a, _ => congrArg Except.ok (Term.text_literal a).symm
  | .unary op e, scope => by
    rw [condition, term, condition_eq t e scope]
    cases term t scope e with
    | error err => rfl
    | ok m => exact congrArg Except.ok (Term.text_unary op m).symm
  | .binary op l r, scope => by
    rw [condition, term, condition_eq t l scope, condition_eq t r scope, Term.nullTest?_eq]
    cases term t scope l with
    | error err => rfl
    | ok left =>
      cases Term.testsNull? op r with
      | some isNull => exact congrArg Except.ok (Term.text_nullTest isNull left).symm
      | none =>
        cases term t scope r with
        | error err => rfl
        | ok right => exact congrArg Except.ok (Term.text_binary op left right).symm
  | .connect k es, scope => by
    rw [condition, term, conditions_eq t es scope]
    cases terms t scope es with
    | error err => rfl
    | ok ms => exact congrArg Except.ok (Term.text_connective k ms).symm
  | .not e, scope => by
    rw [condition, term, condition_eq t e scope]
    cases term t scope e with
    | error err => rfl
    | ok m => exact congrArg Except.ok (Term.text_not_group m).symm
  | .count f, scope => by
    rw [condition, term, placeTerm_text]
    cases locate t scope f <;> rfl
  | .quantifier q f x b, scope => by
    rw [condition, term, condition_eq t b (x :: scope), rows_eq]
    cases placeTerm "json_each" t scope f with
    | error err => rfl
    | ok source =>
      cases term t (x :: scope) b with
      | error err => rfl
      | ok m => exact congrArg Except.ok (Term.text_quantifier q source _ m).symm
  | .aggregate op f x b, scope => by
    rw [condition, term, condition_eq t b (x :: scope), rows_eq]
    cases placeTerm "json_each" t scope f with
    | error err => rfl
    | ok source =>
      cases term t (x :: scope) b with
      | error err => rfl
      | ok m => exact congrArg Except.ok (Term.text_aggregate op source _ m).symm

theorem conditions_eq (t : Table) : (es : List Expr) → (scope : Scope) →
    conditions t scope es = (terms t scope es).map (List.map Term.text)
  | [], _ => rfl
  | e :: es, scope => by
    rw [conditions, terms, condition_eq t e scope, conditions_eq t es scope]
    cases term t scope e with
    | error err => rfl
    | ok m => cases terms t scope es <;> rfl

end

/-! ### Induction -/

/-- A property that expressions and their terms have when their parts have it. -/
structure Inherited (t : Table) (P : Scope → Expr → Term → Prop) : Prop where
  field {scope : Scope} {name : String} {path : Option Path} {base : String}
    {steps : List Segment} (h : locate t scope (.field name path) = .ok (base, steps)) :
    P scope (.field name path)
      (if steps.isEmpty then .place base else .callOn "json_extract" base steps)
  literal {scope : Scope} (a : Atom) : P scope (.literal a) (.literal a)
  unary {scope : Scope} {e : Expr} {m : Term} (op : UnaryOp) (h : P scope e m) :
    P scope (.unary op e) (.unary op m)
  binary {scope : Scope} {l r : Expr} {left right : Term} (op : BinaryOp)
    (hl : P scope l left) (hr : P scope r right) : P scope (.binary op l r) (.binary op left right)
  nullTest {scope : Scope} {l : Expr} {left : Term} (isNull : Bool) (hl : P scope l left) :
    P scope (.binary (if isNull then .equal else .notEqual) l (.literal .null))
      (.group (.nullTest isNull left))
  connect {scope : Scope} {es : List Expr} {ms : List Term} (k : Connective)
    (h : List.Forall₂ (P scope) es ms) : P scope (.connect k es) (.connective k ms)
  not {scope : Scope} {e : Expr} {m : Term} (h : P scope e m) :
    P scope (.not e) (.not (.group m))
  count {scope : Scope} {f : Expr} {base : String} {steps : List Segment}
    (h : locate t scope f = .ok (base, steps)) :
    P scope (.count f) (.callOn "json_array_length" base steps)
  quantifier {scope : Scope} {f b : Expr} {x base : String} {steps : List Segment} {m : Term}
    (q : Quantifier) (h : locate t scope f = .ok (base, steps)) (hb : P (x :: scope) b m) :
    P scope (.quantifier q f x b)
      (.quantifier q (.callOn "json_each" base steps) (row (x :: scope)) m)
  aggregate {scope : Scope} {f b : Expr} {x base : String} {steps : List Segment} {m : Term}
    (op : AggregateOp) (h : locate t scope f = .ok (base, steps)) (hb : P (x :: scope) b m) :
    P scope (.aggregate op f x b)
      (.aggregate op (.callOn "json_each" base steps) (row (x :: scope)) m)

section

variable {t : Table} {P : Scope → Expr → Term → Prop}

mutual

theorem Inherited.term (hP : Inherited t P) : (e : Expr) → ∀ {scope : Scope} {m : Term},
    term t scope e = .ok m → P scope e m
  | .field name path, _, _, h => by
    obtain ⟨⟨base, steps⟩, hbase, h⟩ := bind_eq_ok.1 h
    cases h
    exact hP.field hbase
  | .literal a, _, _, h => by
    cases h
    exact hP.literal a
  | .unary op e, _, _, h => by
    obtain ⟨m, hm, h⟩ := bind_eq_ok.1 h
    cases h
    exact hP.unary op (hP.term e hm)
  | .binary op l r, scope, _, h => by
    obtain ⟨left, hl, h⟩ := bind_eq_ok.1 h
    cases htest : Term.testsNull? op r with
    | some isNull =>
      rw [htest] at h
      cases h
      obtain ⟨rfl, rfl⟩ := Term.testsNull?_eq_some htest
      exact hP.nullTest isNull (hP.term l hl)
    | none =>
      rw [htest] at h
      obtain ⟨right, hr, h⟩ := bind_eq_ok.1 h
      cases h
      exact hP.binary op (hP.term l hl) (hP.term r hr)
  | .aggregate op f x b, _, _, h => by
    obtain ⟨source, hsource, h⟩ := bind_eq_ok.1 h
    obtain ⟨value, hvalue, h⟩ := bind_eq_ok.1 h
    obtain ⟨⟨base, steps⟩, hbase, hsource⟩ := bind_eq_ok.1 hsource
    cases h
    cases hsource
    exact hP.aggregate op hbase (hP.term b hvalue)
  | .count f, _, _, h => by
    obtain ⟨⟨base, steps⟩, hbase, h⟩ := bind_eq_ok.1 h
    cases h
    exact hP.count hbase
  | .connect k es, _, _, h => by
    obtain ⟨ms, hms, h⟩ := bind_eq_ok.1 h
    cases h
    exact hP.connect k (hP.terms es hms)
  | .not e, _, _, h => by
    obtain ⟨m, hm, h⟩ := bind_eq_ok.1 h
    cases h
    exact hP.not (hP.term e hm)
  | .quantifier q f x b, _, _, h => by
    obtain ⟨source, hsource, h⟩ := bind_eq_ok.1 h
    obtain ⟨predicate, hpredicate, h⟩ := bind_eq_ok.1 h
    obtain ⟨⟨base, steps⟩, hbase, hsource⟩ := bind_eq_ok.1 hsource
    cases h
    cases hsource
    exact hP.quantifier q hbase (hP.term b hpredicate)

theorem Inherited.terms (hP : Inherited t P) : (es : List Expr) →
    ∀ {scope : Scope} {ms : List Term}, terms t scope es = .ok ms →
    List.Forall₂ (P scope) es ms
  | [], _, _, h => by
    cases h
    exact .nil
  | e :: es, _, _, h => by
    obtain ⟨m, hm, h⟩ := bind_eq_ok.1 h
    obtain ⟨ms, hms, h⟩ := bind_eq_ok.1 h
    cases h
    exact .cons (hP.term e hm) (hP.terms es hms)

end

end

end Quarry.Sql
