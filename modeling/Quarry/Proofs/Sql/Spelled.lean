import Quarry.Proofs.Sql.Places
import Quarry.Proofs.Sql.Tokens

/-!
The tokens of terms. Whatever a literal holds, the text of a term falls into the tokens that can
be told from the term alone.
-/

namespace Quarry.Sql

namespace Operator

def token : Operator → Token
  | or => .word "OR"
  | and => .word "AND"
  | op => .sign op.symbol

theorem lex_symbol (op : Operator) : lex op.symbol = some [op.token] := by
  cases op <;> rfl

end Operator

namespace Term

def tokens : Term → List Token
  | .place base => (lex base).getD []
  | .number text => (lex text).getD []
  | .string value => [.string value]
  | .constant name => [.word name]
  | .star => [.sign "*"]
  | .blank => []
  | .call f a => .word f :: .sign "(" :: (a.tokens ++ [.sign ")"])
  | .both a b => a.tokens ++ .sign "," :: b.tokens
  | .group a => .sign "(" :: (a.tokens ++ [.sign ")"])
  | .minus a => .sign "-" :: a.tokens
  | .not a => .word "NOT" :: a.tokens
  | .infixed op l r => l.tokens ++ op.token :: r.tokens
  | .nullTest isNull a =>
    a.tokens ++ .word "IS" :: if isNull then [.word "NULL"] else [.word "NOT", .word "NULL"]
  | .select v s r =>
    .word "SELECT" :: (v.tokens ++ .word "FROM" :: (s.tokens ++ [.word "AS", .word r]))
  | .selectWhere v s r p =>
    .word "SELECT" :: (v.tokens ++ .word "FROM" ::
      (s.tokens ++ .word "AS" :: .word r :: .word "WHERE" :: p.tokens))

/-- Names and numbers are whole tokens, and nothing joins the minus sign before it. -/
def Whole : Term → Prop
  | .place base => (lex base).isSome = true
  | .number text => (lex text).isSome = true
  | .string _ => True
  | .constant name => lex name = some [.word name]
  | .star => True
  | .blank => True
  | .call f a => lex f = some [.word f] ∧ a.Whole
  | .both a b => a.Whole ∧ b.Whole
  | .group a => a.Whole
  | .minus a => a.Whole ∧ ∀ c ∈ a.text.toList.head?, c ≠ '-' ∧ c ≠ '>'
  | .not a => a.Whole
  | .infixed _ l r => l.Whole ∧ r.Whole
  | .nullTest _ a => a.Whole
  | .select v s r => v.Whole ∧ s.Whole ∧ lex r = some [.word r]
  | .selectWhere v s r p => v.Whole ∧ s.Whole ∧ lex r = some [.word r] ∧ p.Whole

theorem lex_spaced {a b : String} {ts us : List Token} (ha : lex a = some ts)
    (hb : lex b = some us) : lex (spaced a b) = some (ts ++ us) := by
  rw [spaced, String.append_assoc]
  exact lex_append ha (lex_blank hb) (apart_blank b)

theorem lex_group {a : String} {ts : List Token} (h : lex a = some ts) :
    lex ("(" ++ a ++ ")") = some (.sign "(" :: (ts ++ [.sign ")"])) := by
  have hclose : lex ")" = some [.sign ")"] := rfl
  exact lex_append (lex_open h) hclose apart_close

theorem lex_zero : lex "0" = some [.number "0"] := rfl

theorem lex_one : lex "1" = some [.number "1"] := rfl

theorem lex_select : lex "SELECT" = some [.word "SELECT"] := rfl

theorem lex_from : lex "FROM" = some [.word "FROM"] := rfl

theorem lex_as : lex "AS" = some [.word "AS"] := rfl

theorem lex_text {m : Term} (h : m.Whole) : lex m.text = some m.tokens := by
  induction m with
  | place base =>
    obtain ⟨ts, hts⟩ := Option.isSome_iff_exists.1 h
    rw [text, tokens, hts, Option.getD_some]
  | number s =>
    obtain ⟨ts, hts⟩ := Option.isSome_iff_exists.1 h
    rw [text, tokens, hts, Option.getD_some]
  | string value => exact Lexer.lex_quote value
  | constant name => exact h
  | star => rfl
  | blank => rfl
  | call f a ih =>
    refine lex_append h.1 (lex_group (ih h.2)) ?_
    rw [String.append_assoc]
    exact apart_open _
  | both a b iha ihb =>
    have hcomma : lex (a.text ++ ",") = some (a.tokens ++ [.sign ","]) :=
      lex_append (iha h.1) rfl apart_comma
    have hboth := lex_spaced hcomma (ihb h.2)
    rwa [List.append_assoc] at hboth
  | group a ih => exact lex_group (ih h)
  | minus a ih => exact lex_minus (ih h.1) h.2
  | not a ih =>
    have hnot : lex "NOT" = some [.word "NOT"] := rfl
    exact lex_spaced hnot (ih h)
  | infixed op l r ihl ihr =>
    exact lex_spaced (ihl h.1) (lex_spaced op.lex_symbol (ihr h.2))
  | nullTest isNull a ih =>
    cases isNull with
    | true =>
      have htest : lex "IS NULL" = some [.word "IS", .word "NULL"] := rfl
      exact lex_spaced (ih h) htest
    | false =>
      have htest : lex "IS NOT NULL" = some [.word "IS", .word "NOT", .word "NULL"] := rfl
      exact lex_spaced (ih h) htest
  | select v s r ihv ihs =>
    obtain ⟨hv, hs, hr⟩ := h
    exact lex_spaced lex_select (lex_spaced (ihv hv) (lex_spaced lex_from
      (lex_spaced (ihs hs) (lex_spaced lex_as hr))))
  | selectWhere v s r p ihv ihs ihp =>
    obtain ⟨hv, hs, hr, hp⟩ := h
    have hwhere : lex "WHERE" = some [.word "WHERE"] := rfl
    exact lex_spaced lex_select (lex_spaced (ihv hv) (lex_spaced lex_from
      (lex_spaced (ihs hs) (lex_spaced lex_as (lex_spaced hr (lex_spaced hwhere (ihp hp)))))))

/-! ### Terms of expressions -/

theorem head?_of_cons {s : String} {c : Char} {cs : List Char} (hs : s.toList = c :: cs)
    (hc : c ≠ '-' ∧ c ≠ '>') : ∀ d ∈ s.toList.head?, d ≠ '-' ∧ d ≠ '>' := by
  rw [hs]
  rintro _ ⟨⟩
  exact hc

theorem head?_append {a b : String} {c : Char} {cs : List Char} (ha : a.toList = c :: cs)
    (hc : c ≠ '-' ∧ c ≠ '>') : ∀ d ∈ (a ++ b).toList.head?, d ≠ '-' ∧ d ≠ '>' :=
  head?_of_cons (by rw [String.toList_append, ha, List.cons_append]) hc

theorem whole_callOn {function base : String} (steps : List Segment)
    (hf : lex function = some [.word function]) (hbase : (lex base).isSome = true) :
    (callOn function base steps).Whole := by
  rw [callOn]
  split
  · exact ⟨hf, hbase⟩
  · exact ⟨hf, hbase, trivial⟩

/-- Digits, or one of the words for what is not finite. -/
theorem whole_signed (isNegative : Bool) {magnitude : String}
    (h : magnitude = "NaN" ∨ magnitude = "inf" ∨ ∃ b, Json.Unsigned magnitude.toList b) :
    (signed isNegative magnitude).Whole := by
  have hplain : (number magnitude).Whole ∧
      ∀ c ∈ magnitude.toList.head?, c ≠ '-' ∧ c ≠ '>' := by
    rcases h with rfl | rfl | ⟨b, h⟩
    · exact ⟨rfl, head?_of_cons (c := 'N') rfl (by decide)⟩
    · exact ⟨rfl, head?_of_cons (c := 'i') rfl (by decide)⟩
    · constructor
      · have hlex := Lexer.lex_unsigned h
        rw [String.ofList_toList] at hlex
        rw [Whole, hlex, Option.isSome_some]
      · obtain ⟨c, hc, hdigit⟩ := Json.Unsigned.head?_isDigit h
        rw [hc]
        rintro _ ⟨⟩
        constructor
        · rintro rfl
          cases hdigit
        · rintro rfl
          cases hdigit
  rw [signed]
  split
  · exact hplain
  · exact hplain.1

theorem whole_literal (a : Atom) : (literal a).Whole := by
  cases a with
  | null => rfl
  | bool b => cases b <;> rfl
  | string s => trivial
  | long n =>
    apply whole_signed
    refine .inr (.inr ⟨true, ?_⟩)
    rw [Numeral.toList_toString]
    exact Json.unsigned_toDigits _
  | double x =>
    apply whole_signed
    rw [magnitude]
    split
    · exact .inl rfl
    · split
      · exact .inr (.inl rfl)
      · exact .inr (.inr ⟨false, Json.unsigned_magnitude _ _⟩)

theorem whole_unary (op : UnaryOp) {value : Term} (h : value.Whole) : (unary op value).Whole := by
  cases op with
  | negate =>
    refine ⟨h, ?_⟩
    rw [text, String.append_assoc]
    exact head?_append (c := '(') rfl (by decide)
  | _ => exact ⟨rfl, h⟩

theorem whole_binary (op : BinaryOp) {l r : Term} (hl : l.Whole) (hr : r.Whole) :
    (binary op l r).Whole := by
  cases op with
  | contains => exact ⟨⟨rfl, hl, hr⟩, rfl⟩
  | startsWith => exact ⟨⟨rfl, hl, rfl, rfl, hr⟩, hr⟩
  | endsWith => exact ⟨⟨rfl, hl, ⟨rfl, hr⟩, head?_append (c := 'l') rfl (by decide)⟩, hr⟩
  | _ => exact ⟨hl, hr⟩

theorem whole_foldl (op : Operator) {m : Term} {ms : List Term} (hm : m.Whole)
    (hms : ∀ n ∈ ms, n.Whole) : (ms.foldl (.infixed op) m).Whole := by
  induction ms generalizing m with
  | nil => exact hm
  | cons n ms ih =>
    obtain ⟨hn, hms⟩ := List.forall_mem_cons.1 hms
    exact ih ⟨hm, hn⟩ hms

theorem whole_connective (k : Connective) {ms : List Term} (h : ∀ m ∈ ms, m.Whole) :
    (connective k ms).Whole := by
  cases ms with
  | nil => trivial
  | cons m ms =>
    obtain ⟨hm, hms⟩ := List.forall_mem_cons.1 h
    exact whole_foldl (connector k) hm hms

theorem whole_aggregate (op : AggregateOp) {source value : Term} (scope : Scope)
    (hs : source.Whole) (hv : value.Whole) : (aggregate op source (row scope) value).Whole := by
  cases op <;> exact ⟨⟨rfl, hv⟩, hs, lex_row scope⟩

theorem whole_quantifier (q : Quantifier) {source predicate : Term} (scope : Scope)
    (hs : source.Whole) (hp : predicate.Whole) :
    (quantifier q source (row scope) predicate).Whole := by
  cases q with
  | any => exact ⟨rfl, rfl, hs, lex_row scope, hp⟩
  | all => exact ⟨rfl, rfl, hs, lex_row scope, hp⟩
  | count => exact ⟨⟨rfl, trivial⟩, hs, lex_row scope, hp⟩

end Term

theorem row?_eq_some {arg r : String} {scope : Scope} (h : row? arg scope = some r) :
    ∃ inner, r = row inner := by
  induction scope with
  | nil => cases h
  | cons x scope ih =>
    rw [row?] at h
    split at h
    · exact ⟨_, (Option.some.inj h).symm⟩
    · exact ih h

theorem column_or_row {t : Table} {scope : Scope} {f : Expr} {base : String} {steps : List Segment}
    (h : locate t scope f = .ok (base, steps)) :
    base = t.column ∨ ∃ inner, base = row inner ++ ".value" := by
  obtain ⟨arg, -, -, hbase⟩ := locate_eq_ok h
  rw [base?] at hbase
  split at hbase
  · rename_i r hr
    obtain ⟨inner, rfl⟩ := row?_eq_some hr
    exact .inr ⟨inner, (Option.some.inj hbase).symm⟩
  · split at hbase
    · exact .inl (Option.some.inj hbase).symm
    · cases hbase

theorem isSome_lex_base {t : Table} (hcolumn : (lex t.column).isSome = true) {scope : Scope}
    {f : Expr} {base : String} {steps : List Segment}
    (h : locate t scope f = .ok (base, steps)) : (lex base).isSome = true := by
  rcases column_or_row h with rfl | ⟨inner, rfl⟩
  · exact hcolumn
  · rw [lex_row_value, Option.isSome_some]

theorem inherited_whole {t : Table} (hcolumn : (lex t.column).isSome = true) :
    Inherited t fun _ _ m => m.Whole where
  field h := by
    split
    · exact isSome_lex_base hcolumn h
    · exact Term.whole_callOn _ rfl (isSome_lex_base hcolumn h)
  literal a := Term.whole_literal a
  unary op h := Term.whole_unary op h
  binary op hl hr := Term.whole_binary op hl hr
  nullTest _ hl := hl
  connect k h := by
    apply Term.whole_connective
    induction h with
    | nil => exact List.forall_mem_nil _
    | cons hm _ ih => exact List.forall_mem_cons.2 ⟨hm, ih⟩
  not h := h
  count h := Term.whole_callOn _ rfl (isSome_lex_base hcolumn h)
  quantifier q h hb :=
    Term.whole_quantifier q _ (Term.whole_callOn _ rfl (isSome_lex_base hcolumn h)) hb
  aggregate op h hb :=
    Term.whole_aggregate op _ (Term.whole_callOn _ rfl (isSome_lex_base hcolumn h)) hb

end Quarry.Sql
