import Quarry.Proofs.Expr.Rereading
import Quarry.Proofs.Sql.Regrouped

/-!
What a condition is read as. It is read as the term of its expression, unless a negation stands
before an operator.
-/

namespace Quarry

namespace Expr

/-- What begins with `NOT` in a condition. -/
def isNegation : Expr → Bool
  | .not _ => true
  | .quantifier .all _ _ _ => true
  | _ => false

def hasOperands : Expr → Bool
  | .connect _ es => !es.isEmpty
  | _ => true

/-- No negation before an operator, and no number that is not finite. -/
def Upright : Expr → Prop
  | .binary op l _ => op.isMethod = true ∨ l.isNegation = false
  | .literal (.double x) => x.isFinite = true
  | _ => True

end Expr

namespace Sql

/-! ### Names and numbers -/

theorem isReserved_eq_false {w : String} {c : Char} {cs : List Char} (h : w.toList = c :: cs)
    (hc : ∀ k ∈ constants ++ keywords, k.toList.head? ≠ some c.toUpper) :
    isReserved w = false := by
  rw [← Bool.not_eq_true]
  intro hreserved
  obtain ⟨k, hk, hw⟩ := List.any_eq_true.1 hreserved
  rw [beq_iff_eq, h, List.map_cons] at hw
  apply hc k hk
  rw [hw, List.head?_cons]

theorem isName_row (scope : Scope) : IsName (row scope) :=
  ⟨lex_row scope, isReserved_eq_false (c := 'j') (toList_row scope) (by decide)⟩

theorem isName_row_value (scope : Scope) : IsName (row scope ++ ".value") := by
  have htext : (row scope ++ ".value").toList =
      'j' :: (Nat.toDigits 10 scope.length ++ ".value".toList) := by
    rw [String.toList_append, toList_row, List.cons_append]
  exact ⟨lex_row_value scope, isReserved_eq_false htext (by decide)⟩

theorem isName_base {t : Table} (hcolumn : IsName t.column) {scope : Scope} {f : Expr}
    {base : String} {steps : List Segment} (h : locate t scope f = .ok (base, steps)) :
    IsName base := by
  rcases column_or_row h with rfl | ⟨inner, rfl⟩
  · exact hcolumn
  · exact isName_row_value inner

theorem lex_toString (n : Nat) : lex (toString n) = some [.number (toString n)] := by
  have h := Lexer.lex_unsigned (Json.unsigned_toDigits n)
  rwa [← Numeral.toList_toString, String.ofList_toList] at h

theorem lex_magnitude (x : Float) :
    lex (Term.magnitude x) = some [.number (Term.magnitude x)] ↔ x.isFinite = true := by
  rw [Expr.isFinite_iff, Term.magnitude]
  cases x.isNaN with
  | true =>
    rw [if_pos rfl]
    exact iff_of_false (by decide) fun h => Bool.noConfusion h.1
  | false =>
    rw [if_neg Bool.false_ne_true]
    cases x.isInf with
    | true =>
      rw [if_pos rfl]
      exact iff_of_false (by decide) fun h => Bool.noConfusion h.2
    | false =>
      have h := Lexer.lex_unsigned
        (Json.unsigned_magnitude Scalar.numberLayout (Numeral.Dyadic.ofFloat x))
      rw [String.ofList_toList] at h
      rw [if_neg Bool.false_ne_true]
      exact iff_of_true h ⟨rfl, rfl⟩

/-- A number that is not finite is a name. -/
theorem isName_magnitude {x : Float} (h : x.isFinite ≠ true) : IsName (Term.magnitude x) := by
  rw [Ne, Expr.isFinite_iff] at h
  rw [Term.magnitude]
  split
  · decide
  · rename_i hnan
    split
    · decide
    · rename_i hinf
      exact absurd ⟨Bool.eq_false_iff.2 hnan, Bool.eq_false_iff.2 hinf⟩ h

/-! ### Expressions and their terms -/

/-- How the term of an expression is read. -/
structure Read (e : Expr) (m : Term) : Prop where
  fragment : m.Fragment
  isNot : m.isNot = e.isNegation
  settled : (∀ n ∈ e.nodes, n.hasOperands = true) → m.regrouped.Settled
  regrouped_eq : m.regrouped = m ↔ ∀ n ∈ e.nodes, n.Upright

/-- What is ranged over is a field, and has no parts. -/
theorem forall_nodes_of_locate {p : Expr → Prop} (hp : ∀ name path, p (.field name path))
    {t : Table} {scope : Scope} {f : Expr} {base : String} {steps : List Segment}
    (h : locate t scope f = .ok (base, steps)) : ∀ n ∈ f.nodes, p n := by
  cases f with
  | field name path => exact List.forall_mem_singleton.2 (hp name path)
  | _ => cases h

theorem upright_of_locate {t : Table} {scope : Scope} {f : Expr} {base : String}
    {steps : List Segment} (h : locate t scope f = .ok (base, steps)) :
    ∀ n ∈ f.nodes, n.Upright := forall_nodes_of_locate (fun _ _ => trivial) h

theorem hasOperands_of_locate {t : Table} {scope : Scope} {f : Expr} {base : String}
    {steps : List Segment} (h : locate t scope f = .ok (base, steps)) :
    ∀ n ∈ f.nodes, n.hasOperands = true := forall_nodes_of_locate (fun _ _ => rfl) h

theorem read_callOn {e : Expr} {function base : String} (he : e.isNegation = false)
    (hupright : ∀ n ∈ e.nodes, n.Upright) (hf : IsName function) (hbase : IsName base)
    (steps : List Segment) : Read e (.callOn function base steps) where
  fragment := .closed (Term.isClosed_callOn _ _ _)
  isNot := (Term.isNot_of_isClosed (Term.isClosed_callOn _ _ _)).trans he.symm
  settled _ := by
    rw [Term.regrouped_callOn]
    exact Term.settled_callOn hf hbase steps
  regrouped_eq := iff_of_true (Term.regrouped_callOn _ _ _) hupright

theorem read_literal (a : Atom) : Read (.literal a) (.literal a) := by
  have hnodes {p : Expr → Prop} : (∀ n ∈ (Expr.literal a).nodes, p n) ↔ p (.literal a) :=
    List.forall_mem_singleton
  have hconstant {name : String} (h : name ∈ constants) : (Term.constant name).regrouped.Settled :=
    h
  cases a with
  | long n =>
    have hlex := lex_toString n.toInt.natAbs
    refine ⟨(Term.fragment_signed _ _).1, (Term.fragment_signed _ _).2, fun _ => ?_, ?_⟩
    · exact Term.settled_signed _ (.inl hlex)
    · rw [hnodes]
      exact iff_of_true (Term.regrouped_signed_eq_iff.2 hlex) trivial
  | double x =>
    refine ⟨(Term.fragment_signed _ _).1, (Term.fragment_signed _ _).2, fun _ => ?_, ?_⟩
    · apply Term.settled_signed
      by_cases hx : x.isFinite = true
      · exact .inl ((lex_magnitude x).2 hx)
      · exact .inr (isName_magnitude hx)
    · rw [hnodes, Term.literal, Term.regrouped_signed_eq_iff]
      exact lex_magnitude x
  | string s => exact ⟨.closed rfl, rfl, fun _ => trivial, iff_of_true rfl (hnodes.2 trivial)⟩
  | null =>
    exact ⟨.closed rfl, rfl, fun _ => hconstant (by decide), iff_of_true rfl (hnodes.2 trivial)⟩
  | bool b =>
    cases b <;>
      exact ⟨.closed rfl, rfl, fun _ => hconstant (by decide), iff_of_true rfl (hnodes.2 trivial)⟩

/-- An expression that puts something around one part of it, next to what needs no regrouping. -/
theorem Read.around {e b : Expr} {m : Term} {f : Term → Term} (h : Read b m) (ns : List Expr)
    (hnodes : e.nodes = e :: (ns ++ b.nodes)) (hns : ∀ n ∈ e :: ns, n.Upright)
    (hfragment : (f m).Fragment) (hnot : (f m).isNot = e.isNegation)
    (hregrouped : (f m).regrouped = f m.regrouped)
    (hsettled : m.regrouped.Fragment → m.regrouped.Settled → (f m.regrouped).Settled)
    (hinj : f m.regrouped = f m ↔ m.regrouped = m) : Read e (f m) where
  fragment := hfragment
  isNot := hnot
  settled hne := by
    rw [hnodes, ← List.cons_append, List.forall_mem_append] at hne
    rw [hregrouped]
    exact hsettled h.fragment.regrouped (h.settled hne.2)
  regrouped_eq := by
    rw [hregrouped, hinj, h.regrouped_eq, hnodes, ← List.cons_append, List.forall_mem_append]
    exact (and_iff_right hns).symm

theorem read_unary (op : UnaryOp) {e : Expr} {m : Term} (h : Read e m) :
    Read (.unary op e) (.unary op m) :=
  h.around [] rfl (List.forall_mem_singleton.2 trivial) (Term.fragment_unary op m).1
    (Term.fragment_unary op m).2 (Term.regrouped_unary op m) (Term.settled_unary op) Term.unary_inj

theorem read_binary (op : BinaryOp) {l r : Expr} {left right : Term} (hl : Read l left)
    (hr : Read r right) : Read (.binary op l r) (.binary op left right) where
  fragment := .closed rfl
  isNot := rfl
  settled hne := by
    obtain ⟨-, hne⟩ := List.forall_mem_cons.1 hne
    obtain ⟨hnel, hner⟩ := List.forall_mem_append.1 hne
    have hls := hl.settled hnel
    have hrs := hr.settled hner
    cases hop : op.isMethod with
    | true =>
      rw [Term.regrouped_method hop]
      exact Term.settled_method hop hl.fragment.regrouped hls hr.fragment.regrouped hrs
    | false =>
      obtain ⟨o, ho, hbinary⟩ := Term.binary_eq hop
      rw [hbinary, Term.regrouped, Term.regrouped]
      obtain ⟨hs, hlevel⟩ :=
        Term.settled_attach ho hl.fragment.regrouped hls hr.fragment.regrouped hrs
      exact Term.settled_group hs hlevel
  regrouped_eq := by
    rw [Expr.nodes, List.forall_mem_cons, List.forall_mem_append, ← hl.regrouped_eq,
      ← hr.regrouped_eq, Expr.Upright]
    cases hop : op.isMethod with
    | true =>
      rw [Term.regrouped_method hop, Term.method_inj hop]
      simp
    | false =>
      obtain ⟨o, ho, hbinary⟩ := Term.binary_eq hop
      rw [hbinary, Term.regrouped, Term.regrouped, Term.group.injEq,
        Term.attach_eq_iff ho (Term.isNot_regrouped hl.fragment), hl.isNot]
      simp

theorem read_nullTest (isNull : Bool) {l : Expr} {left : Term} (hl : Read l left) :
    Read (.binary (if isNull then .equal else .notEqual) l (.literal .null))
      (.group (.nullTest isNull left)) where
  fragment := .closed rfl
  isNot := rfl
  settled hne := by
    obtain ⟨-, hne⟩ := List.forall_mem_cons.1 hne
    obtain ⟨hs, hlevel⟩ := Term.settled_attachTest isNull hl.fragment.regrouped
      (hl.settled (List.forall_mem_append.1 hne).1)
    exact Term.settled_group hs hlevel
  regrouped_eq := by
    have hop : BinaryOp.isMethod (if isNull then .equal else .notEqual) = false := by
      cases isNull <;> rfl
    rw [Expr.nodes, List.forall_mem_cons, List.forall_mem_append, ← hl.regrouped_eq,
      Expr.Upright, hop, Term.regrouped, Term.regrouped, Term.group.injEq,
      Term.attachTest_eq_iff (Term.isNot_regrouped hl.fragment), hl.isNot, Expr.nodes,
      List.forall_mem_singleton]
    simp [Expr.Upright]

theorem read_connect (k : Connective) {es : List Expr} {ms : List Term}
    (h : List.Forall₂ Read es ms) : Read (.connect k es) (.connective k ms) where
  fragment := by
    cases ms <;> exact .closed rfl
  isNot := by
    cases ms <;> rfl
  settled hne := by
    obtain ⟨hes, hnodes⟩ := List.forall_mem_cons.1 hne
    rw [Term.regrouped_connective]
    apply Term.settled_connective
    · rintro hnil
      obtain rfl := List.map_eq_nil_iff.1 hnil
      cases h
      cases hes
    · clear hes hne
      induction h with
      | nil => exact List.forall_mem_nil _
      | cons hm _ ih =>
        obtain ⟨hn, hnodes⟩ := List.forall_mem_append.1 hnodes
        exact List.forall_mem_cons.2 ⟨⟨hm.fragment.regrouped, hm.settled hn⟩, ih hnodes⟩
  regrouped_eq := by
    rw [Term.regrouped_connective, Term.connective_inj (List.length_map _), Expr.nodes,
      List.forall_mem_cons]
    refine Iff.trans ?_ (and_iff_right trivial).symm
    induction h with
    | nil => exact iff_of_true rfl (List.forall_mem_nil _)
    | cons hm _ ih =>
      rw [List.map_cons, List.cons.injEq, hm.regrouped_eq, ih, Expr.nodesAll,
        List.forall_mem_append]

theorem read_not {e : Expr} {m : Term} (h : Read e m) : Read (.not e) (.not (.group m)) := by
  have htight : 3 < 9 := by
    decide
  refine h.around (f := fun m => .not (.group m)) [] rfl (List.forall_mem_singleton.2 trivial)
    (.not rfl) rfl rfl ?_ (by rw [Term.not.injEq, Term.group.injEq])
  intro hfragment hs
  exact ⟨Term.settled_group hs hfragment.leftLevel_pos, htight⟩

section

variable {t : Table} {scope : Scope} {f b : Expr} {x base : String} {steps : List Segment}
  {m : Term}

theorem read_quantifier (q : Quantifier) (hbase : IsName base)
    (hf : ∀ n ∈ f.nodes, n.Upright) (hb : Read b m) :
    Read (.quantifier q f x b)
      (.quantifier q (.callOn "json_each" base steps) (row (x :: scope)) m) := by
  refine hb.around (f := .quantifier q (.callOn "json_each" base steps) (row (x :: scope))) f.nodes
    rfl (List.forall_mem_cons.2 ⟨trivial, hf⟩) ?_ ?_ ?_ ?_ Term.quantifier_inj
  · cases q with
    | all => exact .not rfl
    | _ => exact .closed rfl
  · cases q <;> rfl
  · rw [Term.regrouped_quantifier, Term.regrouped_callOn]
  · exact Term.settled_quantifier q (Term.settled_callOn (by decide) hbase steps)
      (Term.isCall_callOn _ _ _) (isName_row _)

theorem read_aggregate (op : AggregateOp) (hbase : IsName base)
    (hf : ∀ n ∈ f.nodes, n.Upright) (hb : Read b m) :
    Read (.aggregate op f x b)
      (.aggregate op (.callOn "json_each" base steps) (row (x :: scope)) m) := by
  refine hb.around (f := .aggregate op (.callOn "json_each" base steps) (row (x :: scope))) f.nodes
    rfl (List.forall_mem_cons.2 ⟨trivial, hf⟩) (.closed rfl) rfl ?_ ?_ Term.aggregate_inj
  · rw [Term.regrouped_aggregate, Term.regrouped_callOn]
  · exact Term.settled_aggregate op (Term.settled_callOn (by decide) hbase steps)
      (Term.isCall_callOn _ _ _) (isName_row _)

end

theorem inherited_read {t : Table} (hcolumn : IsName t.column) :
    Inherited t fun _ e m => Read e m where
  field h := by
    have hbase := isName_base hcolumn h
    split
    · exact ⟨.closed rfl, rfl, fun _ => hbase, iff_of_true rfl (upright_of_locate h)⟩
    · exact read_callOn rfl (upright_of_locate h) (by decide) hbase _
  literal a := read_literal a
  unary op h := read_unary op h
  binary op hl hr := read_binary op hl hr
  nullTest isNull hl := read_nullTest isNull hl
  connect k h := read_connect k h
  not h := read_not h
  count h := by
    refine read_callOn rfl ?_ (by decide) (isName_base hcolumn h) _
    exact List.forall_mem_cons.2 ⟨trivial, upright_of_locate h⟩
  quantifier q h hb := read_quantifier q (isName_base hcolumn h) (upright_of_locate h) hb
  aggregate op h hb := read_aggregate op (isName_base hcolumn h) (upright_of_locate h) hb

/-! ### Conditions without operands -/

theorem Empties.cons {ts : List Token} (h : Empties ts) (t : Token) : Empties (t :: ts) :=
  List.infix_cons h

theorem Empties.left {ts : List Token} (h : Empties ts) (us : List Token) : Empties (ts ++ us) :=
  h.trans (List.prefix_append ts us).isInfix

theorem Empties.right {us : List Token} (h : Empties us) (ts : List Token) : Empties (ts ++ us) :=
  h.trans (List.suffix_append ts us).isInfix

namespace Term

theorem empties_unary (op : UnaryOp) {v : Term} (h : Empties v.tokens) :
    Empties (unary op v).tokens := by
  cases op <;> exact ((h.left _).cons _).cons _

theorem empties_binary (op : BinaryOp) {l r : Term} (h : Empties l.tokens ∨ Empties r.tokens) :
    Empties (binary op l r).tokens := by
  rcases h with h | h <;> cases op <;> simp only [binary, tokens] <;>
    grind [Empties.cons, Empties.left, Empties.right]

theorem empties_foldl (op : Operator) {m n : Term} {ms : List Term} (hn : n ∈ m :: ms)
    (h : Empties n.tokens) : Empties (ms.foldl (.infixed op) m).tokens := by
  induction ms generalizing m n with
  | nil =>
    obtain rfl := List.mem_singleton.1 hn
    exact h
  | cons k ms ih =>
    rcases List.mem_cons.1 hn with rfl | hn
    · exact ih List.mem_cons_self (h.left _)
    rcases List.mem_cons.1 hn with rfl | hn
    · exact ih List.mem_cons_self ((h.cons _).right _)
    · exact ih (List.mem_cons_of_mem _ hn) h

theorem empties_connective (k : Connective) {ms : List Term}
    (h : ms = [] ∨ ∃ m ∈ ms, Empties m.tokens) : Empties (connective k ms).tokens := by
  cases ms with
  | nil => exact List.infix_rfl
  | cons m ms =>
    obtain ⟨n, hn, hempties⟩ := h.resolve_left (List.cons_ne_nil _ _)
    exact ((empties_foldl (connector k) hn hempties).left _).cons _

theorem empties_quantifier (q : Quantifier) {source p : Term} {r : String}
    (h : Empties p.tokens) : Empties (quantifier q source r p).tokens := by
  cases q <;> simp only [quantifier, tokens] <;>
    grind [Empties.cons, Empties.left, Empties.right]

theorem empties_aggregate (op : AggregateOp) {source v : Term} {r : String}
    (h : Empties v.tokens) : Empties (aggregate op source r v).tokens := by
  simp only [aggregate, tokens]
  grind [Empties.cons, Empties.left]

end Term

/-- A connective without operands is seen in the text around it. -/
theorem inherited_operands (t : Table) : Inherited t fun _ e m =>
    (∀ n ∈ e.nodes, n.hasOperands = true) ∨ Empties m.tokens where
  field _ := .inl (List.forall_mem_singleton.2 rfl)
  literal a := .inl (List.forall_mem_singleton.2 rfl)
  unary op h := by
    refine h.imp (fun h => ?_) (Term.empties_unary op)
    exact List.forall_mem_cons.2 ⟨rfl, h⟩
  binary op hl hr := by
    rcases hl with hl | hl
    · refine hr.imp (fun hr => ?_) fun hr => Term.empties_binary op (.inr hr)
      exact List.forall_mem_cons.2 ⟨rfl, List.forall_mem_append.2 ⟨hl, hr⟩⟩
    · exact .inr (Term.empties_binary op (.inl hl))
  nullTest isNull hl := by
    refine hl.imp (fun hl => ?_) fun hl => ((hl.left _).left _).cons _
    refine List.forall_mem_cons.2 ⟨rfl, List.forall_mem_append.2 ⟨hl, ?_⟩⟩
    exact List.forall_mem_singleton.2 rfl
  connect {scope es ms} k h := by
    have hall : (∀ n ∈ Expr.nodesAll es, n.hasOperands = true) ∨ ∃ m ∈ ms, Empties m.tokens := by
      induction h with
      | nil => exact .inl (List.forall_mem_nil _)
      | cons hm _ ih =>
        rcases hm with hm | hm
        · refine ih.imp (fun h => List.forall_mem_append.2 ⟨hm, h⟩) ?_
          exact fun ⟨n, hn, h⟩ => ⟨n, List.mem_cons_of_mem _ hn, h⟩
        · exact .inr ⟨_, List.mem_cons_self, hm⟩
    cases h with
    | nil => exact .inr (Term.empties_connective k (.inl rfl))
    | cons _ _ =>
      refine hall.imp (fun h => ?_) fun h => Term.empties_connective k (.inr h)
      exact List.forall_mem_cons.2 ⟨rfl, h⟩
  not h := by
    refine h.imp (fun h => ?_) fun h => ((h.left _).cons _).cons _
    exact List.forall_mem_cons.2 ⟨rfl, h⟩
  count h := .inl (List.forall_mem_cons.2 ⟨rfl, hasOperands_of_locate h⟩)
  quantifier q h hb := by
    refine hb.imp (fun hb => ?_) (Term.empties_quantifier q)
    exact List.forall_mem_cons.2 ⟨rfl, List.forall_mem_append.2 ⟨hasOperands_of_locate h, hb⟩⟩
  aggregate op h hb := by
    refine hb.imp (fun hb => ?_) (Term.empties_aggregate op)
    exact List.forall_mem_cons.2 ⟨rfl, List.forall_mem_append.2 ⟨hasOperands_of_locate h, hb⟩⟩

/-- A condition is read in one way, or not at all where a connective has no operands. -/
theorem clause_parses {t : Table} (hcolumn : IsName t.column) {e : Expr} {s : String}
    (h : clause t e = .ok s) : ∃ m, term t [] e = .ok m ∧
      (∀ n, Parses s n ↔ n = m.regrouped ∧ ∀ x ∈ e.nodes, x.hasOperands = true) ∧
      (Parses s m ↔ ∀ x ∈ e.nodes, x.Upright ∧ x.hasOperands = true) := by
  rw [clause, condition_eq] at h
  cases hm : term t [] e with
  | error err =>
    rw [hm] at h
    cases h
  | ok m =>
    rw [hm] at h
    obtain rfl := Except.ok.inj h
    have hwhole := (inherited_whole (by rw [hcolumn.1, Option.isSome_some])).term e hm
    have hlex : lex m.text = some m.tokens := Term.lex_text hwhole
    have hread := (inherited_read hcolumn).term e hm
    have hall (n : Term) : Parses m.text n ↔
        n = m.regrouped ∧ ∀ x ∈ e.nodes, x.hasOperands = true := by
      constructor
      · rintro ⟨htokens, hn, -⟩
        -- What can be read has no empty parentheses, so the term of the expression can be read too.
        have hsame : n.tokens = m.tokens := Option.some.inj (htokens.symm.trans hlex)
        have hempties : ¬Empties m.tokens := hsame ▸ Term.not_empties hn
        have hne := ((inherited_operands t).term e hm).resolve_right hempties
        refine ⟨Term.tokens_inj hn (hread.settled hne) ?_, hne⟩
        rw [hsame, Term.tokens_regrouped]
      · rintro ⟨rfl, hne⟩
        refine ⟨?_, hread.settled hne, hread.fragment.regrouped.leftLevel_pos⟩
        rw [hlex, Term.tokens_regrouped]
    refine ⟨m, rfl, hall, ?_⟩
    rw [hall, eq_comm, hread.regrouped_eq, forall₂_and]

theorem clause_parses_negation :
    let t : Table := ⟨"doc", "o"⟩
    let field (name : String) : Expr := .field name (some [.key "o", .key name])
    let e : Expr := .connect .and [.not (.binary .equal (field "a") (.literal .null)),
      .binary .lessThan (.unary .negate (field "b")) (.literal (.long 7))]
    let s := "(NOT ((json_extract(doc, '$.a') IS NULL)) AND (-(json_extract(doc, '$.b')) < 7))"
    IsName t.column ∧ clause t e = .ok s ∧
      ∃ m, term t [] e = .ok m ∧ Parses s m ∧ ∀ n, Parses s n → n = m := by
  intro t field e s
  have hcolumn : IsName t.column := by
    decide
  have hs : clause t e = .ok s := by
    rfl
  obtain ⟨m, hm, hall, hiff⟩ := clause_parses hcolumn hs
  have hparses : Parses s m := by
    apply hiff.2
    simp [e, field, Expr.nodes, Expr.nodesAll, Expr.Upright, Expr.hasOperands, Expr.isNegation]
  refine ⟨hcolumn, hs, m, hm, hparses, fun n hn => ?_⟩
  rw [((hall n).1 hn).1, ← ((hall m).1 hparses).1]

/-- The negation takes the comparison. -/
theorem clause_takes_comparison :
    let t : Table := ⟨"doc", "o"⟩
    let e : Expr := .binary .equal (.not (.field "o.a" (some [.key "o", .key "a"])))
      (.literal (.bool true))
    let s := "(NOT (json_extract(doc, '$.a')) = TRUE)"
    let operand : Term := .group (.call "json_extract" (.both (.place "doc") (.string "$.a")))
    let m : Term := .group (.infixed .equal (.not operand) (.constant "TRUE"))
    clause t e = .ok s ∧ term t [] e = .ok m ∧ ¬Parses s m ∧
      Parses s (.group (.not (.infixed .equal operand (.constant "TRUE")))) := by
  intro t e s operand m
  have hs : clause t e = .ok s := by
    rfl
  have hm : term t [] e = .ok m := by
    rfl
  refine ⟨hs, hm, ?_, ?_⟩
  · rintro ⟨-, ⟨⟨-, hlevel, -⟩, -⟩, -⟩
    exact absurd hlevel (by decide)
  · have hcall : (Term.call "json_extract" (.both (.place "doc") (.string "$.a"))).Settled :=
      Term.settled_callOn (by decide) (by decide) [.key "a"]
    have hoperand : operand.Settled := Term.settled_group hcall (by decide)
    have htrue : (Term.constant "TRUE").Settled := by
      change "TRUE" ∈ constants
      decide
    have hequal : (Term.infixed .equal operand (.constant "TRUE")).Settled :=
      (Term.settled_infixed (by decide) rfl hoperand (.closed rfl) htrue).1
    exact ⟨by decide +kernel, Term.settled_group ⟨hequal, by decide⟩ (by decide), by decide⟩

end Sql

end Quarry
