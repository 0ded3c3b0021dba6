import Quarry.Proofs.Sql.Spelled

/-!
What a string or the name of a member holds stays inside one literal. Expressions that are the same
but for that have conditions that are the same but for what their literals hold.
-/

namespace Quarry

def Segment.hollow : Segment → Segment
  | .key _ => .key ""
  | s => s

/-- The first step of a path is an argument, which is kept. -/
def Path.hollow : Path → Path
  | [] => []
  | s :: steps => s :: steps.map Segment.hollow

namespace Expr

def hollowField (e : Expr) : Expr :=
  match e.path? with
  | some path => .field "" (some path.hollow)
  | none => e

mutual

/-- The expression without what its strings hold and without the names of members. -/
def hollow : Expr → Expr
  | .field name path => hollowField (.field name path)
  | .literal (.string _) => .literal (.string "")
  | .literal a => .literal a
  | .unary op e => .unary op e.hollow
  | .binary op l r => .binary op l.hollow r.hollow
  | .aggregate op f x b => .aggregate op f.hollow x b.hollow
  | .count f => .count f.hollow
  | .connect k es => .connect k (hollowAll es)
  | .not e => .not e.hollow
  | .quantifier q f x b => .quantifier q f.hollow x b.hollow

def hollowAll : List Expr → List Expr
  | [] => []
  | e :: es => e.hollow :: hollowAll es

end

mutual

def strings : Expr → List String
  | .field _ _ => []
  | .literal (.string s) => [s]
  | .literal _ => []
  | .unary _ e => e.strings
  | .binary _ l r => l.strings ++ r.strings
  | .aggregate _ f _ b => f.strings ++ b.strings
  | .count f => f.strings
  | .connect _ es => stringsAll es
  | .not e => e.strings
  | .quantifier _ f _ b => f.strings ++ b.strings

def stringsAll : List Expr → List String
  | [] => []
  | e :: es => e.strings ++ stringsAll es

end

theorem strings_eq_nil {e : Expr} (h : e.path?.isSome = true) : e.strings = [] := by
  cases e with
  | field name path => rfl
  | _ => cases h

end Expr

namespace Sql

namespace Token

def hollow : Token → Token
  | .string _ => .string ""
  | t => t

/-- What the literals among some tokens hold. -/
def strings : List Token → List String
  | [] => []
  | .string s :: ts => s :: strings ts
  | .word _ :: ts => strings ts
  | .number _ :: ts => strings ts
  | .sign _ :: ts => strings ts

theorem strings_append (ts us : List Token) : strings (ts ++ us) = strings ts ++ strings us := by
  induction ts with
  | nil => rfl
  | cons t ts ih => cases t <;> simp [strings, ih]

end Token

namespace Term

def hollow : Term → Term
  | .place base => .place base
  | .number text => .number text
  | .string _ => .string ""
  | .constant name => .constant name
  | .star => .star
  | .blank => .blank
  | .call f a => .call f a.hollow
  | .both a b => .both a.hollow b.hollow
  | .group a => .group a.hollow
  | .minus a => .minus a.hollow
  | .not a => .not a.hollow
  | .infixed op l r => .infixed op l.hollow r.hollow
  | .nullTest isNull a => .nullTest isNull a.hollow
  | .select v s r => .select v.hollow s.hollow r
  | .selectWhere v s r p => .selectWhere v.hollow s.hollow r p.hollow

theorem hollow_tokens (m : Term) :
    m.hollow.tokens.map Token.hollow = m.tokens.map Token.hollow := by
  induction m with
  | place base => rfl
  | number text => rfl
  | string value => rfl
  | constant name => rfl
  | star => rfl
  | blank => rfl
  | _ => simp only [hollow, tokens, List.map_append, List.map_cons, List.map_nil, *]

theorem hollow_callOn (function base : String) {steps steps' : List Segment}
    (h : steps.isEmpty = steps'.isEmpty) :
    (callOn function base steps).hollow = (callOn function base steps').hollow := by
  rw [callOn, callOn, h]
  split <;> rfl

theorem hollow_unary (op : UnaryOp) (value : Term) :
    (unary op value).hollow = unary op value.hollow := by
  cases op <;> rfl

theorem hollow_binary (op : BinaryOp) (l r : Term) :
    (binary op l r).hollow = binary op l.hollow r.hollow := by
  cases op <;> rfl

theorem hollow_foldl (op : Operator) (m : Term) (ms : List Term) :
    (ms.foldl (.infixed op) m).hollow = (ms.map hollow).foldl (.infixed op) m.hollow := by
  induction ms generalizing m with
  | nil => rfl
  | cons n ms ih => rw [List.foldl_cons, ih, List.map_cons, List.foldl_cons, hollow]

theorem hollow_connective (k : Connective) (ms : List Term) :
    (connective k ms).hollow = connective k (ms.map hollow) := by
  cases ms with
  | nil => rfl
  | cons m ms => exact congrArg Term.group (hollow_foldl (connector k) m ms)

theorem hollow_aggregate (op : AggregateOp) (source : Term) (r : String) (value : Term) :
    (aggregate op source r value).hollow = aggregate op source.hollow r value.hollow := rfl

theorem hollow_quantifier (q : Quantifier) (source : Term) (r : String) (predicate : Term) :
    (quantifier q source r predicate).hollow =
      quantifier q source.hollow r predicate.hollow := by
  cases q <;> rfl

end Term

/-! ### Two expressions -/

/-- Both fail, or what they come to is related. -/
inductive Agree {α : Type} (R : α → α → Prop) : Except Error α → Except Error α → Prop
  | ok {a b : α} (h : R a b) : Agree R (.ok a) (.ok b)
  | error (e e' : Error) : Agree R (.error e) (.error e')

namespace Agree

variable {α β : Type} {R : α → α → Prop} {S : β → β → Prop} {x y : Except Error α}

theorem bind {k l : α → Except Error β} (h : Agree R x y)
    (hk : ∀ a b, R a b → Agree S (k a) (l b)) : Agree S (x >>= k) (y >>= l) := by
  cases h with
  | ok h => exact hk _ _ h
  | error e e' => exact .error e e'

theorem symm (h : Agree R x y) (hR : ∀ a b, R a b → R b a) : Agree R y x := by
  cases h with
  | ok h => exact .ok (hR _ _ h)
  | error e e' => exact .error e' e

theorem trans {z : Except Error α} (h : Agree R x y) (h' : Agree R y z)
    (hR : ∀ a b c, R a b → R b c → R a c) : Agree R x z := by
  cases h with
  | ok h =>
    cases h' with
    | ok h' => exact .ok (hR _ _ _ h h')
  | error e e' =>
    cases h' with
    | error _ e'' => exact .error e e''

theorem map {g g' : α → β} (h : Agree R x y) (hg : ∀ a b, R a b → S (g a) (g' b)) :
    Agree S (x >>= fun a => pure (g a)) (y >>= fun a => pure (g' a)) :=
  h.bind fun a b hab => .ok (hg a b hab)

end Agree

/-- The terms are the same but for what their strings hold. -/
def Similar (m n : Term) : Prop := m.hollow = n.hollow

theorem hasWildcard_hollow (steps : List Segment) :
    Path.hasWildcard (steps.map Segment.hollow) = Path.hasWildcard steps := by
  induction steps with
  | nil => rfl
  | cons s steps ih =>
    rw [Path.hasWildcard, Path.hasWildcard, List.map_cons, List.contains_cons, List.contains_cons]
    rw [Path.hasWildcard, Path.hasWildcard] at ih
    rw [ih]
    cases s <;> rfl

variable {t : Table} {scope : Scope}

theorem locatePath_hollow (name name' : String) (path : Path) :
    Agree (fun p q => p.1 = q.1 ∧ p.2.isEmpty = q.2.isEmpty)
      (locatePath t scope name path.hollow) (locatePath t scope name' path) := by
  cases path with
  | nil => exact .error _ _
  | cons s steps =>
    cases s with
    | key arg =>
      rw [Path.hollow, locatePath, locatePath, hasWildcard_hollow]
      split
      · exact .error _ _
      · cases base? t scope arg with
        | none => exact .error _ _
        | some base => exact .ok ⟨rfl, List.isEmpty_map⟩
    | index i => exact .error _ _
    | wildcard => exact .error _ _

theorem locate_hollow (e : Expr) :
    Agree (fun p q => p.1 = q.1 ∧ p.2.isEmpty = q.2.isEmpty)
      (locate t scope e.hollow) (locate t scope e) := by
  cases e with
  | field name path =>
    rw [Expr.hollow, Expr.hollowField]
    cases path with
    | some path => exact locatePath_hollow "" name path
    | none =>
      rw [Expr.path?]
      cases hparse : Path.parse name with
      | ok path =>
        have hlocate : locate t scope (.field name none) = locatePath t scope name path := by
          rw [locate, hparse]
        rw [hlocate]
        exact locatePath_hollow "" name path
      | error err =>
        have hlocate : locate t scope (.field name none) = .error (.invalidPath err) := by
          rw [locate, hparse]
        change Agree _ (locate t scope (.field name none)) _
        rw [hlocate]
        exact .error _ _
  | literal a => cases a <;> exact .error _ _
  | _ => exact .error _ _

theorem placeTerm_hollow (function : String) (e : Expr) :
    Agree Similar (placeTerm function t scope e.hollow) (placeTerm function t scope e) := by
  refine (locate_hollow e).map ?_
  rintro ⟨base, steps⟩ ⟨base', steps'⟩ ⟨rfl, hsteps⟩
  exact Term.hollow_callOn function base hsteps

theorem fieldTerm_hollow (e : Expr) :
    Agree Similar (fieldTerm t scope e.hollow) (fieldTerm t scope e) := by
  refine (locate_hollow e).map ?_
  rintro ⟨base, steps⟩ ⟨base', steps'⟩ ⟨rfl, hsteps⟩
  dsimp only at hsteps ⊢
  rw [hsteps]
  split
  · rfl
  · exact Term.hollow_callOn _ base hsteps

theorem field_hollow (name : String) (path : Option Path) :
    ∃ name' path', (Expr.field name path).hollow = .field name' path' := by
  rw [Expr.hollow, Expr.hollowField]
  split
  · exact ⟨_, _, rfl⟩
  · exact ⟨_, _, rfl⟩

theorem testsNull?_hollow (op : BinaryOp) (r : Expr) :
    Term.testsNull? op r.hollow = Term.testsNull? op r := by
  cases r with
  | field name path =>
    obtain ⟨name', path', heq⟩ := field_hollow name path
    rw [heq]
    cases op <;> rfl
  | literal a => cases a <;> cases op <;> rfl
  | _ => cases op <;> rfl

mutual

theorem term_hollow (t : Table) : (e : Expr) → (scope : Scope) →
    Agree Similar (term t scope e.hollow) (term t scope e)
  | .field name path, scope => by
    have hfield : Agree Similar (fieldTerm t scope (Expr.field name path).hollow)
        (fieldTerm t scope (.field name path)) := fieldTerm_hollow _
    obtain ⟨name', path', heq⟩ := field_hollow name path
    rw [heq] at hfield ⊢
    exact hfield
  | .literal a, _ => by
    cases a with
    | string s => exact .ok rfl
    | _ => exact .ok rfl
  | .unary op e, scope => by
    refine (term_hollow t e scope).map fun m n h => ?_
    rw [Similar, Term.hollow_unary, Term.hollow_unary, h]
  | .binary op l r, scope => by
    rw [Expr.hollow, term, term, testsNull?_hollow]
    refine (term_hollow t l scope).bind fun left left' hl => ?_
    cases Term.testsNull? op r with
    | some isNull => exact .ok (congrArg (fun m => Term.group (.nullTest isNull m)) hl)
    | none =>
      refine (term_hollow t r scope).map fun right right' hr => ?_
      rw [Similar, Term.hollow_binary, Term.hollow_binary, hl, hr]
  | .aggregate op f x b, scope => by
    refine (placeTerm_hollow "json_each" f).bind fun source source' hs => ?_
    refine (term_hollow t b (x :: scope)).map fun value value' hv => ?_
    rw [Similar, Term.hollow_aggregate, Term.hollow_aggregate, hs, hv]
  | .count f, scope => placeTerm_hollow "json_array_length" f
  | .connect k es, scope => by
    refine (terms_hollow t es scope).map fun ms ns h => ?_
    rw [Similar, Term.hollow_connective, Term.hollow_connective, h]
  | .not e, scope =>
    (term_hollow t e scope).map fun _ _ h => congrArg (fun m => Term.not (.group m)) h
  | .quantifier q f x b, scope => by
    refine (placeTerm_hollow "json_each" f).bind fun source source' hs => ?_
    refine (term_hollow t b (x :: scope)).map fun predicate predicate' hp => ?_
    rw [Similar, Term.hollow_quantifier, Term.hollow_quantifier, hs, hp]

theorem terms_hollow (t : Table) : (es : List Expr) → (scope : Scope) →
    Agree (fun ms ns => ms.map Term.hollow = ns.map Term.hollow)
      (terms t scope (Expr.hollowAll es)) (terms t scope es)
  | [], _ => .ok rfl
  | e :: es, scope => by
    refine (term_hollow t e scope).bind fun m n hm => ?_
    refine (terms_hollow t es scope).map fun ms ns hms => ?_
    rw [List.map_cons, List.map_cons, hm, hms]

end

/-! ### Strings as literals -/

namespace Term

theorem strings_unary (op : UnaryOp) (value : Term) :
    Token.strings (unary op value).tokens = Token.strings value.tokens := by
  cases op <;> simp [unary, tokens, Token.strings, Token.strings_append]

theorem strings_infixed (op : Operator) (l r : Term) :
    Token.strings (infixed op l r).tokens = Token.strings l.tokens ++ Token.strings r.tokens := by
  cases op <;> simp [tokens, Operator.token, Token.strings, Token.strings_append]

/-- An operand that is repeated is a literal twice. -/
theorem strings_binary (op : BinaryOp) (l r : Term) : Token.strings (binary op l r).tokens =
    Token.strings l.tokens ++ (Token.strings r.tokens ++
      if Expr.repeatsRight op then Token.strings r.tokens else []) := by
  cases op <;> simp [binary, tokens, Operator.token, Expr.repeatsRight, Token.strings,
    Token.strings_append, lex_one, lex_zero]

theorem strings_foldl (op : Operator) (m : Term) (ms : List Term) :
    Token.strings (ms.foldl (.infixed op) m).tokens =
      (m :: ms).flatMap fun n => Token.strings n.tokens := by
  induction ms generalizing m with
  | nil => simp
  | cons n ms ih =>
    rw [List.foldl_cons, ih, List.flatMap_cons, strings_infixed, List.append_assoc]
    rfl

theorem strings_connective (k : Connective) (ms : List Term) :
    Token.strings (connective k ms).tokens = ms.flatMap fun n => Token.strings n.tokens := by
  cases ms with
  | nil => rfl
  | cons m ms =>
    rw [connective, tokens, Token.strings, Token.strings_append, strings_foldl, Token.strings,
      Token.strings, List.append_nil]

theorem strings_aggregate (op : AggregateOp) (source : Term) (r : String) (value : Term) :
    Token.strings (aggregate op source r value).tokens =
      Token.strings value.tokens ++ Token.strings source.tokens := by
  cases op <;> simp [aggregate, tokens, Token.strings, Token.strings_append]

theorem strings_quantifier (q : Quantifier) (source : Term) (r : String) (predicate : Term) :
    Token.strings (quantifier q source r predicate).tokens =
      Token.strings source.tokens ++ Token.strings predicate.tokens := by
  cases q <;> simp [quantifier, tokens, Token.strings, Token.strings_append, lex_one]

end Term

/-- Nothing but fields can be ranged over, and they have no strings. -/
theorem strings_of_locate {f : Expr} {p : String × List Segment} (h : locate t scope f = .ok p) :
    f.strings = [] := by
  obtain ⟨base, steps⟩ := p
  obtain ⟨arg, hpath, -⟩ := locate_eq_ok h
  exact Expr.strings_eq_nil (by rw [hpath, Option.isSome_some])

theorem inherited_strings (t : Table) : Inherited t fun _ e m =>
    e.strings.Sublist (Token.strings m.tokens) where
  field _ := List.nil_sublist _
  literal a := by
    cases a with
    | string s => exact List.Sublist.refl _
    | _ => exact List.nil_sublist _
  unary op h := by
    rw [Term.strings_unary]
    exact h
  binary op hl hr := by
    rw [Term.strings_binary]
    exact hl.append (hr.trans (List.sublist_append_left _ _))
  nullTest isNull hl := by
    change (Expr.strings _ ++ []).Sublist _
    rw [List.append_nil]
    cases isNull <;> simpa [Term.tokens, Token.strings, Token.strings_append] using hl
  connect k h := by
    rw [Term.strings_connective, Expr.strings]
    induction h with
    | nil => exact List.Sublist.refl _
    | cons hm _ ih =>
      rw [Expr.stringsAll, List.flatMap_cons]
      exact hm.append ih
  not h := by
    simpa [Expr.strings, Term.tokens, Token.strings, Token.strings_append] using h
  count h := by
    rw [Expr.strings, strings_of_locate h]
    exact List.nil_sublist _
  quantifier q h hb := by
    rw [Term.strings_quantifier, Expr.strings, strings_of_locate h]
    exact hb.trans (List.sublist_append_right _ _)
  aggregate op h hb := by
    rw [Term.strings_aggregate, Expr.strings, strings_of_locate h]
    exact hb.trans (List.sublist_append_left _ _)

theorem term_similar {e e' : Expr} (h : e.hollow = e'.hollow) :
    Agree Similar (term t scope e) (term t scope e') := by
  have hagree := (term_hollow t e scope).symm fun _ _ => Eq.symm
  rw [h] at hagree
  exact hagree.trans (term_hollow t e' scope) fun _ _ _ => Eq.trans

/-- A column has to be a text of whole tokens itself, as a name is. -/
theorem clause_hollow {t : Table} (hcolumn : (lex t.column).isSome = true) {e e' : Expr}
    (h : e.hollow = e'.hollow) :
    (clause t e).isOk = (clause t e').isOk ∧
      ∀ s s', clause t e = .ok s → clause t e' = .ok s' →
        ∃ ts ts', lex s = some ts ∧ lex s' = some ts' ∧
          ts.map Token.hollow = ts'.map Token.hollow ∧
          e.strings.Sublist (Token.strings ts) ∧ e'.strings.Sublist (Token.strings ts') := by
  have hagree : Agree Similar (term t [] e) (term t [] e') := term_similar h
  have hwhole {x : Expr} {m : Term} (h : term t [] x = .ok m) : m.Whole :=
    (inherited_whole hcolumn).term x h
  have hstrings {x : Expr} {m : Term} (h : term t [] x = .ok m) :
      x.strings.Sublist (Token.strings m.tokens) := (inherited_strings t).term x h
  simp only [clause, condition_eq]
  generalize he : term t [] e = x at hagree ⊢
  generalize he' : term t [] e' = y at hagree ⊢
  cases hagree with
  | error _ _ => exact ⟨rfl, by rintro _ _ ⟨⟩⟩
  | @ok m n hmn =>
    refine ⟨rfl, ?_⟩
    rintro _ _ ⟨⟩ ⟨⟩
    refine ⟨_, _, Term.lex_text (hwhole he), Term.lex_text (hwhole he'), ?_, hstrings he,
      hstrings he'⟩
    rw [← Term.hollow_tokens, hmn, Term.hollow_tokens]

/-- A quote in a string and another one in the name of a member. -/
theorem clause_hollow_quotes :
    let t : Table := ⟨"doc", "o"⟩
    let e (member value : String) : Expr :=
      .binary .equal (.field "" (some [.key "o", .key member])) (.literal (.string value))
    (lex t.column).isSome = true ∧ (e "a" "x").hollow = (e "it's" "' OR '").hollow ∧
      ∃ s s' ts ts', clause t (e "a" "x") = .ok s ∧ clause t (e "it's" "' OR '") = .ok s' ∧
        lex s = some ts ∧ lex s' = some ts' ∧ ts.map Token.hollow = ts'.map Token.hollow ∧
        ["' OR '"].Sublist (Token.strings ts') := by
  intro t e
  have hhollow : (e "a" "x").hollow = (e "it's" "' OR '").hollow := rfl
  have hcolumn : (lex t.column).isSome = true := by decide
  obtain ⟨hok, hall⟩ := clause_hollow hcolumn hhollow
  obtain ⟨s, hs⟩ : ∃ s, clause t (e "a" "x") = .ok s := ⟨_, rfl⟩
  rw [hs] at hok
  cases hs' : clause t (e "it's" "' OR '") with
  | error err =>
    rw [hs'] at hok
    cases hok
  | ok s' =>
    obtain ⟨ts, ts', hts, hts', hsame, -, hstrings⟩ := hall s s' hs hs'
    exact ⟨hcolumn, hhollow, s, s', ts, ts', hs, rfl, hts, hts', hsame, hstrings⟩

end Sql

end Quarry
