import Quarry.Proofs.Sql.Places

/-!
A translator that keeps the ranges it is in on a stack. It leaves its stack as it was, also when it
fails, and what it makes of an expression that is checked depends on wildcards only.
-/

namespace Quarry

namespace Sql

open Expr.Parser (bind_eq_ok)

/-! ### Checked expressions -/

/-- What comes of some fields: nothing but a wildcard stands in the way. -/
inductive Outcome {α : Type} (fields : List Expr) : Except Error α → Prop
  | ok (a : α) (h : ∀ f ∈ fields, f.isStarred = false) : Outcome fields (.ok a)
  | error {name : String} {path : Option Path} (hf : .field name path ∈ fields)
      (hstar : (Expr.field name path).isStarred = true) : Outcome fields (.error (.wildcard name))

namespace Outcome

variable {α β : Type} {fields rest : List Expr} {x : Except Error α}

theorem bind {k : α → Except Error β} (hx : Outcome fields x)
    (hk : ∀ a, x = .ok a → Outcome rest (k a)) : Outcome (fields ++ rest) (x >>= k) := by
  cases hx with
  | error hf hstar => exact .error (List.mem_append_left _ hf) hstar
  | ok a h =>
    have hrest := hk a rfl
    change Outcome (fields ++ rest) (k a)
    generalize k a = y at hrest
    cases hrest with
    | error hf hstar => exact .error (List.mem_append_right _ hf) hstar
    | ok b h' => exact .ok b (List.forall_mem_append.2 ⟨h, h'⟩)

theorem map (g : α → β) (hx : Outcome fields x) : Outcome fields (x >>= fun a => pure (g a)) := by
  have h : Outcome (fields ++ []) (x >>= fun a => pure (g a)) :=
    hx.bind fun a _ => .ok (g a) (List.forall_mem_nil _)
  rwa [List.append_nil] at h

theorem cons {e : Expr} (he : e.isStarred = false) (hx : Outcome fields x) :
    Outcome (e :: fields) x := by
  cases hx with
  | ok a h => exact .ok a (List.forall_mem_cons.2 ⟨he, h⟩)
  | error hf hstar => exact .error (List.mem_cons_of_mem _ hf) hstar

end Outcome

theorem isSome_base? {t : Table} {scope : Scope} {arg : String}
    (h : arg ∈ scope ++ [t.rootArg]) : ∃ base, base? t scope arg = some base := by
  induction scope with
  | nil =>
    obtain rfl := List.mem_singleton.1 h
    exact ⟨t.column, if_pos rfl⟩
  | cons x scope ih =>
    rw [base?, row?]
    by_cases hx : x = arg
    · rw [if_pos hx]
      exact ⟨_, rfl⟩
    · rw [if_neg hx]
      rcases List.mem_cons.1 h with rfl | h
      · exact absurd rfl hx
      · exact ih h

theorem outcome_locate {t : Table} {scope : Scope} {f : Expr}
    (h : Expr.Scoped (scope ++ [t.rootArg]) f) (hf : f.isField = true) :
    Outcome f.nodes (locate t scope f) := by
  cases h with
  | @field _ name arg steps hpath harg =>
    have hstar : (Expr.field name (some (.key arg :: steps))).isStarred = Path.hasWildcard steps := by
      simp [Expr.isStarred, Expr.path?, Path.hasWildcard]
    rw [locate, locatePath]
    by_cases hwild : Path.hasWildcard steps = true
    · rw [if_pos hwild]
      exact .error (List.mem_singleton.2 rfl) (hstar.trans hwild)
    · obtain ⟨base, hbase⟩ := isSome_base? harg
      rw [if_neg hwild, hbase]
      apply Outcome.ok
      rw [Expr.nodes, List.forall_mem_singleton]
      exact hstar.trans (Bool.eq_false_iff.2 hwild)
  | _ => cases hf

theorem outcome_placeTerm {t : Table} {scope : Scope} {f : Expr} (function : String)
    (h : Expr.Scoped (scope ++ [t.rootArg]) f) (hf : f.isField = true) :
    Outcome f.nodes (placeTerm function t scope f) :=
  (outcome_locate h hf).map _

mutual

theorem outcome_term (t : Table) : (e : Expr) → ∀ {scope : Scope},
    Expr.Scoped (scope ++ [t.rootArg]) e → Outcome e.nodes (term t scope e)
  | .field _ _, _, h => (outcome_locate h rfl).map _
  | .literal a, _, _ => .ok _ (List.forall_mem_singleton.2 rfl)
  | .unary op e, _, h => by
    cases h with
    | unary _ he =>
      rw [Expr.nodes]
      exact .cons rfl ((outcome_term t e he).map _)
  | .binary op l r, scope, h => by
    cases h with
    | binary _ hl hr =>
      rw [term, Expr.nodes]
      refine .cons rfl ((outcome_term t l hl).bind fun left _ => ?_)
      cases htest : Term.testsNull? op r with
      | some isNull =>
        obtain ⟨rfl, -⟩ := Term.testsNull?_eq_some htest
        exact .ok _ (List.forall_mem_singleton.2 rfl)
      | none => exact (outcome_term t r hr).map _
  | .aggregate op f x b, _, h => by
    cases h with
    | aggregate _ hrange hf hb =>
      rw [term, Expr.nodes]
      exact .cons rfl ((outcome_placeTerm _ hf hrange).bind fun source _ =>
        (outcome_term t b hb).map _)
  | .count f, _, h => by
    cases h with
    | count hrange hf =>
      rw [term, Expr.nodes]
      exact .cons rfl (outcome_placeTerm _ hf hrange)
  | .connect k es, _, h => by
    cases h with
    | connect _ hes =>
      rw [term, Expr.nodes]
      exact .cons rfl ((outcome_terms t es hes).map _)
  | .not e, _, h => by
    cases h with
    | not he =>
      rw [term, Expr.nodes]
      exact .cons rfl ((outcome_term t e he).map _)
  | .quantifier q f x b, _, h => by
    cases h with
    | quantifier _ hrange hf hb =>
      rw [term, Expr.nodes]
      exact .cons rfl ((outcome_placeTerm _ hf hrange).bind fun source _ =>
        (outcome_term t b hb).map _)

theorem outcome_terms (t : Table) : (es : List Expr) → ∀ {scope : Scope},
    (∀ e ∈ es, Expr.Scoped (scope ++ [t.rootArg]) e) →
    Outcome (Expr.nodesAll es) (terms t scope es)
  | [], _, _ => .ok _ (List.forall_mem_nil _)
  | e :: es, _, h => by
    obtain ⟨he, hes⟩ := List.forall_mem_cons.1 h
    rw [terms, Expr.nodesAll]
    exact (outcome_term t e he).bind fun m _ => (outcome_terms t es hes).map _

end

/-! ### Fields without their paths -/

theorem locate_bare {t : Table} {scope : Scope} {bound : List String} {f : Expr}
    (h : Expr.Scoped bound f) : locate t scope f.bare = locate t scope f := by
  cases h with
  | field hpath _ =>
    rw [Expr.bare, locate, locate, hpath]
  | _ => rfl

theorem testsNull?_bare (op : BinaryOp) (r : Expr) :
    Term.testsNull? op r.bare = Term.testsNull? op r := by
  cases r with
  | literal a => rfl
  | _ => cases op <;> rfl

mutual

theorem term_bare (t : Table) : (e : Expr) → ∀ {scope : Scope} {bound : List String},
    Expr.Scoped bound e → term t scope e.bare = term t scope e
  | .field name path, scope, _, h => by
    have hlocate : locate t scope (Expr.field name path).bare = locate t scope (.field name path) :=
      locate_bare h
    rw [Expr.bare] at hlocate
    rw [Expr.bare, term, term, fieldTerm, fieldTerm, hlocate]
  | .literal _, _, _, _ => rfl
  | .unary op e, _, _, h => by
    cases h with
    | unary _ he => rw [Expr.bare, term, term, term_bare t e he]
  | .binary op l r, _, _, h => by
    cases h with
    | binary _ hl hr =>
      rw [Expr.bare, term, term, testsNull?_bare, term_bare t l hl, term_bare t r hr]
  | .aggregate op f x b, _, _, h => by
    cases h with
    | aggregate _ _ hf hb =>
      rw [Expr.bare, term, term, placeTerm, placeTerm, locate_bare hf, term_bare t b hb]
  | .count f, _, _, h => by
    cases h with
    | count _ hf => rw [Expr.bare, term, term, placeTerm, placeTerm, locate_bare hf]
  | .connect k es, _, _, h => by
    cases h with
    | connect _ hes => rw [Expr.bare, term, term, terms_bareAll t es hes]
  | .not e, _, _, h => by
    cases h with
    | not he => rw [Expr.bare, term, term, term_bare t e he]
  | .quantifier q f x b, _, _, h => by
    cases h with
    | quantifier _ _ hf hb =>
      rw [Expr.bare, term, term, placeTerm, placeTerm, locate_bare hf, term_bare t b hb]

theorem terms_bareAll (t : Table) : (es : List Expr) → ∀ {scope : Scope} {bound : List String},
    (∀ e ∈ es, Expr.Scoped bound e) → terms t scope (Expr.bareAll es) = terms t scope es
  | [], _, _, _ => rfl
  | e :: es, _, _, h => by
    obtain ⟨he, hes⟩ := List.forall_mem_cons.1 h
    rw [Expr.bareAll, terms, terms, term_bare t e he, terms_bareAll t es hes]

end

/-! ### The stack -/

/-- `ranges` are the arguments that range over elements with their rows, the innermost first. -/
structure Translator where
  table : Table
  ranges : List (String × String)

namespace Translator

def place? (tr : Translator) (arg : String) : Option String :=
  match tr.ranges.lookup arg with
  | some r => some (r ++ ".value")
  | none => if arg = tr.table.rootArg then some tr.table.column else none

def resolve (tr : Translator) (name : String) (path : Path) :
    Except Error (String × List Segment) :=
  match path with
  | .key arg :: steps =>
    if Path.hasWildcard steps then .error (.wildcard name)
    else
      match tr.place? arg with
      | some base => .ok (base, steps)
      | none => .error (.unknownArgument arg name)
  | _ => .error (.noArgument name)

def locate (tr : Translator) : Expr → Except Error (String × List Segment)
  | .field name (some path) => tr.resolve name path
  | .field name none =>
    match Path.parse name with
    | .ok path => tr.resolve name path
    | .error e => .error (.invalidPath e)
  | e => .error (.notField e.kind)

def callOn (tr : Translator) (function : String) (f : Expr) : Except Error String := do
  let (base, steps) ← tr.locate f
  return call function base steps

def field (tr : Translator) (f : Expr) : Except Error String := do
  let (base, steps) ← tr.locate f
  return if steps.isEmpty then base else call "json_extract" base steps

def push (arg r : String) (tr : Translator) : Translator :=
  { tr with ranges := (arg, r) :: tr.ranges }

def pop (tr : Translator) : Translator := { tr with ranges := tr.ranges.tail }

def clear (tr : Translator) : Translator := { tr with ranges := [] }

/-- Goes on from where a step leaves the translator, unless the step fails. -/
def andThen {α β : Type} (p : Except Error α × Translator)
    (k : α → Translator → Except Error β × Translator) : Except Error β × Translator :=
  match p with
  | (.ok a, tr) => k a tr
  | (.error e, tr) => (.error e, tr)

/-- Runs `body` with `arg` on the stack, and takes it off again whatever comes of it. -/
def within {α : Type} (arg : String) (body : String → Translator → Except Error α × Translator)
    (tr : Translator) : Except Error α × Translator :=
  let r := s!"j{tr.ranges.length + 1}"
  let left := body r (tr.push arg r)
  (left.1, left.2.pop)

mutual

def traverse : Expr → Translator → Except Error String × Translator
  | .field name path, tr => (tr.field (.field name path), tr)
  | .literal a, tr => (.ok (literal a), tr)
  | .unary op e, tr => andThen (traverse e tr) fun value tr => (.ok (unary op value), tr)
  | .binary op l r, tr =>
    andThen (traverse l tr) fun left tr =>
      match nullTest? op r with
      | some test => (.ok s!"({left} {test})", tr)
      | none => andThen (traverse r tr) fun right tr => (.ok (binary op left right), tr)
  | .connect k es, tr =>
    andThen (traverseAll es tr) fun operands tr => (.ok (connective k operands), tr)
  | .not e, tr => andThen (traverse e tr) fun operand tr => (.ok ("NOT (" ++ operand ++ ")"), tr)
  | .count f, tr => (tr.callOn "json_array_length" f, tr)
  | .quantifier q f x b, tr =>
    andThen (tr.callOn "json_each" f, tr) fun source =>
      within x fun r tr =>
        andThen (traverse b tr) fun predicate tr => (.ok (quantifier q source r predicate), tr)
  | .aggregate op f x b, tr =>
    andThen (tr.callOn "json_each" f, tr) fun source =>
      within x fun r tr =>
        andThen (traverse b tr) fun value tr => (.ok (aggregate op source r value), tr)

def traverseAll : List Expr → Translator → Except Error (List String) × Translator
  | [], tr => (.ok [], tr)
  | e :: es, tr =>
    andThen (traverse e tr) fun s tr =>
      andThen (traverseAll es tr) fun ss tr => (.ok (s :: ss), tr)

end

/-- What an earlier call may have left on the stack is of no account. -/
def whereClause (e : Expr) (tr : Translator) : Except Error String × Translator :=
  traverse e tr.clear

/-! ### What a step leaves -/

section

variable {α β : Type} {tr : Translator}

theorem snd_andThen {p : Except Error α × Translator}
    {k : α → Translator → Except Error β × Translator} (hp : p.2 = tr)
    (hk : ∀ a, (k a tr).2 = tr) : (andThen p k).2 = tr := by
  obtain ⟨result, tr'⟩ := p
  obtain rfl := hp
  cases result with
  | ok a => exact hk a
  | error e => rfl

theorem snd_within {arg : String} {body : String → Translator → Except Error α × Translator}
    (h : ∀ r tr, (body r tr).2 = tr) : (within arg body tr).2 = tr := by
  show (body _ _).2.pop = tr
  rw [h]
  rfl

end

mutual

theorem traverse_snd : (e : Expr) → (tr : Translator) → (traverse e tr).2 = tr
  | .field _ _, _ => rfl
  | .literal _, _ => rfl
  | .unary _ e, tr => snd_andThen (traverse_snd e tr) fun _ => rfl
  | .binary op l r, tr => by
    refine snd_andThen (traverse_snd l tr) fun left => ?_
    split
    · rfl
    · exact snd_andThen (traverse_snd r tr) fun _ => rfl
  | .connect _ es, tr => snd_andThen (traverseAll_snd es tr) fun _ => rfl
  | .not e, tr => snd_andThen (traverse_snd e tr) fun _ => rfl
  | .count _, _ => rfl
  | .quantifier _ _ _ b, _ =>
    snd_andThen rfl fun _ => snd_within fun _ tr => snd_andThen (traverse_snd b tr) fun _ => rfl
  | .aggregate _ _ _ b, _ =>
    snd_andThen rfl fun _ => snd_within fun _ tr => snd_andThen (traverse_snd b tr) fun _ => rfl

theorem traverseAll_snd : (es : List Expr) → (tr : Translator) → (traverseAll es tr).2 = tr
  | [], _ => rfl
  | e :: es, tr =>
    snd_andThen (traverse_snd e tr) fun _ => snd_andThen (traverseAll_snd es tr) fun _ => rfl

end

/-! ### The stack and the scope -/

/-- A translator inside the ranges of a scope. -/
def inside (t : Table) (scope : Scope) : Translator := ⟨t, scope.zip (rowNames scope)⟩

variable {t : Table} {scope : Scope}

theorem place?_inside (arg : String) : (inside t scope).place? arg = base? t scope arg := by
  rw [base?, row?_eq]
  rfl

theorem locate_inside (f : Expr) : (inside t scope).locate f = Sql.locate t scope f := by
  have hresolve (name : String) (path : Path) :
      (inside t scope).resolve name path = locatePath t scope name path := by
    unfold resolve locatePath
    exact funext place?_inside ▸ rfl
  cases f with
  | field name path =>
    cases path with
    | none =>
      rw [locate, Sql.locate]
      cases Path.parse name with
      | ok path => exact hresolve name path
      | error e => rfl
    | some path => exact hresolve name path
  | _ => rfl

theorem callOn_inside (function : String) (f : Expr) : (inside t scope).callOn function f =
    (placeTerm function t scope f).map Term.text := by
  rw [callOn, locate_inside, placeTerm_text]
  cases Sql.locate t scope f <;> rfl

theorem within_inside {α : Type} (x : String)
    (body : String → Translator → Except Error α × Translator)
    (h : ∀ r tr, (body r tr).2 = tr) : within x body (inside t scope) =
      ((body (row (x :: scope)) (inside t (x :: scope))).1, inside t scope) := by
  have hlength : (scope.zip (rowNames scope)).length + 1 = (x :: scope).length := by
    rw [List.length_zip, length_rowNames, min_self, List.length_cons]
  have hrow : s!"j{(inside t scope).ranges.length + 1}" = row (x :: scope) := by
    rw [inside, hlength]
    rfl
  rw [within, hrow]
  apply Prod.ext
  · rfl
  · show (body _ _).2.pop = _
    rw [h]
    rfl

mutual

theorem traverse_inside : (e : Expr) → (scope : Scope) →
    traverse e (inside t scope) = (condition t scope e, inside t scope)
  | .field name path, scope => by
    rw [traverse, field, locate_inside]
    rfl
  | .literal _, _ => rfl
  | .unary op e, scope => by
    rw [traverse, traverse_inside e scope, condition]
    cases condition t scope e <;> rfl
  | .binary op l r, scope => by
    rw [traverse, traverse_inside l scope, condition]
    cases condition t scope l with
    | error err => rfl
    | ok left =>
      rw [andThen]
      cases nullTest? op r with
      | some test => rfl
      | none =>
        dsimp only
        rw [traverse_inside r scope]
        cases condition t scope r <;> rfl
  | .connect k es, scope => by
    rw [traverse, traverseAll_inside es scope, condition]
    cases conditions t scope es <;> rfl
  | .not e, scope => by
    rw [traverse, traverse_inside e scope, condition]
    cases condition t scope e <;> rfl
  | .count f, scope => by
    rw [traverse, callOn_inside, placeTerm_text, condition]
    cases Sql.locate t scope f <;> rfl
  | .quantifier q f x b, scope => by
    rw [traverse, callOn_inside, ← rows_eq, condition]
    cases rows t scope f with
    | error err => rfl
    | ok source =>
      rw [andThen, within_inside x _ fun _ tr => snd_andThen (traverse_snd b tr) fun _ => rfl,
        traverse_inside b (x :: scope)]
      cases condition t (x :: scope) b <;> rfl
  | .aggregate op f x b, scope => by
    rw [traverse, callOn_inside, ← rows_eq, condition]
    cases rows t scope f with
    | error err => rfl
    | ok source =>
      rw [andThen, within_inside x _ fun _ tr => snd_andThen (traverse_snd b tr) fun _ => rfl,
        traverse_inside b (x :: scope)]
      cases condition t (x :: scope) b <;> rfl

theorem traverseAll_inside : (es : List Expr) → (scope : Scope) →
    traverseAll es (inside t scope) = (conditions t scope es, inside t scope)
  | [], _ => rfl
  | e :: es, scope => by
    rw [traverseAll, traverse_inside e scope, conditions]
    cases condition t scope e with
    | error err => rfl
    | ok s =>
      rw [andThen, traverseAll_inside es scope]
      cases conditions t scope es <;> rfl

end

theorem whereClause_eq (e : Expr) (tr : Translator) :
    whereClause e tr = (clause tr.table e, tr.clear) :=
  traverse_inside e []

/-- Whatever was translated before, with whatever outcome, an expression that is checked has a
clause unless a field in it has a wildcard. -/
theorem whereClause_resolve {r : String} {e e' : Expr} (h : Expr.resolve [r] e = .ok e')
    (tr : Translator) (hr : tr.table.rootArg = r) :
    (∀ x, x = e' ∨ x = e.bare →
      (((whereClause x tr).1.isOk = true ↔ ∀ f ∈ e'.nodes, f.isStarred = false) ∧
      (∀ err, (whereClause x tr).1 = .error err → ∃ name path,
        err.unsupported? = some ("field", s!"wildcard in '{name}'") ∧
          .field name path ∈ e'.nodes ∧ (Expr.field name path).isStarred = true) ∧
      ∀ s, (whereClause x tr).1 = .ok s → ∃ m, term tr.table [] x = .ok m ∧ m.text = s ∧
        List.Forall₂ (Based tr.table) (m.places []) (x.uses []))) ∧
    ∀ (x : Expr) (tr : Translator), (traverse x tr).2 = tr := by
  refine ⟨fun x hx => ?_, traverse_snd⟩
  have hscoped := Expr.scoped_of_resolve e h
  rw [← hr] at hscoped
  have hterm : term tr.table [] x = term tr.table [] e' := by
    rcases hx with rfl | rfl
    · rfl
    · rw [← Expr.bare_resolve e h, term_bare tr.table e' hscoped]
  have hclause : (whereClause x tr).1 = (term tr.table [] x).map Term.text := by
    rw [whereClause_eq, clause, condition_eq]
  have houtcome : Outcome e'.nodes (term tr.table [] e') := outcome_term tr.table e' hscoped
  rw [← hterm] at houtcome
  have hplaces (m : Term) (hm : term tr.table [] x = .ok m) :
      List.Forall₂ (Based tr.table) (m.places []) (x.uses []) :=
    (inherited_places tr.table).term x hm
  rw [hclause]
  generalize term tr.table [] x = result at houtcome hplaces
  cases houtcome with
  | error hf hstar =>
    refine ⟨?_, ?_, ?_⟩
    · constructor
      · intro hok
        cases hok
      · intro hnone
        rw [hnone _ hf] at hstar
        cases hstar
    · rintro _ ⟨⟩
      exact ⟨_, _, rfl, hf, hstar⟩
    · rintro _ ⟨⟩
  | ok m hnone =>
    refine ⟨⟨fun _ => hnone, fun _ => rfl⟩, ?_, ?_⟩
    · rintro _ ⟨⟩
    · rintro _ ⟨⟩
      exact ⟨m, rfl, rfl, hplaces m rfl⟩

/-- The argument of the range hides the one of the document, also from a stack that is not empty. -/
theorem whereClause_resolve_hidden :
    let e : Expr := .quantifier .any (.field "o.a" none) "o" (.field "o.b" none)
    let e' : Expr := .quantifier .any (.field "o.a" (some [.key "o", .key "a"])) "o"
      (.field "o.b" (some [.key "o", .key "b"]))
    let tr : Translator := ⟨⟨"doc", "o"⟩, [("y", "j9")]⟩
    Expr.resolve ["o"] e = .ok e' ∧
      ∃ s m, (whereClause e' tr).1 = .ok s ∧ term tr.table [] e' = .ok m ∧ m.text = s ∧
        m.places [] = [([], "doc"), (["j1"], "j1.value")] ∧
        List.Forall₂ (Based tr.table) (m.places []) (e'.uses []) ∧
        (traverse e' tr).2 = tr := by
  intro e e' tr
  have h : Expr.resolve ["o"] e = .ok e' := by rfl
  obtain ⟨hall, hstack⟩ := whereClause_resolve h tr rfl
  obtain ⟨hok, -, hplaces⟩ := hall e' (.inl rfl)
  have htrue : (whereClause e' tr).1.isOk = true := hok.2 (by decide)
  cases hs : (whereClause e' tr).1 with
  | error err =>
    rw [hs] at htrue
    cases htrue
  | ok s =>
    obtain ⟨m, hm, htext, hbased⟩ := hplaces s hs
    refine ⟨h, s, m, rfl, hm, htext, ?_, hbased, hstack e' tr⟩
    have hterm : term tr.table [] e' = .ok (.call "EXISTS" (.selectWhere (.number "1")
      (.call "json_each" (.both (.place "doc") (.string (jsonPath [.key "a"])))) "j1"
      (.call "json_extract" (.both (.place "j1.value") (.string (jsonPath [.key "b"])))))) := by
      rfl
    obtain rfl := Except.ok.inj (hm.symm.trans hterm)
    rfl

end Translator

end Sql

end Quarry
