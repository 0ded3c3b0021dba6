import Quarry.Proofs.Expr.Bare

/-!
A check on one stack of arguments, which writes the paths into the fields one after the other. It
accepts what is well scoped, gives every field the path of its name, and leaves its stack as it was,
also when it fails.
-/

namespace Quarry.Expr

open Quarry.Expr.Parser (bind_eq_ok)

/-! ### What is accepted -/

mutual

/-- An expression and all that it is made of, each with the arguments in scope there. What is ranged
over stands outside of the scope of the argument. -/
def occurrences (scope : List String) : Expr → List (List String × Expr)
  | .field name path => [(scope, .field name path)]
  | .literal a => [(scope, .literal a)]
  | .unary op e => (scope, .unary op e) :: occurrences scope e
  | .binary op l r => (scope, .binary op l r) :: (occurrences scope l ++ occurrences scope r)
  | .aggregate op f x b =>
    (scope, .aggregate op f x b) :: (occurrences scope f ++ occurrences (x :: scope) b)
  | .count f => (scope, .count f) :: occurrences scope f
  | .connect k es => (scope, .connect k es) :: occurrencesAll scope es
  | .not e => (scope, .not e) :: occurrences scope e
  | .quantifier q f x b =>
    (scope, .quantifier q f x b) :: (occurrences scope f ++ occurrences (x :: scope) b)

def occurrencesAll (scope : List String) : List Expr → List (List String × Expr)
  | [] => []
  | e :: es => occurrences scope e ++ occurrencesAll scope es

end

/-- A connective has operands, and only fields are ranged over. -/
def Shaped : Expr → Prop
  | .connect _ es => es ≠ []
  | .aggregate _ f _ _ => f.isField = true
  | .count f => f.isField = true
  | .quantifier _ f _ _ => f.isField = true
  | _ => True

/-- A field has a path, which begins with an argument in scope. -/
def Rooted (scope : List String) : Expr → Prop
  | .field name _ => ∃ arg steps, Path.parse name = .ok (.key arg :: steps) ∧ arg ∈ scope
  | _ => True

def WellScoped (scope : List String) (e : Expr) : Prop :=
  ∀ o ∈ e.occurrences scope, o.2.Shaped ∧ o.2.Rooted o.1

mutual

/-- The expression with the path of its name in every field. -/
def routed : Expr → Expr
  | .field name _ => .field name (Path.parse name).toOption
  | .literal a => .literal a
  | .unary op e => .unary op e.routed
  | .binary op l r => .binary op l.routed r.routed
  | .aggregate op f x b => .aggregate op f.routed x b.routed
  | .count f => .count f.routed
  | .connect k es => .connect k (routedAll es)
  | .not e => .not e.routed
  | .quantifier q f x b => .quantifier q f.routed x b.routed

def routedAll : List Expr → List Expr
  | [] => []
  | e :: es => e.routed :: routedAll es

end

section

variable {scope : List String} {e l r f b : Expr} {es : List Expr} {x : String}

theorem wellScoped_field {name : String} {path : Option Path} :
    WellScoped scope (.field name path) ↔ Rooted scope (.field name path) :=
  List.forall_mem_singleton.trans (and_iff_right trivial)

theorem wellScoped_literal (a : Atom) : WellScoped scope (.literal a) :=
  List.forall_mem_singleton.2 ⟨trivial, trivial⟩

theorem wellScoped_unary {op : UnaryOp} :
    WellScoped scope (.unary op e) ↔ WellScoped scope e :=
  List.forall_mem_cons.trans (and_iff_right ⟨trivial, trivial⟩)

theorem wellScoped_binary {op : BinaryOp} :
    WellScoped scope (.binary op l r) ↔ WellScoped scope l ∧ WellScoped scope r := by
  refine List.forall_mem_cons.trans ((and_iff_right ⟨trivial, trivial⟩).trans ?_)
  exact List.forall_mem_append

theorem wellScoped_aggregate {op : AggregateOp} : WellScoped scope (.aggregate op f x b) ↔
    (f.isField = true ∧ WellScoped scope f) ∧ WellScoped (x :: scope) b := by
  rw [and_assoc]
  refine List.forall_mem_cons.trans (and_congr (and_iff_left trivial) ?_)
  exact List.forall_mem_append

theorem wellScoped_count :
    WellScoped scope (.count f) ↔ f.isField = true ∧ WellScoped scope f :=
  List.forall_mem_cons.trans (and_congr_left' (and_iff_left trivial))

theorem wellScoped_connect {k : Connective} : WellScoped scope (.connect k es) ↔
    es ≠ [] ∧ ∀ o ∈ occurrencesAll scope es, o.2.Shaped ∧ o.2.Rooted o.1 :=
  List.forall_mem_cons.trans (and_congr_left' (and_iff_left trivial))

theorem wellScoped_not : WellScoped scope (.not e) ↔ WellScoped scope e :=
  List.forall_mem_cons.trans (and_iff_right ⟨trivial, trivial⟩)

theorem wellScoped_quantifier {q : Quantifier} : WellScoped scope (.quantifier q f x b) ↔
    (f.isField = true ∧ WellScoped scope f) ∧ WellScoped (x :: scope) b := by
  rw [and_assoc]
  refine List.forall_mem_cons.trans (and_congr (and_iff_left trivial) ?_)
  exact List.forall_mem_append

end

/-- A computation succeeds exactly under a condition, and only with one result. -/
def Yields {α : Type} (x : Except ScopeError α) (P : Prop) (a : α) : Prop :=
  ∀ b, x = .ok b ↔ P ∧ b = a

section

variable {α β γ : Type} {x : Except ScopeError α} {y : Except ScopeError β} {P Q : Prop} {a : α}
  {b : β}

theorem Yields.map (hx : Yields x P a) (g : α → β) :
    Yields (do return g (← x)) P (g a) := by
  intro c
  rw [bind_eq_ok]
  constructor
  · rintro ⟨a', ha, hc⟩
    obtain ⟨hP, rfl⟩ := (hx a').1 ha
    cases hc
    exact ⟨hP, rfl⟩
  · rintro ⟨hP, rfl⟩
    exact ⟨a, (hx a).2 ⟨hP, rfl⟩, rfl⟩

theorem Yields.seq (hx : Yields x P a) (hy : Yields y Q b) (g : α → β → γ) :
    Yields (do return g (← x) (← y)) (P ∧ Q) (g a b) := by
  intro c
  rw [bind_eq_ok]
  constructor
  · rintro ⟨a', ha, hc⟩
    obtain ⟨hP, rfl⟩ := (hx a').1 ha
    obtain ⟨hQ, hc⟩ := (hy.map (g a') c).1 hc
    exact ⟨⟨hP, hQ⟩, hc⟩
  · rintro ⟨⟨hP, hQ⟩, hc⟩
    exact ⟨a, (hx a).2 ⟨hP, rfl⟩, (hy.map (g a) c).2 ⟨hQ, hc⟩⟩

end

theorem resolveField_yields (scope : List String) (name : String) (path : Option Path) :
    Yields (resolveField scope name) (WellScoped scope (.field name path))
      (.field name (Path.parse name).toOption) := by
  intro e
  rw [wellScoped_field, Rooted, resolveField]
  split
  · rename_i hpath
    simp [hpath]
  · rename_i arg rest hpath
    by_cases harg : arg ∈ scope
    · simp [hpath, harg, Except.toOption, eq_comm]
    · simp [hpath, harg]
  · rename_i p hkey hpath
    constructor
    · rintro ⟨⟩
    · rintro ⟨⟨arg, steps, hok, -⟩, -⟩
      rw [hpath] at hok
      cases hok
      exact absurd rfl (hkey arg steps)

theorem resolveIterated_yields (scope : List String) (node : String) (f : Expr) :
    Yields (resolveIterated scope node f) (f.isField = true ∧ WellScoped scope f) f.routed := by
  cases f with
  | field name path =>
    have hfield : (Expr.field name path).isField = true := rfl
    rw [and_iff_right hfield]
    exact resolveField_yields scope name path
  | _ => exact fun f' => ⟨nofun, fun h => nomatch h.1.1⟩

mutual

theorem resolve_yields : (e : Expr) → (scope : List String) →
    Yields (resolve scope e) (WellScoped scope e) e.routed
  | .field name path, scope => resolveField_yields scope name path
  | .literal a, scope => by
    intro e
    rw [and_iff_right (wellScoped_literal a)]
    exact (Except.ok.injEq _ _).to_iff.trans eq_comm
  | .unary op e, scope => by
    rw [wellScoped_unary]
    exact (resolve_yields e scope).map _
  | .binary op l r, scope => by
    rw [wellScoped_binary]
    exact (resolve_yields l scope).seq (resolve_yields r scope) _
  | .aggregate op f x b, scope => by
    rw [wellScoped_aggregate]
    exact (resolveIterated_yields scope _ f).seq (resolve_yields b (x :: scope)) _
  | .count f, scope => by
    rw [wellScoped_count]
    exact (resolveIterated_yields scope _ f).map _
  | .connect k es, scope => by
    rw [wellScoped_connect, resolve]
    cases es with
    | nil => exact fun e => ⟨nofun, fun h => absurd rfl h.1.1⟩
    | cons e es =>
      rw [and_iff_right (List.cons_ne_nil e es)]
      exact (resolveAll_yields (e :: es) scope).map _
  | .not e, scope => by
    rw [wellScoped_not]
    exact (resolve_yields e scope).map _
  | .quantifier q f x b, scope => by
    rw [wellScoped_quantifier]
    exact (resolveIterated_yields scope _ f).seq (resolve_yields b (x :: scope)) _

theorem resolveAll_yields : (es : List Expr) → (scope : List String) →
    Yields (resolveAll scope es)
      (∀ o ∈ occurrencesAll scope es, o.2.Shaped ∧ o.2.Rooted o.1) (routedAll es)
  | [], scope => by
    intro es
    rw [occurrencesAll, and_iff_right (List.forall_mem_nil _)]
    exact (Except.ok.injEq _ _).to_iff.trans eq_comm
  | e :: es, scope => by
    rw [occurrencesAll, List.forall_mem_append]
    exact (resolve_yields e scope).seq (resolveAll_yields es scope) _

end

/-! ### The stack -/

/-- What a part of a check comes to: a failure or none, the expression with the paths that are
written into it so far, and the arguments in scope, the innermost at the end. -/
structure Pass (α : Type) where
  outcome : Except ScopeError Unit
  tree : α
  stack : List String

namespace Pass

variable {α β : Type}

def map (g : α → β) (p : Pass α) : Pass β := ⟨p.outcome, g p.tree, p.stack⟩

/-- Goes on with a second part, which stays as it is if the first one fails. -/
def andThen (p : Pass α) (b : β) (next : List String → Pass β) : Pass (α × β) :=
  match p.outcome with
  | .ok _ => (next p.stack).map fun b => (p.tree, b)
  | .error e => ⟨.error e, (p.tree, b), p.stack⟩

/-- Checks a part with an argument on the stack, and takes it off again whatever comes of it. -/
def under (x : String) (part : List String → Pass α) (stack : List String) : Pass α :=
  let p := part (stack ++ [x])
  { p with stack := p.stack.dropLast }

/-- The expression that a check gives if it does not fail. -/
def result (p : Pass α) : Except ScopeError α := p.outcome.map fun _ => p.tree

/-- The check computes a result and gives the stack back. -/
structure Computes (p : Pass α) (r : Except ScopeError α) (stack : List String) : Prop where
  result : p.result = r
  stack : p.stack = stack

variable {p : Pass α} {r : Except ScopeError α} {t : Except ScopeError β} {stack : List String}

theorem Computes.map (h : p.Computes r stack) (g : α → β) :
    (p.map g).Computes (do return g (← r)) stack := by
  obtain ⟨rfl, hstack⟩ := h
  refine ⟨?_, hstack⟩
  obtain ⟨outcome, tree, stack⟩ := p
  cases outcome <;> rfl

theorem Computes.andThen {γ : Type} (h : p.Computes r stack) (b : β)
    {next : List String → Pass β} (hnext : (next stack).Computes t stack) (g : α → β → γ) :
    ((p.andThen b next).map fun c => g c.1 c.2).Computes (do return g (← r) (← t)) stack := by
  obtain ⟨outcome, tree, stack'⟩ := p
  obtain ⟨rfl, hstack⟩ := h
  obtain rfl : stack' = stack := hstack
  cases outcome with
  | error e => exact ⟨rfl, rfl⟩
  | ok _ => exact hnext.map (g tree)

theorem Computes.under {part : List String → Pass α} {x : String}
    (h : (part (stack ++ [x])).Computes r (stack ++ [x])) :
    (Pass.under x part stack).Computes r stack := by
  refine ⟨h.result, ?_⟩
  rw [Pass.under, h.stack, List.dropLast_concat]

end Pass

def checkField (name : String) (path : Option Path) (stack : List String) : Pass Expr :=
  match Path.parse name with
  | .error e => ⟨.error (.invalidPath e), .field name path, stack⟩
  | .ok (.key arg :: steps) =>
    if stack.contains arg then ⟨.ok (), .field name (some (.key arg :: steps)), stack⟩
    else ⟨.error (.unknownArgument arg name), .field name path, stack⟩
  | .ok _ => ⟨.error (.unknownArgument "" name), .field name path, stack⟩

def checkRange (node : String) : Expr → List String → Pass Expr
  | .field name path, stack => checkField name path stack
  | f, stack => ⟨.error (.notIterable node), f, stack⟩

mutual

def check : Expr → List String → Pass Expr
  | .field name path, stack => checkField name path stack
  | .literal a, stack => ⟨.ok (), .literal a, stack⟩
  | .unary op e, stack => (check e stack).map (.unary op)
  | .binary op l r, stack =>
    ((check l stack).andThen r (check r)).map fun c => .binary op c.1 c.2
  | .aggregate op f x b, stack =>
    ((checkRange "aggregate" f stack).andThen b (Pass.under x (check b))).map fun c =>
      .aggregate op c.1 x c.2
  | .count f, stack => (checkRange "count" f stack).map .count
  | .connect k es, stack =>
    if es.isEmpty then ⟨.error (.noOperands k.kind), .connect k es, stack⟩
    else (checkAll es stack).map (.connect k)
  | .not e, stack => (check e stack).map .not
  | .quantifier q f x b, stack =>
    ((checkRange "quantifier" f stack).andThen b (Pass.under x (check b))).map fun c =>
      .quantifier q c.1 x c.2

def checkAll : List Expr → List String → Pass (List Expr)
  | [], stack => ⟨.ok (), [], stack⟩
  | e :: es, stack => ((check e stack).andThen es (checkAll es)).map fun c => c.1 :: c.2

end

theorem checkField_computes (name : String) (path : Option Path) (stack : List String) :
    (checkField name path stack).Computes (resolveField stack.reverse name) stack := by
  rw [checkField, resolveField]
  cases Path.parse name with
  | error e => exact ⟨rfl, rfl⟩
  | ok p =>
    cases p with
    | nil => exact ⟨rfl, rfl⟩
    | cons s steps =>
      cases s with
      | key arg =>
        dsimp only
        rw [List.contains_reverse]
        split <;> exact ⟨rfl, rfl⟩
      | index _ => exact ⟨rfl, rfl⟩
      | wildcard => exact ⟨rfl, rfl⟩

theorem checkRange_computes (node : String) (f : Expr) (stack : List String) :
    (checkRange node f stack).Computes (resolveIterated stack.reverse node f) stack := by
  cases f with
  | field name path => exact checkField_computes name path stack
  | _ => exact ⟨rfl, rfl⟩

mutual

theorem check_computes : (e : Expr) → (stack : List String) →
    (check e stack).Computes (resolve stack.reverse e) stack
  | .field name path, stack => checkField_computes name path stack
  | .literal _, _ => ⟨rfl, rfl⟩
  | .unary op e, stack => (check_computes e stack).map _
  | .binary op l r, stack => (check_computes l stack).andThen r (check_computes r stack) _
  | .aggregate op f x b, stack => by
    have hb := check_computes b (stack ++ [x])
    rw [List.reverse_concat] at hb
    exact (checkRange_computes "aggregate" f stack).andThen b hb.under fun f b =>
      Expr.aggregate op f x b
  | .count f, stack => (checkRange_computes _ f stack).map _
  | .connect k es, stack => by
    rw [check, resolve]
    split
    · exact ⟨rfl, rfl⟩
    · exact (checkAll_computes es stack).map _
  | .not e, stack => (check_computes e stack).map _
  | .quantifier q f x b, stack => by
    have hb := check_computes b (stack ++ [x])
    rw [List.reverse_concat] at hb
    exact (checkRange_computes "quantifier" f stack).andThen b hb.under fun f b =>
      Expr.quantifier q f x b

theorem checkAll_computes : (es : List Expr) → (stack : List String) →
    (checkAll es stack).Computes (resolveAll stack.reverse es) stack
  | [], _ => ⟨rfl, rfl⟩
  | e :: es, stack => (check_computes e stack).andThen es (checkAll_computes es stack) _

end

/-- The checked expression is the one with the path of its name in every field. -/
theorem check_iff (e : Expr) (stack : List String) :
    (∀ e', (check e stack).result = .ok e' ↔ WellScoped stack.reverse e ∧ e' = e.routed) ∧
      (check e stack).stack = stack ∧ resolve stack.reverse e = (check e stack).result := by
  have h := check_computes e stack
  rw [h.result]
  exact ⟨resolve_yields e stack.reverse, h.stack, rfl⟩

-- What is ranged over does not see the argument. What was checked before has its path by then.
example : check (.binary .add (.field "o" none) (.aggregate .sum (.field "x" none) "x"
    (.field "x" none))) ["o"] = ⟨.error (.unknownArgument "x" "x"),
      .binary .add (.field "o" (some [.key "o"])) (.aggregate .sum (.field "x" none) "x"
        (.field "x" none)), ["o"]⟩ := by
  rfl

end Quarry.Expr
