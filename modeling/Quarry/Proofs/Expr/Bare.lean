import Quarry.Proofs.Expr.Folding
import Quarry.Proofs.Expr.Rereading
import Quarry.Proofs.Expr.Scoped

/-!
The paths that fields hold are there for evaluation only: an expression without them is written and
folded as it is with them, and a check gives them back.
-/

namespace Quarry.Expr

mutual

/-- The expression without the paths that its fields hold. -/
def bare : Expr → Expr
  | .field name _ => .field name none
  | .literal a => .literal a
  | .unary op e => .unary op e.bare
  | .binary op l r => .binary op l.bare r.bare
  | .aggregate op f x b => .aggregate op f.bare x b.bare
  | .count f => .count f.bare
  | .connect k es => .connect k (bareAll es)
  | .not e => .not e.bare
  | .quantifier q f x b => .quantifier q f.bare x b.bare

def bareAll : List Expr → List Expr
  | [] => []
  | e :: es => e.bare :: bareAll es

end

theorem isBoolean_bare (e : Expr) : e.bare.isBoolean = e.isBoolean := by
  cases e with
  | quantifier q => cases q <;> rfl
  | _ => rfl

theorem kind_bare (e : Expr) : e.bare.kind = e.kind := by
  cases e <;> rfl

theorem literal?_bare (e : Expr) : e.bare.literal? = e.literal? := by
  cases e <;> rfl

theorem precedence_bare (e : Expr) : e.bare.precedence = e.precedence := by
  cases e with
  | unary op => cases op <;> rfl
  | connect k es =>
    match es with
    | [] => rfl
    | [_] => rfl
    | _ :: _ :: _ => cases k <;> rfl
  | _ => rfl

mutual

theorem bare_eq_self : (e : Expr) → (∀ name path, .field name path ∈ e.nodes → path = none) →
    e.bare = e
  | .field name path, h => by
    rw [bare, h name path (List.mem_singleton.2 rfl)]
  | .literal _, _ => rfl
  | .unary _ e, h => by
    rw [bare, bare_eq_self e fun n p hp => h n p (by simp [nodes, hp])]
  | .binary _ l r, h => by
    rw [bare, bare_eq_self l fun n p hp => h n p (by simp [nodes, hp]),
      bare_eq_self r fun n p hp => h n p (by simp [nodes, hp])]
  | .aggregate _ f _ b, h => by
    rw [bare, bare_eq_self f fun n p hp => h n p (by simp [nodes, hp]),
      bare_eq_self b fun n p hp => h n p (by simp [nodes, hp])]
  | .count f, h => by
    rw [bare, bare_eq_self f fun n p hp => h n p (by simp [nodes, hp])]
  | .connect _ es, h => by
    rw [bare, bareAll_eq_self es fun n p hp => h n p (by simp [nodes, hp])]
  | .not e, h => by
    rw [bare, bare_eq_self e fun n p hp => h n p (by simp [nodes, hp])]
  | .quantifier _ f _ b, h => by
    rw [bare, bare_eq_self f fun n p hp => h n p (by simp [nodes, hp]),
      bare_eq_self b fun n p hp => h n p (by simp [nodes, hp])]

theorem bareAll_eq_self : (es : List Expr) →
    (∀ name path, .field name path ∈ nodesAll es → path = none) → bareAll es = es
  | [], _ => rfl
  | e :: es, h => by
    rw [bareAll, bare_eq_self e fun n p hp => h n p (List.mem_append_left _ hp),
      bareAll_eq_self es fun n p hp => h n p (List.mem_append_right _ hp)]

end

mutual

theorem text_bare : (e : Expr) → e.bare.text = e.text
  | .field _ _ => rfl
  | .literal _ => rfl
  | .unary op e => by
    cases op <;> simp only [bare, text, text_bare e, precedence_bare]
  | .binary _ l r => by
    simp only [bare, text, text_bare l, text_bare r, precedence_bare]
  | .aggregate _ f _ b => by
    simp only [bare, text, text_bare f, text_bare b]
  | .count f => by
    simp only [bare, text, text_bare f]
  | .connect _ [] => rfl
  | .connect _ [e] => by
    simp only [bare, bareAll, text, text_bare e]
  | .connect k (e :: e' :: es) => by
    have hes := textAfter_bareAll k (e' :: es)
    rw [bareAll] at hes
    simp only [bare, bareAll, text, text_bare e, precedence_bare, hes]
  | .not e => by
    simp only [bare, text, text_bare e, precedence_bare]
  | .quantifier _ f _ b => by
    simp only [bare, text, text_bare f, text_bare b]

theorem textAfter_bareAll (k : Connective) : (es : List Expr) →
    textAfter k (bareAll es) = textAfter k es
  | [] => rfl
  | e :: es => by
    simp only [bareAll, textAfter, text_bare e, precedence_bare, textAfter_bareAll k es]

end

mutual

theorem toJson_bare : (e : Expr) → e.bare.toJson = e.toJson
  | .field _ _ => rfl
  | .literal _ => rfl
  | .unary _ e => by rw [bare, toJson, toJson, toJson_bare e]
  | .binary _ l r => by rw [bare, toJson, toJson, toJson_bare l, toJson_bare r]
  | .aggregate _ f _ b => by rw [bare, toJson, toJson, toJson_bare f, toJson_bare b]
  | .count f => by rw [bare, toJson, toJson, toJson_bare f]
  | .connect _ es => by rw [bare, toJson, toJson, allToJson_bareAll es]
  | .not e => by rw [bare, toJson, toJson, toJson_bare e]
  | .quantifier _ f _ b => by rw [bare, toJson, toJson, toJson_bare f, toJson_bare b]

theorem allToJson_bareAll : (es : List Expr) → allToJson (bareAll es) = allToJson es
  | [] => rfl
  | e :: es => by rw [bareAll, allToJson, allToJson, toJson_bare e, allToJson_bareAll es]

end

/-! ### Folding -/

theorem mapM_literal?_bareAll (es : List Expr) :
    (bareAll es).mapM literal? = es.mapM literal? := by
  induction es with
  | nil => rfl
  | cons e es ih => rw [bareAll, List.mapM_cons, List.mapM_cons, ih, literal?_bare]

theorem literalValue?_bare (e : Expr) : e.bare.literalValue? = e.literalValue? := by
  cases e with
  | unary op e => rw [bare, literalValue?, literalValue?, literal?_bare]
  | binary op l r => rw [bare, literalValue?, literalValue?, literal?_bare, literal?_bare]
  | connect k es => rw [bare, literalValue?, literalValue?, mapM_literal?_bareAll]
  | not e => rw [bare, literalValue?, literalValue?, literal?_bare]
  | _ => rfl

theorem reduce_cases (e : Expr) :
    e.literalValue?.bind ofScalar? = none ∧ e.reduce = e ∨
      ∃ a, e.literalValue?.bind ofScalar? = some (.literal a) ∧ e.reduce = .literal a := by
  unfold reduce
  cases h : e.literalValue?.bind ofScalar? with
  | none => exact .inl ⟨rfl, rfl⟩
  | some e' =>
    obtain ⟨s, -, hs⟩ := Option.bind_eq_some_iff.1 h
    obtain ⟨a, rfl, -⟩ := literal_of_ofScalar? hs
    exact .inr ⟨a, rfl, rfl⟩

theorem reduce_bare (e : Expr) : e.bare.reduce = e.reduce.bare := by
  rcases reduce_cases e with ⟨hvalue, heq⟩ | ⟨a, hvalue, heq⟩
  · rw [heq, reduce, literalValue?_bare, hvalue, Option.getD_none]
  · rw [heq, reduce, literalValue?_bare, hvalue, Option.getD_some, bare]

mutual

theorem fold_bare : (e : Expr) → e.bare.fold = e.fold.bare
  | .field _ _ => rfl
  | .literal _ => rfl
  | .unary _ e => by rw [bare, fold, fold, fold_bare e, ← reduce_bare, bare]
  | .binary _ l r => by rw [bare, fold, fold, fold_bare l, fold_bare r, ← reduce_bare, bare]
  | .aggregate _ _ _ b => by rw [bare, fold, fold, fold_bare b, bare]
  | .count _ => rfl
  | .connect _ es => by rw [bare, fold, fold, foldAll_bareAll es, ← reduce_bare, bare]
  | .not e => by rw [bare, fold, fold, fold_bare e, ← reduce_bare, bare]
  | .quantifier _ _ _ b => by rw [bare, fold, fold, fold_bare b, bare]

theorem foldAll_bareAll : (es : List Expr) → foldAll (bareAll es) = bareAll (foldAll es)
  | [] => rfl
  | e :: es => by rw [bareAll, foldAll, foldAll, bareAll, fold_bare e, foldAll_bareAll es]

end

/-! ### Checking -/

theorem bare_resolveField {scope : List String} {name : String} {e : Expr}
    (h : resolveField scope name = .ok e) : e.bare = .field name none := by
  unfold resolveField at h
  split at h
  · cases h
  · split at h <;> cases h
    rfl
  · cases h

theorem bare_resolveIterated {scope : List String} {node : String} {f f' : Expr}
    (h : resolveIterated scope node f = .ok f') : f'.bare = f.bare := by
  cases f with
  | field name path => exact bare_resolveField h
  | _ => cases h

mutual

theorem bare_resolve : (e : Expr) → ∀ {scope : List String} {e' : Expr},
    resolve scope e = .ok e' → e'.bare = e.bare
  | .field _ _, _, _, h => bare_resolveField h
  | .literal _, _, _, h => by
    cases h
    rfl
  | .unary _ e, _, _, h => by
    obtain ⟨e', he, h⟩ := Parser.bind_eq_ok.1 h
    cases h
    rw [bare, bare, bare_resolve e he]
  | .binary _ l r, _, _, h => by
    obtain ⟨l', hl, h⟩ := Parser.bind_eq_ok.1 h
    obtain ⟨r', hr, h⟩ := Parser.bind_eq_ok.1 h
    cases h
    rw [bare, bare, bare_resolve l hl, bare_resolve r hr]
  | .aggregate _ _ _ b, _, _, h => by
    obtain ⟨f', hf, h⟩ := Parser.bind_eq_ok.1 h
    obtain ⟨b', hb, h⟩ := Parser.bind_eq_ok.1 h
    cases h
    rw [bare, bare, bare_resolveIterated hf, bare_resolve b hb]
  | .count _, _, _, h => by
    obtain ⟨f', hf, h⟩ := Parser.bind_eq_ok.1 h
    cases h
    rw [bare, bare, bare_resolveIterated hf]
  | .connect _ es, _, _, h => by
    unfold resolve at h
    split at h
    · cases h
    · obtain ⟨es', hes, h⟩ := Parser.bind_eq_ok.1 h
      cases h
      rw [bare, bare, bareAll_resolveAll es hes]
  | .not e, _, _, h => by
    obtain ⟨e', he, h⟩ := Parser.bind_eq_ok.1 h
    cases h
    rw [bare, bare, bare_resolve e he]
  | .quantifier _ _ _ b, _, _, h => by
    obtain ⟨f', hf, h⟩ := Parser.bind_eq_ok.1 h
    obtain ⟨b', hb, h⟩ := Parser.bind_eq_ok.1 h
    cases h
    rw [bare, bare, bare_resolveIterated hf, bare_resolve b hb]

theorem bareAll_resolveAll : (es : List Expr) → ∀ {scope : List String} {es' : List Expr},
    resolveAll scope es = .ok es' → bareAll es' = bareAll es
  | [], _, _, h => by
    cases h
    rfl
  | e :: es, _, _, h => by
    obtain ⟨e', he, h⟩ := Parser.bind_eq_ok.1 h
    obtain ⟨es', hes, h⟩ := Parser.bind_eq_ok.1 h
    cases h
    rw [bareAll, bareAll, bare_resolve e he, bareAll_resolveAll es hes]

end

end Quarry.Expr
