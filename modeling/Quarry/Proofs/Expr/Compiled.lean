import Quarry.Command
import Quarry.Proofs.Expr.Wired
import Quarry.Proofs.Numeral.Negation

/-!
What is shown of a lambda, the text of its body and the JSON of it, is compiled to the lambda again.
Excepted are the least integer and numbers that are not finite, which no text is read as, and JSON
that is nested too deep.
-/

namespace Quarry

namespace Expr

variable {N : String → Prop}

/-! ### Folding again -/

theorem fold_of_isField {e : Expr} (h : e.isField = true) : e.fold = e := by
  cases e with
  | field => rfl
  | _ => cases h

theorem fold_reduce {e : Expr} (h : e.fold = e.reduce) : e.reduce.fold = e.reduce := by
  rcases reduce_cases e with ⟨-, heq⟩ | ⟨a, -, heq⟩
  · rw [heq, h, heq]
  · rw [heq, fold]

mutual

theorem fold_fold : (e : Expr) → e.fold.fold = e.fold
  | .field _ _ => rfl
  | .literal _ => rfl
  | .unary _ e => by
    rw [fold]
    exact fold_reduce (by rw [fold, fold_fold e])
  | .binary _ l r => by
    rw [fold]
    exact fold_reduce (by rw [fold, fold_fold l, fold_fold r])
  | .aggregate _ _ _ b => by rw [fold, fold, fold_fold b]
  | .count _ => rfl
  | .connect _ es => by
    rw [fold]
    exact fold_reduce (by rw [fold, foldAll_foldAll es])
  | .not e => by
    rw [fold]
    exact fold_reduce (by rw [fold, fold_fold e])
  | .quantifier _ _ _ b => by rw [fold, fold, fold_fold b]

theorem foldAll_foldAll : (es : List Expr) → foldAll (foldAll es) = foldAll es
  | [] => rfl
  | e :: es => by rw [foldAll, foldAll, fold_fold e, foldAll_foldAll es]

end

/-! ### Checking what is folded -/

theorem resolve_reduce {scope : List String} {e e' : Expr} (h : resolve scope e = .ok e') :
    resolve scope e.reduce = .ok e'.reduce := by
  have hvalue : e'.literalValue? = e.literalValue? := by
    rw [← literalValue?_bare, bare_resolve e h, literalValue?_bare]
  rcases reduce_cases e with ⟨hnone, heq⟩ | ⟨a, hsome, heq⟩
  · rw [heq, h, reduce, hvalue, hnone, Option.getD_none]
  · rw [heq, reduce, hvalue, hsome, Option.getD_some, resolve]

mutual

/-- Folding neither hides what a check finds nor gives it anything new to find. -/
theorem resolve_fold : (e : Expr) → ∀ {scope : List String} {e' : Expr},
    resolve scope e = .ok e' → resolve scope e.fold = .ok e'.fold
  | .field _ _, _, _, h => by
    rw [fold, h, fold_of_isField (resolveField_eq_ok h).1]
  | .literal _, _, _, h => by
    cases h
    rfl
  | .unary _ e, _, _, h => by
    obtain ⟨e', he, h⟩ := Parser.bind_eq_ok.1 h
    cases h
    exact resolve_reduce (Parser.bind_eq_ok.2 ⟨_, resolve_fold e he, rfl⟩)
  | .binary _ l r, _, _, h => by
    obtain ⟨l', hl, h⟩ := Parser.bind_eq_ok.1 h
    obtain ⟨r', hr, h⟩ := Parser.bind_eq_ok.1 h
    cases h
    exact resolve_reduce (Parser.bind_eq_ok.2 ⟨_, resolve_fold l hl,
      Parser.bind_eq_ok.2 ⟨_, resolve_fold r hr, rfl⟩⟩)
  | .aggregate _ _ _ b, _, _, h => by
    obtain ⟨f', hf, h⟩ := Parser.bind_eq_ok.1 h
    obtain ⟨b', hb, h⟩ := Parser.bind_eq_ok.1 h
    cases h
    exact Parser.bind_eq_ok.2 ⟨_, hf, Parser.bind_eq_ok.2 ⟨_, resolve_fold b hb, rfl⟩⟩
  | .count _, _, _, h => by
    obtain ⟨f', hf, h⟩ := Parser.bind_eq_ok.1 h
    cases h
    exact Parser.bind_eq_ok.2 ⟨_, hf, rfl⟩
  | .connect k es, scope, _, h => by
    unfold resolve at h
    split at h
    · cases h
    · rename_i hne
      obtain ⟨es', hes, h⟩ := Parser.bind_eq_ok.1 h
      cases h
      refine resolve_reduce (e := .connect k (foldAll es)) ?_
      rw [resolve, if_neg (by rwa [foldAll_eq_map, List.isEmpty_map])]
      exact Parser.bind_eq_ok.2 ⟨_, resolveAll_foldAll es hes, rfl⟩
  | .not e, _, _, h => by
    obtain ⟨e', he, h⟩ := Parser.bind_eq_ok.1 h
    cases h
    exact resolve_reduce (Parser.bind_eq_ok.2 ⟨_, resolve_fold e he, rfl⟩)
  | .quantifier _ _ _ b, _, _, h => by
    obtain ⟨f', hf, h⟩ := Parser.bind_eq_ok.1 h
    obtain ⟨b', hb, h⟩ := Parser.bind_eq_ok.1 h
    cases h
    exact Parser.bind_eq_ok.2 ⟨_, hf, Parser.bind_eq_ok.2 ⟨_, resolve_fold b hb, rfl⟩⟩

theorem resolveAll_foldAll : (es : List Expr) → ∀ {scope : List String} {es' : List Expr},
    resolveAll scope es = .ok es' → resolveAll scope (foldAll es) = .ok (foldAll es')
  | [], _, _, h => by
    cases h
    rfl
  | e :: es, _, _, h => by
    obtain ⟨e', he, h⟩ := Parser.bind_eq_ok.1 h
    obtain ⟨es', hes, h⟩ := Parser.bind_eq_ok.1 h
    cases h
    exact Parser.bind_eq_ok.2 ⟨_, resolve_fold e he,
      Parser.bind_eq_ok.2 ⟨_, resolveAll_foldAll es hes, rfl⟩⟩

end

/-! ### Writing what is folded -/

end Expr

namespace Lambda

variable {text arg : String} {e : Expr} {config : Config} {l : Lambda}

theorem mapError_eq_ok {ε δ α : Type} {x : Except ε α} {f : ε → δ} {a : α} :
    x.mapError f = .ok a ↔ x = .ok a := by
  cases x <;> simp [Except.mapError]

theorem parse_eq_ok : Lambda.parse text config = .ok l ↔
    ∃ arg e, Expr.parseLambda text config.rootArg = .ok (arg, e) ∧
      Lambda.make arg e config = .ok l := by
  rw [Lambda.parse, Expr.Parser.bind_eq_ok, Prod.exists]
  simp only [mapError_eq_ok]

theorem ofWire_eq_ok : Lambda.ofWire text config = .ok l ↔
    ∃ e, Expr.ofWire text = .ok e ∧ Lambda.make config.rootArg e config = .ok l := by
  rw [Lambda.ofWire, Expr.Parser.bind_eq_ok]
  simp only [mapError_eq_ok]

theorem parse_of_tokens {L : Expr.Parser.Tokens} (hL : Expr.tokenize text = .ok L)
    (hlambda : Expr.Parser.lambda config.rootArg L = .ok (arg, e))
    (hmake : Lambda.make arg e config = .ok l) : Lambda.parse text config = .ok l :=
  parse_eq_ok.2 ⟨arg, e, Expr.Parser.bind_eq_ok.2 ⟨L, hL, hlambda⟩, hmake⟩

end Lambda

end Quarry
