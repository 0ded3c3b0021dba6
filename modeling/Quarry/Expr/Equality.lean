import Quarry.Expr.Basic

namespace Quarry.Expr

mutual

def same : Expr → Expr → Bool
  | .field n p, .field n' p' => n == n' && p == p'
  | .literal a, .literal a' => a == a'
  | .unary o e, .unary o' e' => o == o' && same e e'
  | .binary o l r, .binary o' l' r' => o == o' && same l l' && same r r'
  | .aggregate o f x b, .aggregate o' f' x' b' => o == o' && same f f' && x == x' && same b b'
  | .count f, .count f' => same f f'
  | .connect k es, .connect k' es' => k == k' && sameAll es es'
  | .not e, .not e' => same e e'
  | .quantifier q f x b, .quantifier q' f' x' b' => q == q' && same f f' && x == x' && same b b'
  | _, _ => false

def sameAll : List Expr → List Expr → Bool
  | [], [] => true
  | e :: es, e' :: es' => same e e' && sameAll es es'
  | _, _ => false

end

mutual

theorem same_self : (e : Expr) → same e e = true
  | .field _ _ => by simp [same]
  | .literal _ => by simp [same]
  | .unary _ e => by simp [same, same_self e]
  | .binary _ l r => by simp [same, same_self l, same_self r]
  | .aggregate _ f _ b => by simp [same, same_self f, same_self b]
  | .count f => by simp [same, same_self f]
  | .connect _ es => by simp [same, sameAll_self es]
  | .not e => by simp [same, same_self e]
  | .quantifier _ f _ b => by simp [same, same_self f, same_self b]

theorem sameAll_self : (es : List Expr) → sameAll es es = true
  | [] => rfl
  | e :: es => by simp [sameAll, same_self e, sameAll_self es]

end

mutual

theorem eq_of_same : (e e' : Expr) → same e e' = true → e = e'
  | .field _ _, e', h => by cases e' <;> simp_all [same]
  | .literal _, e', h => by cases e' <;> simp_all [same]
  | .unary _ e, e', h => by
    cases e' <;> simp [same] at h
    exact h.1 ▸ eq_of_same e _ h.2 ▸ rfl
  | .binary _ l r, e', h => by
    cases e' <;> simp [same] at h
    exact h.1.1 ▸ eq_of_same l _ h.1.2 ▸ eq_of_same r _ h.2 ▸ rfl
  | .aggregate _ f _ b, e', h => by
    cases e' <;> simp [same] at h
    exact h.1.1.1 ▸ eq_of_same f _ h.1.1.2 ▸ h.1.2 ▸ eq_of_same b _ h.2 ▸ rfl
  | .count f, e', h => by
    cases e' <;> simp [same] at h
    exact eq_of_same f _ h ▸ rfl
  | .connect _ es, e', h => by
    cases e' <;> simp [same] at h
    exact h.1 ▸ eq_of_sameAll es _ h.2 ▸ rfl
  | .not e, e', h => by
    cases e' <;> simp [same] at h
    exact eq_of_same e _ h ▸ rfl
  | .quantifier _ f _ b, e', h => by
    cases e' <;> simp [same] at h
    exact h.1.1.1 ▸ eq_of_same f _ h.1.1.2 ▸ h.1.2 ▸ eq_of_same b _ h.2 ▸ rfl

theorem eq_of_sameAll : (es es' : List Expr) → sameAll es es' = true → es = es'
  | [], es', h => by cases es' <;> simp_all [sameAll]
  | e :: es, es', h => by
    cases es' <;> simp [sameAll] at h
    exact eq_of_same e _ h.1 ▸ eq_of_sameAll es _ h.2 ▸ rfl

end

theorem same_iff (e e' : Expr) : same e e' = true ↔ e = e' :=
  ⟨eq_of_same e e', fun h => h ▸ same_self e⟩

instance : DecidableEq Expr := fun e e' => decidable_of_iff _ (same_iff e e')

end Quarry.Expr
