import Quarry.Proofs.Expr.Bare
import Quarry.Proofs.Numeral.Digits
import Quarry.Proofs.Sql.Terms

/-!
Where the fields of an expression are read. A field begins with the value of the row of the
innermost range that goes by its argument, or else in the column, and rows inside one another
have different names.
-/

namespace Quarry

namespace Expr

def path? : Expr → Option Path
  | .field _ (some path) => some path
  | .field name none => (Path.parse name).toOption
  | _ => none

def isStarred (e : Expr) : Bool := e.path?.any Path.hasWildcard

def repeatsRight : BinaryOp → Bool
  | .startsWith => true
  | .endsWith => true
  | _ => false

mutual

/-- The fields of an expression, each with the arguments that range around it, the innermost
first. An operand that a condition repeats is there twice. -/
def uses (bound : List String) : Expr → List (List String × Expr)
  | .field name path => [(bound, .field name path)]
  | .literal _ => []
  | .unary _ e => uses bound e
  | .binary op l r =>
    uses bound l ++ (uses bound r ++ if repeatsRight op then uses bound r else [])
  | .aggregate _ f x b => (bound, f) :: uses (x :: bound) b
  | .count f => [(bound, f)]
  | .connect _ es => usesAll bound es
  | .not e => uses bound e
  | .quantifier _ f x b => (bound, f) :: uses (x :: bound) b

def usesAll (bound : List String) : List Expr → List (List String × Expr)
  | [] => []
  | e :: es => uses bound e ++ usesAll bound es

end

end Expr

namespace Sql

/-- The places that a term reads, each with the rows around it, the innermost first. -/
def Term.places (rows : List String) : Term → List (List String × String)
  | .place base => [(rows, base)]
  | .number _ => []
  | .string _ => []
  | .constant _ => []
  | .star => []
  | .blank => []
  | .call _ a => a.places rows
  | .both a b => a.places rows ++ b.places rows
  | .group a => a.places rows
  | .minus a => a.places rows
  | .not a => a.places rows
  | .infixed _ l r => l.places rows ++ r.places rows
  | .nullTest _ a => a.places rows
  | .select v s r => s.places rows ++ v.places (r :: rows)
  | .selectWhere v s r p => s.places rows ++ (v.places (r :: rows) ++ p.places (r :: rows))

/-- A place that begins where the argument of a field stands. -/
structure Based (t : Table) (place : List String × String) (use : List String × Expr) : Prop where
  length : place.1.length = use.1.length
  nodup : place.1.Nodup
  base : ∃ arg steps, use.2.path? = some (.key arg :: steps) ∧
    place.2 = match (use.1.zip place.1).lookup arg with
      | some r => r ++ ".value"
      | none => t.column

/-! ### Rows -/

def rowNames : Scope → List String
  | [] => []
  | x :: scope => row (x :: scope) :: rowNames scope

theorem row_inj {s s' : Scope} (h : row s = row s') : s.length = s'.length := by
  have hnat : (row s).toList = 'j' :: (toString s.length).toList :=
    String.toList_append
  have hnat' : (row s').toList = 'j' :: (toString s'.length).toList :=
    String.toList_append
  rw [h, hnat', List.cons.injEq, String.toList_inj] at hnat
  exact (Numeral.toString_inj.1 hnat.2).symm

theorem length_rowNames (scope : Scope) : (rowNames scope).length = scope.length := by
  induction scope with
  | nil => rfl
  | cons x scope ih => rw [rowNames, List.length_cons, ih, List.length_cons]

theorem exists_of_mem_rowNames {scope : Scope} {r : String} (h : r ∈ rowNames scope) :
    ∃ inner : Scope, inner.length ≤ scope.length ∧ r = row inner := by
  induction scope with
  | nil => cases h
  | cons x scope ih =>
    rcases List.mem_cons.1 h with rfl | h
    · exact ⟨_, le_rfl, rfl⟩
    · obtain ⟨inner, hle, rfl⟩ := ih h
      exact ⟨inner, hle.trans (Nat.le_succ _), rfl⟩

theorem nodup_rowNames (scope : Scope) : (rowNames scope).Nodup := by
  induction scope with
  | nil => exact List.nodup_nil
  | cons x scope ih =>
    apply List.nodup_cons.2
    refine ⟨fun hmem => ?_, ih⟩
    obtain ⟨inner, hle, heq⟩ := exists_of_mem_rowNames hmem
    have hlength := row_inj heq
    rw [List.length_cons] at hlength
    omega

theorem row?_eq (arg : String) (scope : Scope) :
    row? arg scope = (scope.zip (rowNames scope)).lookup arg := by
  induction scope with
  | nil => rfl
  | cons x scope ih =>
    rw [row?, rowNames, List.zip_cons_cons, List.lookup_cons, ih]
    by_cases hx : x = arg
    · rw [if_pos hx, hx, beq_self_eq_true]
    · rw [if_neg hx, beq_eq_false_iff_ne.2 (Ne.symm hx)]

/-! ### Fields -/

theorem locatePath_eq_ok {t : Table} {scope : Scope} {name base : String} {path : Path}
    {steps : List Segment} (h : locatePath t scope name path = .ok (base, steps)) :
    ∃ arg, path = .key arg :: steps ∧ Path.hasWildcard steps = false ∧
      base? t scope arg = some base := by
  unfold locatePath at h
  split at h
  · rename_i arg steps'
    split at h
    · cases h
    · rename_i hstar
      split at h
      · rename_i base' hbase
        cases h
        exact ⟨arg, rfl, Bool.eq_false_iff.2 hstar, hbase⟩
      · cases h
  · cases h

theorem locate_eq_ok {t : Table} {scope : Scope} {e : Expr} {base : String} {steps : List Segment}
    (h : locate t scope e = .ok (base, steps)) :
    ∃ arg, e.path? = some (.key arg :: steps) ∧ Path.hasWildcard steps = false ∧
      base? t scope arg = some base := by
  unfold locate at h
  split at h
  · obtain ⟨arg, rfl, hrest⟩ := locatePath_eq_ok h
    exact ⟨arg, rfl, hrest⟩
  · split at h
    · rename_i path hparse
      obtain ⟨arg, rfl, hrest⟩ := locatePath_eq_ok h
      refine ⟨arg, ?_, hrest⟩
      rw [Expr.path?, hparse]
      rfl
    · cases h
  · cases h

theorem Based.of_locate {t : Table} {scope : Scope} {e : Expr} {base : String}
    {steps : List Segment} (h : locate t scope e = .ok (base, steps)) :
    Based t (rowNames scope, base) (scope, e) := by
  obtain ⟨arg, hpath, -, hbase⟩ := locate_eq_ok h
  refine ⟨length_rowNames scope, nodup_rowNames scope, arg, steps, hpath, ?_⟩
  rw [base?, row?_eq] at hbase
  split at hbase
  · rename_i r hr
    simp only [hr]
    exact (Option.some.inj hbase).symm
  · rename_i hr
    simp only [hr]
    split at hbase
    · exact (Option.some.inj hbase).symm
    · cases hbase

/-! ### Places of terms -/

namespace Term

variable {rows : List String}

theorem places_callOn (function base : String) (steps : List Segment) :
    (callOn function base steps).places rows = [(rows, base)] := by
  rw [callOn]
  split <;> rfl

theorem places_literal (a : Atom) : (literal a).places rows = [] := by
  cases a with
  | null => rfl
  | bool b => cases b <;> rfl
  | string s => rfl
  | long n =>
    rw [literal, signed]
    split <;> rfl
  | double x =>
    rw [literal, signed]
    split <;> rfl

theorem places_unary (op : UnaryOp) (value : Term) :
    (unary op value).places rows = value.places rows := by
  cases op <;> rfl

theorem places_binary (op : BinaryOp) (l r : Term) : (binary op l r).places rows =
    l.places rows ++ (r.places rows ++ if Expr.repeatsRight op then r.places rows else []) := by
  cases op <;> simp [binary, places, Expr.repeatsRight]

theorem places_foldl (op : Operator) (m : Term) (ms : List Term) :
    (ms.foldl (.infixed op) m).places rows = (m :: ms).flatMap (places rows) := by
  induction ms generalizing m with
  | nil => simp
  | cons n ms ih =>
    rw [List.foldl_cons, ih, List.flatMap_cons, places]
    simp

theorem places_connective (k : Connective) (ms : List Term) :
    (connective k ms).places rows = ms.flatMap (places rows) := by
  cases ms with
  | nil => rfl
  | cons m ms => exact places_foldl (connector k) m ms

theorem places_aggregate (op : AggregateOp) (source : Term) (r : String) (value : Term) :
    (aggregate op source r value).places rows = source.places rows ++ value.places (r :: rows) :=
  rfl

theorem places_quantifier (q : Quantifier) (source : Term) (r : String) (predicate : Term) :
    (quantifier q source r predicate).places rows =
      source.places rows ++ predicate.places (r :: rows) := by
  cases q <;> rfl

end Term

/-- Under a range the rows and the arguments grow together. -/
theorem inherited_places (t : Table) : Inherited t fun scope e m =>
    List.Forall₂ (Based t) (m.places (rowNames scope)) (e.uses scope) where
  field h := by
    have hplaces := Based.of_locate h
    split
    · exact .cons hplaces .nil
    · rw [Term.places_callOn]
      exact .cons hplaces .nil
  literal a := by
    rw [Term.places_literal]
    exact .nil
  unary op h := by
    rw [Term.places_unary]
    exact h
  binary op hl hr := by
    rw [Term.places_binary]
    refine List.rel_append hl (List.rel_append hr ?_)
    split
    · exact hr
    · exact .nil
  nullTest isNull hl := by
    have hop : Expr.repeatsRight (if isNull then .equal else .notEqual) = false := by
      cases isNull <;> rfl
    rw [Term.places, Term.places, Expr.uses, Expr.uses, hop, if_neg Bool.false_ne_true,
      List.append_nil, List.append_nil]
    exact hl
  connect k h := by
    rw [Term.places_connective, Expr.uses]
    induction h with
    | nil => exact .nil
    | cons hm _ ih =>
      rw [List.flatMap_cons, Expr.usesAll]
      exact List.rel_append hm ih
  not h := h
  count h := by
    rw [Term.places_callOn]
    exact .cons (.of_locate h) .nil
  quantifier q h hb := by
    rw [Term.places_quantifier, Term.places_callOn]
    exact .cons (.of_locate h) hb
  aggregate op h hb := by
    rw [Term.places_aggregate, Term.places_callOn]
    exact .cons (.of_locate h) hb

end Sql

end Quarry
