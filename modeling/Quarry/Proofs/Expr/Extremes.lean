import Mathlib
import Quarry.Proofs.Expr.Summing
import Quarry.Proofs.Scalar.Kinds

/-!
Least and greatest values. Among values of one kind that has an order of its own, the pass keeps the
first that no other stands before (after); values of two such kinds are never all compared.
-/

namespace Quarry

namespace Scalar

/-- The kinds of values that have an order of their own. -/
inductive Kind where
  | long
  | string
  | bool
deriving DecidableEq

def kind? : Scalar → Option Kind
  | .long _ => some .long
  | .string _ => some .string
  | .bool _ => some .bool
  | _ => none

inductive Precedes : Scalar → Scalar → Prop
  | long {m n : Int64} (lt : m.toInt < n.toInt) : Precedes (.long m) (.long n)
  | string {s t : String} (lt : s < t) : Precedes (.string s) (.string t)
  | bool : Precedes (.bool false) (.bool true)

/-- How one value stands to another of its kind. -/
def Stands (o : Ordering) (a b : Scalar) : Prop :=
  match o with
  | .lt => a.Precedes b
  | .eq => a = b
  | .gt => b.Precedes a

variable {a b c : Scalar} {k : Kind} {o o' : Ordering}

theorem Precedes.trans (hab : a.Precedes b) (hbc : b.Precedes c) : a.Precedes c := by
  cases hab with
  | long lt =>
    cases hbc with
    | long lt' => exact .long (lt.trans lt')
  | string lt =>
    cases hbc with
    | string lt' => exact .string (lt.trans lt')
  | bool => cases hbc

theorem not_precedes_self (a : Scalar) : ¬ a.Precedes a := by
  intro h
  cases h with
  | long lt => exact lt_irrefl _ lt
  | string lt => exact lt_irrefl _ lt

theorem Stands.trans (hab : Stands o a b) (hbc : Stands o b c) : Stands o a c := by
  cases o with
  | lt => exact Precedes.trans hab hbc
  | eq => exact Eq.trans hab hbc
  | gt => exact Precedes.trans hbc hab

theorem Stands.unique (h : Stands o a b) (h' : Stands o' a b) : o = o' := by
  have hlt (hab : a.Precedes b) : a ≠ b ∧ ¬ b.Precedes a := by
    refine ⟨?_, fun hba => not_precedes_self a (hab.trans hba)⟩
    rintro rfl
    exact not_precedes_self a hab
  have hgt (hba : b.Precedes a) : a ≠ b := by
    rintro rfl
    exact not_precedes_self a hba
  cases o <;> cases o'
  case lt.eq => exact absurd h' (hlt h).1
  case lt.gt => exact absurd h' (hlt h).2
  case eq.lt => exact absurd h (hlt h').1
  case eq.gt => exact absurd h (hgt h')
  case gt.lt => exact absurd h (hlt h').2
  case gt.eq => exact absurd h' (hgt h)
  all_goals rfl

theorem Stands.swap (h : Stands o a b) : Stands o.swap b a := by
  cases o with
  | eq => exact Eq.symm h
  | _ => exact h

theorem Stands.not_stands (ho : o ≠ .eq) (h : Stands o a b) : ¬ Stands o b a := by
  intro hswap
  have heq : o = o.swap := h.unique hswap.swap
  cases o <;> simp at ho heq

theorem not_stands_self (ho : o ≠ .eq) (a : Scalar) : ¬ Stands o a a := by
  intro h
  have heq : Stands .eq a a := rfl
  exact ho (h.unique heq)

theorem order_of_kind (ha : a.kind? = some k) (hb : b.kind? = some k) (name : String) :
    ∃ o, a.order b name = .ok o ∧ Stands o a b := by
  cases a <;> cases ha <;> cases b <;> cases hb
  case string.refl.string.refl s t =>
    refine ⟨compare s t, rfl, ?_⟩
    rcases lt_trichotomy s t with h | h | h
    · rw [compare_lt_iff_lt.2 h]
      exact .string h
    · rw [compare_eq_iff_eq.2 h]
      exact congrArg string h
    · rw [compare_gt_iff_gt.2 h]
      exact .string h
  case long.refl.long.refl m n =>
    refine ⟨compare m n, rfl, ?_⟩
    rcases lt_trichotomy m.toInt n.toInt with h | h | h
    · rw [Std.compare_eq_lt.2 (Int64.lt_iff_toInt_lt.2 h)]
      exact .long h
    · obtain rfl := Int64.toInt_inj.1 h
      have hself : compare m m = .eq := Std.ReflCmp.compare_self
      rw [hself]
      rfl
    · rw [Std.compare_eq_gt.2 (Int64.lt_iff_toInt_lt.2 h)]
      exact .long h
  case bool.refl.bool.refl p q =>
    refine ⟨compare p q, rfl, ?_⟩
    cases p <;> cases q
    · rfl
    · exact .bool
    · exact .bool
    · rfl

/-- Of two values of one kind, one that another stands before is no better than the other. -/
theorem stands_of_not_stands (ho : o ≠ .eq) (hab : Stands o a b) (hcb : ¬ Stands o c b)
    (hb : b.kind? = some k) (hc : c.kind? = some k) : Stands o a c := by
  obtain ⟨o', -, hstands⟩ := order_of_kind hc hb ""
  cases o with
  | eq => exact absurd rfl ho
  | lt =>
    cases o' with
    | lt => exact absurd hstands hcb
    | eq =>
      obtain rfl : c = b := hstands
      exact hab
    | gt => exact Precedes.trans hab hstands
  | gt =>
    cases o' with
    | gt => exact absurd hstands hcb
    | eq =>
      obtain rfl : c = b := hstands
      exact hab
    | lt => exact Precedes.trans hstands hab

/-! ### Values that cannot be compared -/

/-- All numbers can be compared with one another. -/
def group? : Scalar → Option Kind
  | .double _ => some .long
  | s => s.kind?

theorem group?_of_kind? (h : a.kind? = some k) : a.group? = some k := by
  cases a <;> first | exact h | cases h

theorem group?_eq_of_order {name : String} (h : a.order b name = .ok o) :
    a.group? = b.group? := by
  cases a <;> cases b <;> first | rfl | cases h

theorem isError_of_order {name : String} {s : Scalar} (ha : a.isNull = false)
    (hb : b.isNull = false) (h : a.order b name = .error s) : s.isError = true := by
  unfold order at h
  split at h
  · rename_i e he
    cases h
    exact isError_of_firstError? he
  · split at h
    case h_1 => cases ha
    case h_2 => cases hb
    case h_6 =>
      split at h
      · split at h <;> cases h
        rfl
      · cases h
        rfl
    all_goals cases h

theorem exists_error {s : Scalar} (h : s.isError = true) : ∃ message, s = .error message := by
  cases s with
  | error message => exact ⟨message, rfl⟩
  | _ => cases h

end Scalar

namespace Expr

open Scalar

/-! ### The loop -/

variable {name : String} {better : Ordering} {best : Scalar} {ss : List Scalar} {k : Kind}

theorem extreme_split (name : String) (hbetter : better ≠ .eq)
    (h : ∀ s ∈ best :: ss, s.kind? = some k) :
    ∃ before s after, best :: ss = before ++ s :: after ∧ extreme name better best ss = s ∧
      (∀ t ∈ before, Stands better s t) ∧ ∀ t ∈ after, ¬ Stands better t s := by
  -- In each case the pass goes on from the better of the two; what it keeps in the end stands so to
  -- the other one as well, by way of the better one.
  induction ss generalizing best with
  | nil => exact ⟨[], best, [], rfl, rfl, by simp, by simp⟩
  | cons t ss ih =>
    simp only [List.forall_mem_cons] at h
    obtain ⟨hbest, ht, hss⟩ := h
    obtain ⟨o, horder, ho⟩ := order_of_kind ht hbest name
    rw [extreme, horder]
    by_cases heq : o = better
    · obtain rfl := heq
      obtain ⟨before, s, after, hsplit, hs, hbefore, hafter⟩ :=
        ih (List.forall_mem_cons.2 ⟨ht, hss⟩)
      have hfirst : Stands o s best := by
        cases before with
        | nil =>
          obtain rfl := (List.cons.inj hsplit).1
          exact ho
        | cons u before =>
          obtain rfl := (List.cons.inj hsplit).1
          exact (hbefore t List.mem_cons_self).trans ho
      refine ⟨best :: before, s, after, congrArg (best :: ·) hsplit, ?_, ?_, hafter⟩
      · simpa using hs
      · exact List.forall_mem_cons.2 ⟨hfirst, hbefore⟩
    · have hnot : ¬ Stands better t best := fun hstands => heq (ho.unique hstands)
      obtain ⟨before, s, after, hsplit, hs, hbefore, hafter⟩ :=
        ih (List.forall_mem_cons.2 ⟨hbest, hss⟩)
      have hs : extreme name better (if o = better then t else best) ss = s := by
        rwa [if_neg heq]
      cases before with
      | nil =>
        obtain ⟨rfl, rfl⟩ := List.cons.inj hsplit
        exact ⟨[], best, t :: ss, rfl, hs, by simp, List.forall_mem_cons.2 ⟨hnot, hafter⟩⟩
      | cons u before =>
        obtain ⟨rfl, rfl⟩ := List.cons.inj hsplit
        obtain ⟨hsbest, hbefore⟩ := List.forall_mem_cons.1 hbefore
        have hst : Stands better s t := stands_of_not_stands hbetter hsbest hnot hbest ht
        refine ⟨best :: t :: before, s, after, rfl, hs, ?_, hafter⟩
        simp only [List.forall_mem_cons]
        exact ⟨hsbest, hst, hbefore⟩

-- The best so far stays in the group that the pass began with, until it meets a value of another.
theorem isError_extreme (hnull : ∀ s ∈ best :: ss, s.isNull = false)
    (hmixed : ∃ s ∈ ss, s.group? ≠ best.group?) :
    (extreme name better best ss).isError = true := by
  induction ss generalizing best with
  | nil =>
    obtain ⟨s, hs, -⟩ := hmixed
    cases hs
  | cons t ss ih =>
    simp only [List.forall_mem_cons] at hnull
    obtain ⟨hbest, ht, hss⟩ := hnull
    rw [extreme]
    cases horder : t.order best name with
    | error s => exact isError_of_order ht hbest horder
    | ok o =>
      have hgroup := group?_eq_of_order horder
      obtain ⟨s, hs, hne⟩ := hmixed
      have hs : s ∈ ss := by
        refine (List.mem_cons.1 hs).resolve_left ?_
        rintro rfl
        exact hne hgroup
      show (extreme name better (if o = better then t else best) ss).isError = true
      by_cases heq : o = better
      · rw [if_pos heq]
        exact ih (List.forall_mem_cons.2 ⟨ht, hss⟩) ⟨s, hs, hgroup ▸ hne⟩
      · rw [if_neg heq]
        exact ih (List.forall_mem_cons.2 ⟨hbest, hss⟩) ⟨s, hs, hne⟩

/-! ### Aggregates -/

/-- The operation that looks for the value that stands so to the others. -/
inductive Seeks : AggregateOp → Ordering → Prop
  | min : Seeks .min .lt
  | max : Seeks .max .gt

variable {op : AggregateOp} {values : List Scalar}

theorem isNull_of_mem_present {s : Scalar} (h : s ∈ present values) : s.isNull = false := by
  simpa using (List.mem_filter.1 h).2

theorem Seeks.aggregated_eq (h : Seeks op better) (range : String) (values : List Scalar) :
    aggregated op range values = extremeOf op better values := by
  cases h <;> rfl

theorem Seeks.ne_eq (h : Seeks op better) : better ≠ .eq := by
  cases h <;> simp

theorem kind?_of_isError {s : Scalar} (h : s.isError = true) : s.kind? = none := by
  cases s <;> first | rfl | cases h

theorem Seeks.aggregateAll_eq (hseeks : Seeks op better) (range : String)
    (h : ∀ s ∈ present values, s.kind? = some k) :
    aggregateAll op range values = extremeOf op better (present values) := by
  have herror : values.find? isError = none := by
    rw [List.find?_eq_none]
    intro s hs herror
    have hpresent : s ∈ present values := by
      refine List.mem_filter.2 ⟨hs, ?_⟩
      cases s <;> first | rfl | cases herror
    have hkind := h s hpresent
    rw [kind?_of_isError herror] at hkind
    cases hkind
  rw [aggregateAll, herror]
  exact hseeks.aggregated_eq range (present values)

theorem Seeks.isError_aggregateAll (hseeks : Seeks op better) (range : String) {a b : Scalar}
    {k k' : Kind} (ha : a ∈ present values) (hb : b ∈ present values) (hka : a.kind? = some k)
    (hkb : b.kind? = some k') (hne : k ≠ k') :
    (aggregateAll op range values).isError = true := by
  rw [aggregateAll]
  cases hfind : values.find? isError with
  | some e => exact List.find?_some hfind
  | none =>
    show (aggregated op range (present values)).isError = true
    rw [hseeks.aggregated_eq]
    have hnull : ∀ s ∈ present values, s.isNull = false := fun s hs => isNull_of_mem_present hs
    cases hvalues : present values with
    | nil =>
      rw [hvalues] at ha
      cases ha
    | cons best ss =>
      rw [hvalues] at ha hb hnull
      -- One of the two is not of the kind that the pass begins with.
      obtain ⟨s, hs, hs'⟩ : ∃ s ∈ best :: ss, s.group? ≠ best.group? := by
        by_cases hbest : best.group? = some k
        · refine ⟨b, hb, ?_⟩
          rw [group?_of_kind? hkb, hbest]
          simpa using hne.symm
        · exact ⟨a, ha, by rwa [group?_of_kind? hka, ne_comm]⟩
      refine isError_extreme hnull ⟨s, (List.mem_cons.1 hs).resolve_left ?_, hs'⟩
      rintro rfl
      exact hs' rfl

theorem Seeks.extremeOf_split (hseeks : Seeks op better) (h : ∀ s ∈ values, s.kind? = some k)
    (hne : values ≠ []) :
    ∃ before s after, values = before ++ s :: after ∧ extremeOf op better values = s ∧
      (∀ t ∈ values, ¬ Stands better t s) ∧ ∀ t ∈ before, Stands better s t := by
  obtain ⟨best, ss, rfl⟩ := List.exists_cons_of_ne_nil hne
  obtain ⟨before, s, after, hsplit, hs, hbefore, hafter⟩ :=
    extreme_split op.name hseeks.ne_eq h
  refine ⟨before, s, after, hsplit, hs, ?_, hbefore⟩
  intro t ht
  rw [hsplit, List.mem_append, List.mem_cons] at ht
  rcases ht with ht | rfl | ht
  · exact (hbefore t ht).not_stands hseeks.ne_eq
  · exact not_stands_self hseeks.ne_eq t
  · exact hafter t ht

theorem Seeks.extremeOf_eq_null_iff (hseeks : Seeks op better)
    (h : ∀ s ∈ values, s.kind? = some k) : extremeOf op better values = .null ↔ values = [] := by
  constructor
  · intro hnull
    by_contra hne
    obtain ⟨before, s, after, hsplit, hs, -⟩ := hseeks.extremeOf_split h hne
    have hmem : s ∈ values := by simp [hsplit]
    have hkind := h s hmem
    rw [← hs, hnull] at hkind
    cases hkind
  · rintro rfl
    rfl

variable {bindings : Bindings} {f e : Expr} {x : String} {nodes : List Node}

/-- Where the values that are not null are of one kind, the least (greatest) of them is the first
that no other stands before (after), wherever the nulls are, and there is none only if there are no
values. Values of two kinds are an error, whatever other values there are and in whatever order. -/
theorem eval_extreme (hseeks : Seeks op better) (hnodes : elements bindings f = .ok nodes) :
    let values := present (elementValues bindings x e nodes)
    let result := eval bindings (.aggregate op f x e)
    (∀ k : Kind, (∀ s ∈ values, s.kind? = some k) →
      (result = .single .null ↔ values = []) ∧
      (values ≠ [] → ∃ before s after, values = before ++ s :: after ∧ result = .single s ∧
        (∀ t ∈ values, ¬ Stands better t s) ∧ ∀ t ∈ before, Stands better s t) ∧
      ∀ {bindings' : Bindings} {f' e' : Expr} {x' : String} {nodes' : List Node},
        elements bindings' f' = .ok nodes' →
        present (elementValues bindings' x' e' nodes') = values →
        eval bindings' (.aggregate op f' x' e') = result) ∧
    ∀ a ∈ values, ∀ b ∈ values, ∀ k k', a.kind? = some k → b.kind? = some k' → k ≠ k' →
      ∃ message, result = .single (.error message) := by
  intro values result
  have hresult : result = .single (aggregateAll op f.text (elementValues bindings x e nodes)) :=
    eval_aggregate op hnodes
  constructor
  · intro k hk
    rw [hseeks.aggregateAll_eq f.text hk] at hresult
    refine ⟨?_, ?_, ?_⟩
    · rw [hresult, Result.single.injEq]
      exact hseeks.extremeOf_eq_null_iff hk
    · intro hne
      rw [hresult]
      simp only [Result.single.injEq]
      exact hseeks.extremeOf_split hk hne
    · intro bindings' f' e' x' nodes' hnodes' hsame
      rw [eval_aggregate op hnodes', hseeks.aggregateAll_eq f'.text (hsame ▸ hk), hsame, hresult]
  · intro a ha b hb k k' hka hkb hne
    obtain ⟨message, hmessage⟩ :=
      exists_error (hseeks.isError_aggregateAll f.text ha hb hka hkb hne)
    exact ⟨message, by rw [hresult, hmessage]⟩

/-- The least of three texts stands twice among them; a number and a text are an error. -/
theorem eval_extreme_of_texts :
    let field (name : String) : Expr := .field name (some [.key name])
    let least : Expr := .aggregate .min (field "o") "x" (field "x")
    let greatest : Expr := .aggregate .max (field "o") "x" (field "x")
    let input (text : String) := Document.read 512 (Text.bytes text)
    (∃ root nodes, input "[null,\"b\",\"a\",null,\"a\"]" = .ok ⟨512, some root⟩ ∧
      elements [("o", root)] (field "o") = .ok nodes ∧
      ∃ before s after, [.string "b", .string "a", .string "a"] = before ++ s :: after ∧
        eval [("o", root)] least = .single s ∧
        (∀ t ∈ [.string "b", .string "a", .string "a"], ¬ Stands .lt t s) ∧
        ∀ t ∈ before, Stands .lt s t) ∧
    ∃ root nodes, input "[null,2.5,1,null,\"1\"]" = .ok ⟨512, some root⟩ ∧
      elements [("o", root)] (field "o") = .ok nodes ∧
      ∃ message, eval [("o", root)] greatest = .single (.error message) := by
  intro field least greatest input
  obtain ⟨root, nodes, hread, hnodes, hvalues⟩ : ∃ root nodes,
      input "[null,\"b\",\"a\",null,\"a\"]" = .ok ⟨512, some root⟩ ∧
      elements [("o", root)] (field "o") = .ok nodes ∧
      present (elementValues [("o", root)] "x" (field "x") nodes) =
        [.string "b", .string "a", .string "a"] := ⟨_, _, rfl, rfl, rfl⟩
  obtain ⟨root', nodes', hread', hnodes', hvalues'⟩ : ∃ root nodes,
      input "[null,2.5,1,null,\"1\"]" = .ok ⟨512, some root⟩ ∧
      elements [("o", root)] (field "o") = .ok nodes ∧
      present (elementValues [("o", root)] "x" (field "x") nodes) =
        [.double 2.5, .long 1, .string "1"] := ⟨_, _, rfl, rfl, rfl⟩
  have hleast := (eval_extreme .min hnodes).1 .string (by rw [hvalues]; decide)
  have hsplit := hleast.2.1 (by rw [hvalues]; simp)
  rw [hvalues] at hsplit
  have hgreatest := (eval_extreme .max hnodes').2 (.long 1) (by rw [hvalues']; simp)
    (.string "1") (by rw [hvalues']; simp) .long .string rfl rfl (by decide)
  exact ⟨⟨root, nodes, hread, hnodes, hsplit⟩, root', nodes', hread', hnodes', hgreatest⟩

end Expr

end Quarry
