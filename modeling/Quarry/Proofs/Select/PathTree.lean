import Mathlib.Tactic
import Quarry.Select.PathTree

/-!
What a tree of paths holds is told by following steps from its root; adding a path adds one
collector there and changes nothing elsewhere.
-/

namespace Quarry.PathNode

variable {α : Type}

/-! ### Children -/

theorem find?_putChild (s t : Segment) (c : PathNode α) (cs : List (Segment × PathNode α)) :
    ((putChild t c cs).find? fun d => d.1 == s).map Prod.snd =
      if s = t then some c else (cs.find? fun d => d.1 == s).map Prod.snd := by
  induction cs with
  | nil =>
    by_cases h : s = t
    · subst h
      simp [putChild]
    · simp [putChild, h, Ne.symm h]
  | cons d cs ih =>
    obtain ⟨u, d⟩ := d
    rw [putChild]
    by_cases hu : u = t
    · subst hu
      by_cases h : s = u
      · subst h
        simp
      · simp [h, Ne.symm h]
    · rw [if_neg hu]
      by_cases hs : s = u
      · subst hs
        simp [hu]
      · have hsu : (u == s) = false := by simpa using Ne.symm hs
        simp only [List.find?_cons, hsu]
        exact ih

theorem child?_putChild (s t : Segment) (c : PathNode α) (id visited : Nat) (collectors : List α)
    (children : List (Segment × PathNode α)) :
    child? s (.make id visited collectors (putChild t c children)) =
      if s = t then some c else child? s (.make id visited collectors children) :=
  find?_putChild s t c children

theorem mem_of_child? {s : Segment} {c n : PathNode α} (h : n.child? s = some c) :
    (s, c) ∈ n.children := by
  obtain ⟨⟨t, d⟩, hfind, rfl⟩ := Option.map_eq_some_iff.1 h
  have ht := List.find?_some hfind
  simp only [beq_iff_eq] at ht
  subst ht
  exact List.mem_of_find?_eq_some hfind

theorem mem_putChild {s : Segment} {c : PathNode α} {cs : List (Segment × PathNode α)}
    {d : Segment × PathNode α} (h : d ∈ putChild s c cs) : d = (s, c) ∨ d ∈ cs := by
  induction cs with
  | nil => simpa [putChild] using h
  | cons e cs ih =>
    obtain ⟨t, e⟩ := e
    rw [putChild] at h
    split at h
    · rcases List.mem_cons.1 h with rfl | h
      · exact .inl rfl
      · exact .inr (List.mem_cons_of_mem _ h)
    · rcases List.mem_cons.1 h with rfl | h
      · exact .inr List.mem_cons_self
      · rcases ih h with rfl | h
        · exact .inl rfl
        · exact .inr (List.mem_cons_of_mem _ h)

theorem child?_of_not_hasChildren {n : PathNode α} (h : n.hasChildren = false) (s : Segment) :
    n.child? s = none := by
  have hnil : n.children = [] := by simpa [hasChildren] using h
  rw [child?, hnil]
  rfl

@[simp] theorem child?_leaf (s : Segment) (id : Nat) : (leaf id : PathNode α).child? s = none := rfl

@[simp] theorem collectors_leaf (id : Nat) : (leaf id : PathNode α).collectors = [] := rfl

/-! ### Adding a path -/

/-- The child that a path is added through: the one that is there, or a new one. -/
def childOrNew (s : Segment) (next : Nat) (n : PathNode α) : PathNode α × Nat :=
  match n.child? s with
  | some c => (c, next)
  | none => (leaf next, next + 1)

theorem insert_nil (a : α) (next : Nat) (n : PathNode α) :
    (insert a [] next n).1 = .make n.id n.visited (n.collectors ++ [a]) n.children := by
  cases n
  rfl

theorem insert_cons (a : α) (s : Segment) (path : Path) (next : Nat) (n : PathNode α) :
    (insert a (s :: path) next n).1 =
      .make n.id n.visited n.collectors
        (putChild s (insert a path (n.childOrNew s next).2 (n.childOrNew s next).1).1
          n.children) := by
  cases n with
  | make id visited collectors children =>
    rw [insert, childOrNew]
    cases h : (make id visited collectors children).child? s with
    | none => rfl
    | some c => rfl

/-! ### Every collector of a tree -/

/-- A collector is attached somewhere in a tree. -/
inductive Collects (a : α) : PathNode α → Prop
  | here {n : PathNode α} (h : a ∈ n.collectors) : Collects a n
  | inner {n c : PathNode α} {s : Segment} (hc : (s, c) ∈ n.children) (h : Collects a c) :
      Collects a n

theorem not_collects_leaf (a : α) (id : Nat) : ¬Collects a (leaf id) := by
  intro h
  cases h with
  | here h => simp at h
  | inner hc _ => simp [leaf, children] at hc

theorem Collects.of_childOrNew {a : α} {s : Segment} {next : Nat} {n : PathNode α}
    (h : Collects a (n.childOrNew s next).1) : Collects a n := by
  rw [childOrNew] at h
  split at h
  · rename_i c hc
    exact .inner (mem_of_child? hc) h
  · exact absurd h (not_collects_leaf a next)

theorem Collects.of_insert {a b : α} {path : Path} {next : Nat} {n : PathNode α}
    (h : Collects b (insert a path next n).1) : b = a ∨ Collects b n := by
  induction path generalizing next n with
  | nil =>
    rw [insert_nil] at h
    cases h with
    | here h =>
      rcases List.mem_append.1 h with h | h
      · exact .inr (.here h)
      · exact .inl (List.mem_singleton.1 h)
    | inner hc h => exact .inr (.inner hc h)
  | cons s path ih =>
    rw [insert_cons] at h
    cases h with
    | here h => exact .inr (.here h)
    | inner hc h =>
      rcases mem_putChild hc with heq | hmem
      · cases heq
        rcases ih h with rfl | h
        · exact .inl rfl
        · exact .inr h.of_childOrNew
      · exact .inr (.inner hmem h)

/-! ### Following steps -/

/-- The node that steps lead to. -/
def at? : Path → PathNode α → Option (PathNode α)
  | [], n => some n
  | s :: path, n => (n.child? s).bind (at? path)

/-- The collectors at the end of a path. -/
def collected (path : Path) (n : PathNode α) : List α :=
  ((n.at? path).map collectors).getD []

theorem collected_cons (s : Segment) (path : Path) (n : PathNode α) :
    collected (s :: path) n = ((n.child? s).map (collected path)).getD [] := by
  rw [collected, at?]
  cases n.child? s <;> rfl

theorem at?_leaf_cons (s : Segment) (path : Path) (id : Nat) :
    (leaf id : PathNode α).at? (s :: path) = none := rfl

theorem collected_leaf (path : Path) (id : Nat) : collected path (leaf id : PathNode α) = [] := by
  cases path <;> rfl

/-- A collector is added at the end of its path. -/
theorem collected_insert (a : α) (p q : Path) (next : Nat) (n : PathNode α) :
    collected p (insert a q next n).1 = collected p n ++ if p = q then [a] else [] := by
  induction q generalizing p next n with
  | nil =>
    rw [insert_nil]
    cases p with
    | nil => rfl
    | cons s p =>
      cases n
      exact (List.append_nil _).symm
  | cons t q ih =>
    rw [insert_cons]
    cases p with
    | nil => exact (List.append_nil _).symm
    | cons s p =>
      rw [collected_cons, collected_cons, child?_putChild]
      by_cases hs : s = t
      · subst hs
        simp only [↓reduceIte, Option.map_some, Option.getD_some, ih, childOrNew]
        cases n.child? s with
        | none => simp [collected_leaf]
        | some c => simp
      · cases n
        simp [hs, id, visited, collectors, children]

/-- Nodes are added along a path, and nowhere else. -/
theorem isSome_at?_insert (a : α) (p q : Path) (next : Nat) (n : PathNode α) :
    ((insert a q next n).1.at? p).isSome ↔ (n.at? p).isSome ∨ p <+: q := by
  induction q generalizing p next n with
  | nil =>
    rw [insert_nil]
    cases p with
    | nil => simp [at?]
    | cons s p =>
      cases n
      simp only [List.prefix_nil, reduceCtorEq, or_false]
      rfl
  | cons t q ih =>
    rw [insert_cons]
    cases p with
    | nil => simp [at?]
    | cons s p =>
      rw [at?, at?, child?_putChild, List.cons_prefix_cons]
      by_cases hs : s = t
      · subst hs
        simp only [↓reduceIte, Option.bind_some, ih, childOrNew, true_and]
        cases n.child? s with
        | none =>
          cases p with
          | nil => simp [at?]
          | cons u p => simp [at?_leaf_cons]
        | some c => simp
      · cases n
        simp [hs, id, visited, collectors, children]

end Quarry.PathNode
