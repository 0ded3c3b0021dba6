import Quarry.Proofs.Select.PathTree
import Quarry.Proofs.Select.Reading

/-!
Which states a selector comes into: every call on it is a step, and what the fields have to do with
each other is kept by each step.
-/

namespace Quarry

open Text

namespace Walk

variable {fuel : Nat} {n : Tree} {o : Bool} {i : Nat} {w : Walk}
  {enter : Tree → Bool → Walk → Except Json.ReadError Unit × Walk}

theorem length_foldl_modify {β : Type} (ps : List β) (k : β → Nat) (f : β → Matches → Matches)
    (rs : List Matches) :
    (ps.foldl (fun rs p => rs.modify (k p) (f p)) rs).length = rs.length := by
  induction ps generalizing rs with
  | nil => rfl
  | cons p ps ih => rw [List.foldl_cons, ih, List.length_modify]

theorem length_record (collectors : List Nat) (s : Scalar) (text : String) (w : Walk) :
    (w.record collectors s text).results.length = w.results.length :=
  length_foldl_modify collectors id _ w.results

theorem length_fill (places : List (Nat × Nat)) (text : String) (w : Walk) :
    (w.fill places text).results.length = w.results.length :=
  length_foldl_modify places Prod.fst _ w.results

theorem length_andThen {p : Except Json.ReadError Unit × Walk}
    {k : Walk → Except Json.ReadError Unit × Walk}
    (hk : ∀ w, (k w).2.results.length = w.results.length) :
    (andThen p k).2.results.length = p.2.results.length := by
  obtain ⟨a, w⟩ := p
  cases a with
  | error e => rfl
  | ok _ => exact hk w

theorem length_passOver {done : Json.Span → Walk → Walk}
    (hd : ∀ s w, (done s w).results.length = w.results.length) :
    (w.passOver done).2.results.length = w.results.length := by
  rw [passOver, skip]
  obtain ⟨a, r⟩ := w.reader.skip
  cases a with
  | error e => rfl
  | ok s => exact hd s _

theorem length_visit (he : ∀ c o w, (enter c o w).2.results.length = w.results.length) :
    (visit enter n o i w).2.results.length = w.results.length := by
  rw [visit]
  split
  · split
    · exact length_passOver fun _ _ => rfl
    · rfl
  · rename_i c _
    split
    · have hrec := length_record c.collectors (scalarOf w.reader.event) "" w
      simp only
      split
      · rw [length_andThen fun w => length_fill _ _ w, he, hrec]
      · rw [length_passOver fun _ w => length_fill _ _ w, hrec]
    · exact length_record _ _ _ w

theorem length_inside : (inside fuel n o i w).2.results.length = w.results.length := by
  induction fuel generalizing n o i w with
  | zero => rfl
  | succ fuel ih =>
    rw [inside_succ]
    simp only
    split
    · rfl
    · split
      · rfl
      · rw [length_andThen fun w => ih, length_visit fun c o w => ih]

theorem length_document (root : Tree) (w : Walk) :
    (document root w).2.results.length = w.results.length := by
  rw [document_eq]
  simp only
  split
  · rfl
  · split
    · rfl
    · rw [length_andThen]
      · split
        · split
          · exact length_inside
          · exact length_passOver fun _ _ => rfl
        · rfl
      · intro w
        split <;> rfl

end Walk

namespace Selector

/-- What can be asked of a selector. -/
inductive Call
  | setPaths (paths : List String)
  | reset
  | select (input : Bytes)

/-- Whether the tree has been left half built, when it was so before the call or not. -/
def Call.leaves (halfBuilt : Bool) : Call → Bool
  | .setPaths paths => paths.any fun text => (Path.parse text).toOption.isNone
  | .reset => false
  | .select _ => halfBuilt

def call (s : Selector) : Call → Selector
  | .setPaths paths => (s.setPaths paths).2
  | .reset => s.reset
  | .select input => (s.select input).2

/-- The collectors belong to paths that were added, and to every path there is a result unless the
tree was left half built: there is none then. -/
structure Consistent (s : Selector) (halfBuilt : Bool) : Prop where
  collectors : ∀ a, s.tree.root.Collects a → a < s.paths.length
  results : s.results.length = if halfBuilt then 0 else s.paths.length

theorem consistent_empty (maxDepth : Nat) : (empty maxDepth).Consistent false := by
  refine ⟨?_, rfl⟩
  intro a h
  exact absurd h (PathNode.not_collects_leaf a 0)

theorem collects_insert {t : PathTree Nat} {path : Path} {a n : Nat}
    (h : ∀ b, t.root.Collects b → b < n) (hb : (t.insert path n).2.root.Collects a) :
    a < n + 1 := by
  rcases PathNode.Collects.of_insert hb with rfl | hb
  · exact Nat.lt_succ_self a
  · exact Nat.lt_succ_of_lt (h a hb)

/-- Paths are added up to the first that is not well-formed. -/
theorem addPaths_collectors (texts : List String) {s : Selector}
    (h : ∀ a, s.tree.root.Collects a → a < s.paths.length) :
    ∀ a, (addPaths texts s).2.tree.root.Collects a → a < (addPaths texts s).2.paths.length := by
  induction texts generalizing s with
  | nil => exact h
  | cons text texts ih =>
    rw [addPaths]
    split
    · exact h
    · apply ih
      intro a ha
      rw [List.length_append]
      exact collects_insert h ha

theorem addPaths_results (texts : List String) (s : Selector) :
    (addPaths texts s).2.results = s.results := by
  induction texts generalizing s with
  | nil => rfl
  | cons text texts ih =>
    rw [addPaths]
    split
    · rfl
    · exact ih _

theorem addPaths_answer (texts : List String) (s : Selector) :
    (addPaths texts s).1.toOption.isNone =
      texts.any fun text => (Path.parse text).toOption.isNone := by
  induction texts generalizing s with
  | nil => rfl
  | cons text texts ih =>
    rw [addPaths, List.any_cons]
    split
    · rename_i e he
      rw [he]
      rfl
    · rename_i path hp
      rw [ih, hp]
      rfl

theorem consistent_setPaths (paths : List String) (s : Selector) :
    (s.setPaths paths).2.Consistent ((Call.setPaths paths).leaves false) := by
  have hc := addPaths_collectors paths (consistent_empty s.maxDepth).collectors
  have hr := addPaths_results paths s.reset
  have ha := addPaths_answer paths s.reset
  rw [setPaths, Call.leaves, ← ha]
  change ∀ a, (addPaths paths s.reset).2.tree.root.Collects a →
    a < (addPaths paths s.reset).2.paths.length at hc
  generalize addPaths paths s.reset = p at hc hr
  obtain ⟨answer, t⟩ := p
  cases answer with
  | error e => exact ⟨hc, by simp only at hr; rw [hr]; rfl⟩
  | ok _ => exact ⟨hc, List.length_map _⟩

theorem length_select (input : Bytes) (s : Selector) :
    (s.select input).2.results.length = s.results.length := by
  have hw := Walk.length_document s.tree.root ⟨.ofBytes s.depthLimit input, s.cleared⟩
  rw [select]
  generalize Walk.document s.tree.root ⟨.ofBytes s.depthLimit input, s.cleared⟩ = p at hw
  obtain ⟨answer, w⟩ := p
  cases answer with
  | error e => exact List.length_map _
  | ok _ => exact hw.trans (List.length_map _)

theorem select_keeps (input : Bytes) (s : Selector) :
    (s.select input).2.paths = s.paths ∧ (s.select input).2.tree = s.tree ∧
      (s.select input).2.maxDepth = s.maxDepth := by
  rw [select]
  generalize Walk.document s.tree.root ⟨.ofBytes s.depthLimit input, s.cleared⟩ = p
  obtain ⟨answer, w⟩ := p
  cases answer <;> exact ⟨rfl, rfl, rfl⟩

theorem Consistent.call {s : Selector} {halfBuilt : Bool} (h : s.Consistent halfBuilt) (c : Call) :
    (s.call c).Consistent (c.leaves halfBuilt) := by
  cases c with
  | setPaths paths => exact consistent_setPaths paths s
  | reset => exact consistent_empty s.maxDepth
  | select input =>
    obtain ⟨hpaths, htree, -⟩ := select_keeps input s
    refine ⟨?_, ?_⟩
    · show ∀ a, (s.select input).2.tree.root.Collects a → a < (s.select input).2.paths.length
      rw [htree, hpaths]
      exact h.collectors
    · show (s.select input).2.results.length = _
      rw [length_select, h.results]
      show _ = if halfBuilt then 0 else (s.select input).2.paths.length
      rw [hpaths]

theorem consistent_calls {s : Selector} {halfBuilt : Bool} (h : s.Consistent halfBuilt)
    (calls : List Call) : (calls.foldl call s).Consistent (calls.foldl Call.leaves halfBuilt) := by
  induction calls generalizing s halfBuilt with
  | nil => exact h
  | cons c calls ih => exact ih (h.call c)

/-- What a new selector comes to by any calls. -/
theorem calls_consistent (maxDepth : Nat) (calls : List Call) :
    (calls.foldl call (empty maxDepth)).Consistent (calls.foldl Call.leaves false) :=
  consistent_calls (consistent_empty maxDepth) calls

/-- A path that is not well-formed leaves the tree with a collector that has no result. -/
theorem setPaths_half_built :
    let s := (empty 0).call (.setPaths ["a", ""])
    s.paths.length = 1 ∧ s.results.length = 0 ∧ s.tree.root.Collects 0 := by
  have ha : Path.parse "a" = .ok [.key "a"] := by decide
  have he : Path.parse "" = .error ⟨"", .empty⟩ := by decide
  have hs : (empty 0).call (.setPaths ["a", ""]) =
      { empty 0 with
        paths := ["a"]
        tree := ⟨.make 0 0 [] [(.key "a", .make 1 0 [0] [])], 2⟩ } := by
    simp only [call, setPaths, addPaths, ha, he]
    rfl
  rw [hs]
  refine ⟨rfl, rfl, .inner List.mem_cons_self ?_⟩
  exact .here List.mem_cons_self

end Selector

end Quarry
