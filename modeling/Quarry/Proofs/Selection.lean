import Quarry.Command
import Quarry.Proofs.Json.Parsed
import Quarry.Proofs.Select.Fields

/-!
What a selection answers for a document that its reader accepts.
-/

namespace Quarry

open Json Text

/-! ### The nodes a path meets -/

namespace Path

def isIndex : Segment → Bool
  | .index _ => true
  | _ => false

theorem shadowed_iff {paths : List Path} {path : Path} :
    path.Shadowed paths ↔ ∃ n < path.length, path[n]?.any isIndex = true ∧
      ∃ other ∈ paths, path.take n ++ [.wildcard] <+: other := by
  constructor
  · rintro ⟨p, i, rest, rfl, hother⟩
    exact ⟨p.length, by simp, by simp [isIndex], by simpa using hother⟩
  · rintro ⟨n, hn, hindex, hother⟩
    rw [List.getElem?_eq_getElem hn, Option.any_some] at hindex
    cases hs : path[n] with
    | index i =>
      refine ⟨path.take n, i, path.drop (n + 1), ?_, hother⟩
      rw [← hs, ← List.drop_eq_getElem_cons hn, List.take_append_drop]
    | key k =>
      rw [hs] at hindex
      cases hindex
    | wildcard =>
      rw [hs] at hindex
      cases hindex

instance (paths : List Path) (path : Path) : Decidable (path.Shadowed paths) :=
  decidable_of_iff _ shadowed_iff.symm

end Path

namespace Selector

variable {s s' : Selector} {texts : List String} {input : Bytes} {d : Document}
  {paths : List Path} {path : Path}

end Selector

namespace Path

variable {paths : List Path} {path : Path} {d : Document} {input : Bytes} {depth : Nat} {n : Node}

end Path

namespace Command

/-! ### Reading what was found -/

end Command

end Quarry
