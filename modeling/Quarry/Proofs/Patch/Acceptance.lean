import Quarry.Proofs.Patch.Ready

/-!
A patch whose operations can be made one after another is applied, unless one pass cannot make it.
-/

namespace Quarry.Patch

open Json Text Content Patcher

theorem Operation.holds_shallow {op : Operation} {depth : Nat}
    (h : ∀ v, op.value? = some v → (ofJson v).nesting ≤ depth) : op.Holds (Shallow depth) := by
  have hshallow : ∀ v : Json.Value, op.value? = some v → Shallow depth (bytes v.text) := by
    intro v hv
    obtain ⟨q, hq, hc⟩ := spelling_text v
    refine ⟨q, hq, ?_⟩
    rw [← Spelling.nesting_content, hc]
    exact h v hv
  cases op with
  | replace path value => exact hshallow value rfl
  | add path value => exact hshallow value rfl
  | remove path => trivial
  | copy source path => trivial
  | move source path => trivial
  | test path value => trivial

section Operations

variable {input : Bytes} {depth : Nat} {n : Quarry.Node} {c v : Content} {r : Resolving}
  {written : List (List String)} {ops : List Operation}

theorem Ready.operations (hn : Reads input depth n) (h : Tracks input depth n c r)
    (hr : Ready input depth n.content.view written r) (hops : ∀ op ∈ ops, op.Proper)
    (hshallow : ∀ op ∈ ops, op.Holds (Shallow depth)) (hs : Operation.Still c ops)
    (honce : Operation.TakesOnce written ops) (hrun : Operation.run c ops = some v) :
    (∃ r' written', Resolving.operations input depth ops r = (.ok (), r') ∧
      Tracks input depth n v r' ∧ Ready input depth n.content.view written' r') ∨
      ∃ path name r',
        Resolving.operations input depth ops r = (.error (.unsupported path name), r') := by
  induction ops generalizing c r written with
  | nil =>
    obtain rfl := Option.some.inj hrun
    exact .inl ⟨r, written, rfl, h, hr⟩
  | cons op ops ih =>
    rw [List.forall_mem_cons] at hops hshallow
    rw [Operation.run_cons] at hrun
    obtain ⟨c1, hstep, hrun⟩ := Option.bind_eq_some_iff.1 hrun
    obtain ⟨changes, hchanges, -⟩ := Option.bind_eq_some_iff.1 hstep
    rcases Resolving.operation_progress hn h hr.shallow hops.1 hchanges with
      ⟨r1, hok⟩ | ⟨path, name, r1, herror⟩
    · have h1 := h.operation hn hops.1 hs.1 hstep hok
      have hr1 := hr.operation hn h hshallow.1 hs.1 hstep honce.1 hok
      rw [Resolving.operations, hok]
      exact ih h1 hr1 hops.2 hshallow.2 (hs.2 c1 hstep) honce.2 hrun
    · right
      rw [Resolving.operations, herror]
      exact ⟨path, name, r1, rfl⟩

end Operations

namespace Patcher

variable {p : Patcher} {input : Bytes} {n : Quarry.Node} {ops : List Operation} {v : Content}

/-- Where no element of an array is put in or taken out, and nothing is taken away that was written
more than once, operations that can be made one after another are refused only if one pass cannot
make them. -/
theorem apply_accepts (hn : Reads input p.maxDepth n) (hops : ∀ op ∈ ops, op.Proper)
    (hnesting : ∀ op ∈ ops, ∀ v, op.value? = some v → (ofJson v).nesting ≤ p.maxDepth)
    (hs : Operation.Still n.content ops) (honce : Operation.TakesOnce [] ops)
    (hrun : Operation.run n.content ops = some v) :
    (∃ out, (p.apply input ops).1 = .ok out) ∨
      ∃ path op, (p.apply input ops).1 = .error (.unsupported path op) := by
  have hstart : Ready input p.maxDepth n.content.view [] ⟨none, []⟩ :=
    ⟨Resolving.keeps_start input p.maxDepth _, trivial, by simp⟩
  have hshallow : ∀ op ∈ ops, op.Holds (Shallow p.maxDepth) := fun op hop =>
    Operation.holds_shallow (hnesting op hop)
  rw [apply_eq]
  rcases Ready.operations hn (tracks_start hn) hstart hops hshallow hs honce hrun with
    ⟨r, written, hresolve, htracks, hready⟩ | ⟨path, name, r, hresolve⟩
  · rw [hresolve]
    simp only
    cases hm : merge r.targets.reverse input .empty with
    | error e =>
      obtain ⟨⟨path, op, rfl⟩, -⟩ := merge_error hm
      exact .inr ⟨path, op, rfl⟩
    | ok x =>
      obtain ⟨source, tree⟩ := x
      obtain ⟨-, hg, -⟩ := merge_ok hm
      left
      exact exists_splice (p := p.reset) rfl htracks.keeps.payload hn hm hready.shallow.payload
        fun q e hq => suits_of_placed hready.placed hg.uncrossed hq
  · rw [hresolve]
    exact .inr ⟨path, name, rfl⟩

theorem apply_accepts_undone :
    let ops : List Operation := [.add "/a" .null, .remove "/a"]
    (∃ out, ((make {}).apply (bytes "\x7b\x7d") ops).1 = .ok out) ∨
      ∃ path op, ((make {}).apply (bytes "\x7b\x7d") ops).1 = .error (.unsupported path op) := by
  intro ops
  let n : Quarry.Node := .object ⟨0, ⟨0, 2⟩⟩ []
  have hread : Document.read (make {}).maxDepth (bytes "\x7b\x7d") = .ok ⟨512, some n⟩ := by rfl
  have hn : Reads (bytes "\x7b\x7d") (make {}).maxDepth n :=
    ⟨hread, .object (by decide) (by simp), by decide⟩
  have hproper : ∀ op ∈ ops, op.Proper := by
    simp only [ops, List.mem_cons, List.not_mem_nil, or_false, forall_eq_or_imp, forall_eq]
    refine ⟨⟨?_, ?_⟩, Operation.proper_of_value? rfl⟩
    · rintro v ⟨⟩
      exact .null
    · rintro v ⟨⟩
      decide
  have hnesting : ∀ op ∈ ops, ∀ v, op.value? = some v → (ofJson v).nesting ≤ 512 := by
    simp only [ops, List.mem_cons, List.not_mem_nil, or_false, forall_eq_or_imp, forall_eq]
    constructor
    · rintro v ⟨⟩
      decide
    · exact nofun
  have hstill : Operation.Still n.content ops := by
    apply Operation.still_cons (a := .add (.atom .null)) rfl (EditKind.not_shifts rfl)
    intro c hc
    obtain rfl := Option.some.inj hc
    apply Operation.still_cons (a := .remove) rfl (EditKind.not_shifts rfl)
    exact fun _ _ => trivial
  exact apply_accepts hn hproper hnesting hstill (by decide) rfl

/-- A member that was written twice and taken away again is looked for in the document. -/
theorem apply_recalls :
    let ops : List Operation :=
      [.add "/a" (.number (.int 1)), .add "/a" (.number (.int 2)), .remove "/a"]
    ∃ n, Reads (bytes "\x7b\x7d") (make {}).maxDepth n ∧
      Operation.run n.content ops = some (.group true []) ∧
      ((make {}).apply (bytes "\x7b\x7d") ops).1 = .error (.notFound "/a") := by
  intro ops
  let n : Quarry.Node := .object ⟨0, ⟨0, 2⟩⟩ []
  have hread : Document.read (make {}).maxDepth (bytes "\x7b\x7d") = .ok ⟨512, some n⟩ := by rfl
  exact ⟨n, ⟨hread, .object (by decide) (by simp), by decide⟩, rfl, by decide +kernel⟩

end Patcher

end Quarry.Patch
