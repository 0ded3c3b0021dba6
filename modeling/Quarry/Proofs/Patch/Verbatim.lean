import Quarry.Proofs.Patch.Carrying
import Quarry.Proofs.Patch.Resolving

/-!
What a patch does not mention stands in its output as it stood in the text.
-/

namespace Quarry

open Json Text

namespace Patch

theorem inherited_spelled (input : Bytes) (depth : Nat) :
    Inherited input depth fun bs => ∃ v : Spelling, v.text = bs := by
  have hpart : ∀ {bs : Bytes} {d : Document} {q : List String} {n : Quarry.Node},
      Document.read depth bs = .ok d → d.pointer? q = some n →
      ∃ v : Spelling, v.text = n.span.of bs := fun hread hq =>
    (Document.spelled_of_pointer? hread hq).imp fun _ hv => hv.1
  exact ⟨fun _ => hpart, hpart⟩

theorem Operation.holds_spelled (o : Operation) : o.Holds fun bs => ∃ v : Spelling, v.text = bs := by
  have htext : ∀ value : Json.Value, ∃ v : Spelling, v.text = bytes value.text := by
    intro value
    obtain ⟨v, hv, -⟩ := spelling_text value
    exact ⟨v, hv⟩
  cases o with
  | replace path value => exact htext value
  | add path value => exact htext value
  | remove path => trivial
  | copy source path => trivial
  | move source path => trivial
  | test path value => trivial

/-- What the targets of a patch put in place is the text of a value. -/
theorem spelled_of_operations {input : Bytes} {depth : Nat} {ops : List Operation}
    {d : Option Document} {ts : List Target}
    (h : Resolving.operations input depth ops ⟨none, []⟩ = (.ok (), ⟨d, ts⟩)) :
    ∀ t ∈ ts, t.edit.Spelled := by
  have hkeeps := Resolving.keeps_operations (inherited_spelled input depth)
    (fun o (_ : o ∈ ops) => o.holds_spelled)
    (Resolving.keeps_start input depth fun bs => ∃ v : Spelling, v.text = bs)
  rw [h] at hkeeps
  exact hkeeps.payload

/-- A container of the text as it stands in the output. -/
def Enters (source out : Bytes) (n : Quarry.Node) (cs : List (String × Node)) (m : Quarry.Node) :
    Prop :=
  ∃ b mark mark' ns ms, n = .group b mark ns ∧ m = .group b mark' ms ∧
    Carried source out b 0 ns cs ms

/-- A pass that succeeds carries an accepted text over, but for what the edits say. -/
theorem Splice.enters_document {depth : Nat} {source : Bytes} {root : Node} {s : Splice}
    (hp : ∀ c ∈ root.children, c.2.Every Edit.Spelled)
    (hok : document root ⟨.ofBytes depth source, .empty⟩ = (.ok (), s)) :
    ∃ n m, Document.read depth source = .ok ⟨depth, some n⟩ ∧
      (∃ least, ∀ depth ≥ least, Document.read depth s.writer.output = .ok ⟨depth, some m⟩) ∧
      Enters source s.writer.output n root.children m := by
  have hfails : ∀ {P : Error → Prop},
      ¬ Fails P (document root ⟨.ofBytes depth source, .empty⟩) := by
    rintro P ⟨e, s', hs, -⟩
    rw [hok] at hs
    cases hs
  obtain ⟨d, hread⟩ := read_of_document hok
  rcases Document.read_cases hread with ⟨sp, rfl⟩ | ⟨⟨before, value, after⟩, rfl, hd⟩
  · exact absurd (document_space sp root) hfails
  cases value with
  | token t => exact absurd (document_token before t (stops_space after) root) hfails
  | nested k inside =>
    have hopen := document_open before after k inside root hd hp
    have htext : Page.text ⟨before, .nested k inside, after⟩ =
        before.bytes ++ Reader.openByte k :: (inside.text ++ after.bytes) := by
      simp [Page.text, Spelling.text]
    rw [htext] at hok hfails
    cases hps : inside.edit 0 root.children with
    | none =>
      rw [hps] at hopen
      exact absurd hopen hfails
    | some ps =>
      rw [hps] at hopen
      obtain ⟨s', hs', hout⟩ := hopen
      rw [hok] at hs'
      cases hs'
      let v : Spelling := .nested k (.ofParts false ps)
      refine ⟨_, v.node 0 0, Document.read_value ⟨before, .nested k inside, after⟩ hd,
        ⟨v.nesting, ?_⟩, ?_⟩
      · intro depth' hdepth
        have hvalue := Document.read_value v.page hdepth
        rw [v.text_page] at hvalue
        rw [hout]
        exact hvalue
      · refine ⟨k, _, _, _, _, rfl, rfl, carried_passage inside hps ?_ ?_⟩
        · rw [htext, show before.bytes.length + 1 = (before.bytes ++ [Reader.openByte k]).length
            by simp, show before.bytes ++ Reader.openByte k :: (inside.text ++ after.bytes) =
            (before.bytes ++ [Reader.openByte k]) ++ (inside.text ++ after.bytes) by simp,
            List.drop_left]
          exact List.prefix_append _ _
        · rw [hout]
          exact List.prefix_rfl

namespace Patcher

variable {p : Patcher} {input out : Bytes} {ops : List Operation}

/-- A patch that is made by the pass over a text: the text is accepted, and so is the output, and
what no edit of the tree meets stands in the output as it stood in the text. -/
theorem apply_carries (h : (p.apply input ops).1 = .ok out) :
    ∃ d ts tree, Resolving.operations input p.maxDepth ops ⟨none, []⟩ = (.ok (), ⟨d, ts⟩) ∧
      merge ts.reverse input .empty = .ok (base input ts, tree) ∧
      (survivors ts ≠ [] → ∃ n m,
        Document.read p.maxDepth (base input ts) = .ok ⟨p.maxDepth, some n⟩ ∧
        (∃ least, ∀ depth ≥ least, Document.read depth out = .ok ⟨depth, some m⟩) ∧
        Enters (base input ts) out n tree.root.children m) := by
  obtain ⟨⟨d, ts⟩, source, tree, hresolve, hmerge, h⟩ := apply_ok h
  obtain ⟨rfl, hg, -⟩ := merge_ok hmerge
  refine ⟨d, ts, tree, hresolve, hmerge, fun hts => ?_⟩
  have hspelled := spelled_of_operations hresolve
  have hevery := (hg.every Edit.Spelled fun t ht =>
    hspelled t ((List.takeWhile_sublist _).subset ht)).children
  rw [splice_of_ne_nil hg hts rfl] at h
  split at h
  · rename_i s hdoc
    obtain rfl := Except.ok.inj h
    exact Splice.enters_document hevery hdoc
  · cases h

theorem apply_carries_members :
    let input := bytes "\x7b\"a\": 1, \"b\": \x7b\"c\":true\x7d, \"a\": [2 ]\x7d"
    let output := bytes "\x7b\"b\":\x7b\"c\":null\x7d,\"a\":[2 ],\"e\":\"f\"\x7d"
    let ops : List Operation := [.remove "/a", .replace "/b/c" .null, .add "/e" (.string "f")]
    ((make {}).apply input ops).1 = .ok output ∧ ∃ n m tree,
      Document.read 512 input = .ok ⟨512, some n⟩ ∧
      (∃ least, ∀ depth ≥ least, Document.read depth output = .ok ⟨depth, some m⟩) ∧
      Enters input output n tree m := by
  intro input output ops
  have happly : ((make {}).apply input ops).1 = .ok output := by decide +kernel
  obtain ⟨d, ts, tree, hresolve, -, hpass⟩ := apply_carries happly
  have htargets : Resolving.operations input (make {}).maxDepth ops ⟨none, []⟩ =
      (.ok (), ⟨none, [⟨["e"], .add, "/e", bytes "\"f\""⟩, ⟨["b", "c"], .replace, "/b/c",
        bytes "null"⟩, ⟨["a"], .remove, "/a", []⟩]⟩) := by rfl
  rw [hresolve] at htargets
  cases htargets
  obtain ⟨n, m, hn, hm, henters⟩ := hpass (by simp [survivors])
  exact ⟨happly, n, m, tree.root.children, hn, hm, henters⟩

end Patcher

end Patch

end Quarry
