import Quarry.Proofs.Patch.Tracking

/-!
A patch that is applied does what its operations do one after another.
-/

namespace Quarry.Patch

open Json Text Content

namespace Patcher

variable {input out source : Bytes} {depth : Nat} {n : Quarry.Node} {ts : List Target}
  {tree : Tree} {p : Patcher} {ops : List Operation}

/-- What the targets behind the latest one of the whole document are made in. -/
theorem exists_base (hn : Reads input depth n)
    (hts : ∀ t ∈ ts, ∀ bs, t.edit.value? = some bs → Plain bs)
    (hroots : ∀ t ∈ ts, t.tokens = [] → t.edit.kind ≠ .remove) :
    ∃ page : Page, page.text = base input ts ∧ page.value.content.Valid ∧
      ground ts n.content.view = page.value.content.view ∧
      ((∀ t ∈ ts, ∀ bs, t.edit.value? = some bs → Shallow depth bs) →
        page.value.nesting ≤ depth) := by
  rcases base_cases input ts with ⟨hinput, hground⟩ | ⟨u, hmem, hu, hpayload, hground⟩
  · rcases Document.read_ok hn.read with ⟨sp, -, hroot⟩ | ⟨page, m, htext, hd, hm, -, hc⟩
    · cases hroot
    · cases hm
      refine ⟨page, by rw [hinput, htext], hc ▸ hn.distinct.valid, ?_, fun _ => hd⟩
      rw [hground, hc]
  · have hkind := hroots u hmem hu
    have hvalue := Edit.value?_of_ne hkind
    obtain ⟨v, hv, hvalid, -⟩ := hts u hmem _ hvalue
    refine ⟨v.page, by rw [v.text_page, hv, hpayload], hvalid, ?_, ?_⟩
    · funext q
      rw [hground, Edit.content_of_ne hkind, ← hv, content?_text]
      rfl
    · intro hshallow
      obtain ⟨v', hv', hd⟩ := hshallow u hmem _ hvalue
      have hcontent := content_eq_of_text_eq (hv'.trans hv.symm)
      show v.nesting ≤ depth
      rw [← Spelling.nesting_content, ← hcontent, Spelling.nesting_content]
      exact hd

section Splice

theorem legible_of_plain {e : Edit} (h : ∀ bs, e.value? = some bs → Plain bs) :
    e.Legible content? := by
  by_cases hk : e.kind = .remove
  · exact ⟨.remove, by rw [Edit.change?, hk]⟩
  · obtain ⟨c, hc, -⟩ := (h _ (Edit.value?_of_ne hk)).content?
    rw [Edit.Legible, Edit.change?]
    cases hkind : e.kind with
    | replace => exact ⟨.replace c, by simp [hc]⟩
    | add => exact ⟨.add c, by simp [hc]⟩
    | remove => exact absurd hkind hk

variable (hw : p.writer = .empty) (hts : ∀ t ∈ ts, ∀ bs, t.edit.value? = some bs → Plain bs)

include hts

theorem isSome_edited_tree {c : Content} (hc : c.Valid) (hg : Gathers (survivors ts) tree.root)
    (hne : survivors ts ≠ []) :
    (edited content? c tree.root.children).isSome ↔
      ∀ q e, foremost (survivors ts) q = some (e, []) → e.kind.Suits c.view q := by
  have hlegible : tree.root.Every (Edit.Legible content?) :=
    hg.every _ fun t ht => legible_of_plain (hts t (mem_of_mem_survivors ht))
  rw [isSome_edited hc (hg.bears.grown hne) hg.edit hlegible]
  simp only [hg.along]

theorem spelled_survivors : ∀ t ∈ survivors ts, t.edit.Spelled := by
  intro t ht bs hbs
  obtain ⟨v, hv, -⟩ := hts t (mem_of_mem_survivors ht) bs hbs
  exact ⟨v, hv⟩

include hw

/-- What the pass over the text makes of it is what the document looks like under the targets, and
each of them suits the text. -/
theorem splice_ok (hn : Reads input depth n)
    (hm : merge ts.reverse input .empty = .ok (source, tree))
    (hout : (p.splice source tree).1 = .ok out) :
    (∃ c, Holds out c ∧ c.view = laid ts n.content.view) ∧
      ∀ q e, foremost (survivors ts) q = some (e, []) →
        e.kind.Suits (ground ts n.content.view) q := by
  obtain ⟨rfl, hg, hroots⟩ := merge_ok hm
  obtain ⟨page, htext, hvalid, hground, -⟩ := exists_base hn hts hroots
  rw [← htext] at hout
  rw [← laid_survivors, hground]
  -- Where no target is left the pass is not made.
  by_cases hnil : survivors ts = []
  · rw [hnil] at hg ⊢
    rw [splice_nil hg] at hout
    cases hout
    exact ⟨⟨page.value.content, holds_page page, rfl⟩, nofun⟩
  · have hspelled := spelled_survivors hts
    have hd := nesting_of_splice hg hnil hw hspelled hout
    have hpage := splice_page hg hnil hw hd hspelled
    have hsome := isSome_edited_tree hts hvalid hg hnil
    split at hpage
    · rename_i c hc
      obtain ⟨v, rfl, hv⟩ := hpage
      rw [hout] at hv
      cases hv
      rw [hc] at hsome
      refine ⟨⟨v.content, holds_text v, ?_⟩, hsome.1 rfl⟩
      rw [← hg.overlay_eq]
      exact view_edited hvalid hg.sound hg.edit hc
    · obtain ⟨e, -, he⟩ := hpage
      rw [hout] at he
      cases he

theorem exists_splice (hn : Reads input p.maxDepth n)
    (hm : merge ts.reverse input .empty = .ok (source, tree))
    (hshallow : ∀ t ∈ ts, ∀ bs, t.edit.value? = some bs → Shallow p.maxDepth bs)
    (hsuits : ∀ q e, foremost (survivors ts) q = some (e, []) →
      e.kind.Suits (ground ts n.content.view) q) :
    ∃ out, (p.splice source tree).1 = .ok out := by
  obtain ⟨rfl, hg, hroots⟩ := merge_ok hm
  obtain ⟨page, htext, hvalid, hground, hnesting⟩ := exists_base hn hts hroots
  rw [← htext]
  by_cases hnil : survivors ts = []
  · rw [hnil] at hg
    exact ⟨_, splice_nil hg _⟩
  · rw [hground] at hsuits
    have hsome := (isSome_edited_tree hts hvalid hg hnil).2 hsuits
    obtain ⟨c, hc⟩ := Option.isSome_iff_exists.1 hsome
    have hpage := splice_page hg hnil hw (hnesting hshallow) (spelled_survivors hts)
    rw [hc] at hpage
    obtain ⟨v, -, hv⟩ := hpage
    exact ⟨_, hv⟩

end Splice

/-- Where no element of an array is put in or taken out, a patch does what its operations do one
after another, but for the order of members. -/
theorem apply_agrees {v : Content} (hn : Reads input p.maxDepth n)
    (hops : ∀ op ∈ ops, op.Proper) (hs : Operation.Still n.content ops)
    (hrun : Operation.run n.content ops = some v) (hok : (p.apply input ops).1 = .ok out) :
    ∃ c, Holds out c ∧ c.Alike v := by
  obtain ⟨r, source, tree, hresolve, hmerge, hout⟩ := apply_ok hok
  have htracks := (tracks_start hn).operations hn hops hs hrun hresolve
  obtain ⟨⟨c, hholds, hview⟩, -⟩ := splice_ok rfl htracks.keeps.payload hn hmerge hout
  refine ⟨c, hholds, fun q => ?_⟩
  rw [hview, htracks.view]

theorem apply_agrees_moved :
    let input := bytes "\x7b\"a\":1\x7d"
    let output := bytes "\x7b\"b\":1\x7d"
    ((make {}).apply input [.move "/a" "/b"]).1 = .ok output ∧
      ∃ c, Holds output c ∧ c.Alike (.group true [("b", .atom (.long 1))]) := by
  intro input output
  let n : Quarry.Node := .object ⟨0, ⟨0, 7⟩⟩ [("a", .atom ⟨1, ⟨5, 6⟩⟩ (.long 1))]
  have happly : ((make {}).apply input [.move "/a" "/b"]).1 = .ok output := by decide +kernel
  have hn : Reads input (make {}).maxDepth n := by
    have hread : Document.read (make {}).maxDepth (bytes "\x7b\"a\":1\x7d") =
        .ok ⟨512, some n⟩ := by rfl
    refine ⟨hread, ?_, by decide⟩
    apply Node.Distinct.object
    · decide
    · simp only [List.mem_singleton, forall_eq]
      exact .atom _ _
  have hchanges : (Operation.move "/a" "/b").changes n.content =
      some [(["a"], .remove), (["b"], .add (.atom (.long 1)))] := by rfl
  have hproper : ∀ op ∈ [Operation.move "/a" "/b"], op.Proper := by
    simp only [List.mem_singleton, forall_eq]
    exact Operation.proper_of_value? rfl
  have hstill : Operation.Still n.content [.move "/a" "/b"] := by
    refine ⟨fun changes h => ?_, fun _ _ => trivial⟩
    rw [hchanges] at h
    obtain rfl := Option.some.inj h
    intro c1 hc1
    refine ⟨EditKind.not_shifts rfl, fun c2 hc2 => ⟨?_, trivial⟩⟩
    obtain rfl := Option.some.inj hc1
    exact EditKind.not_shifts rfl
  exact ⟨happly, apply_agrees hn hproper hstill rfl happly⟩

/-- An insertion into an array is forgotten when a later operation replaces the whole document with
a value that is looked up in the array as it was. -/
theorem apply_shifted :
    let input := bytes "\x7b\"a\":[1,2]\x7d"
    let ops : List Operation := [.add "/a/0" (.number (.int 9)), .copy "/a/1" ""]
    ∃ n, Reads input (make {}).maxDepth n ∧
      Operation.run n.content ops = some (.atom (.long 1)) ∧
      ((make {}).apply input ops).1 = .ok (bytes "2") ∧
      ¬ ∃ c, Holds (bytes "2") c ∧ c.Alike (.atom (.long 1)) := by
  intro input ops
  let n : Quarry.Node := .object ⟨0, ⟨0, 11⟩⟩ [("a", .array ⟨1, ⟨5, 10⟩⟩
    [.atom ⟨2, ⟨6, 7⟩⟩ (.long 1), .atom ⟨3, ⟨8, 9⟩⟩ (.long 2)])]
  have hread : Document.read (make {}).maxDepth (bytes "\x7b\"a\":[1,2]\x7d") =
      .ok ⟨512, some n⟩ := by rfl
  refine ⟨n, ⟨hread, ?_, by decide⟩, ?_, by decide +kernel, ?_⟩
  · apply Node.Distinct.object
    · decide
    · simp only [List.mem_singleton, forall_eq]
      apply Node.Distinct.array
      simp only [List.mem_cons, List.not_mem_nil, or_false, forall_eq_or_imp, forall_eq]
      exact ⟨.atom _ _, .atom _ _⟩
  · rfl
  · rintro ⟨c, hc, halike⟩
    have hshape := halike []
    cases c with
    | group o ms => cases hshape
    | atom a =>
      obtain ⟨m, hread, hm⟩ := hc 512 (Nat.zero_le 512)
      have hvalue : Document.read 512 (bytes "2") =
          .ok ⟨512, some (.atom ⟨0, ⟨0, 1⟩⟩ (.long 2))⟩ := by rfl
      rw [hvalue] at hread
      cases hread
      cases hm
      revert hshape
      decide

end Patcher

end Quarry.Patch
