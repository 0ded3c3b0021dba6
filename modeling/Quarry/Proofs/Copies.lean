import Quarry.Command
import Quarry.Proofs.Expr.Soundness
import Quarry.Proofs.Patch.Laying
import Quarry.Proofs.Patch.Lookup
import Quarry.Proofs.Patch.Verbatim
import Quarry.Proofs.Select.Copying

/-!
Text that is copied out of a document, and a document that was changed, are the bytes they were made
of: no byte has to be replaced.
-/

namespace Quarry

open Json Text

theorem Json.Page.isUtf8 (p : Page) : IsUtf8 p.text := by
  obtain ⟨before, value, after⟩ := p
  exact before.isUtf8.append (value.isUtf8.append after.isUtf8)

theorem Document.isUtf8_of_read {depth : Nat} {input : Bytes} {d : Document}
    (h : Document.read depth input = .ok d) : IsUtf8 input := by
  rcases Document.read_cases h with ⟨sp, rfl⟩ | ⟨p, rfl, -⟩
  · exact sp.isUtf8
  · exact p.isUtf8

namespace Patch.Patcher

variable {p : Patcher} {input out : Bytes} {ops : List Operation}

theorem isUtf8_base {ts : List Target} (hinput : IsUtf8 input)
    (hspelled : ∀ t ∈ ts, t.edit.Spelled) (hroot : ∀ t ∈ ts, t.tokens = [] → t.edit.kind ≠ .remove) :
    IsUtf8 (base input ts) := by
  rcases base_cases input ts with ⟨hbase, -⟩ | ⟨u, hu, htokens, hbase, -⟩
  · rw [hbase]
    exact hinput
  · obtain ⟨v, hv⟩ := hspelled u hu _ (Edit.value?_of_ne (hroot u hu htokens))
    rw [hbase, ← hv]
    exact v.isUtf8

theorem isUtf8_apply (hinput : IsUtf8 input) (h : (p.apply input ops).1 = .ok out) :
    IsUtf8 out := by
  obtain ⟨⟨d, ts⟩, source, tree, hresolve, hmerge, hsplice⟩ := apply_ok h
  obtain ⟨rfl, hg, hroot⟩ := merge_ok hmerge
  have hspelled := spelled_of_operations hresolve
  by_cases hts : survivors ts = []
  · rw [hts] at hg
    rw [splice_nil hg] at hsplice
    cases hsplice
    exact isUtf8_base hinput hspelled hroot
  · have hevery := (hg.every Edit.Spelled fun t ht =>
      hspelled t ((List.takeWhile_sublist _).subset ht)).children
    rw [splice_of_ne_nil hg hts rfl] at hsplice
    split at hsplice
    · rename_i s hdoc
      cases hsplice
      obtain ⟨n, m, -, ⟨least, hread⟩, -⟩ := Splice.enters_document hevery hdoc
      exact Document.isUtf8_of_read (hread least (Nat.le_refl least))
    · cases hsplice

theorem isUtf8_applyText {patch : String} (hinput : IsUtf8 input)
    (h : (p.applyText input patch).1 = .ok out) : IsUtf8 out := by
  rw [applyText] at h
  split at h
  · exact isUtf8_apply hinput h
  · cases h

end Patch.Patcher

namespace Command

open Expr.Parser (bind_eq_ok)

theorem Patching.bytes_apply {p : Patching} {answer : String} (h : p.apply = .ok answer) :
    ∃ text, p.input = some text ∧
      ((Patch.Patcher.make p.config).applyText (bytes text) p.patch).1 = .ok (bytes answer) := by
  rw [Patching.apply] at h
  obtain ⟨text, hgiven, h⟩ := bind_eq_ok.1 h
  have hinput : p.input = some text := by
    cases hinput : p.input with
    | none =>
      rw [hinput] at hgiven
      cases hgiven
    | some text' =>
      rw [hinput] at hgiven
      exact congrArg some (Except.ok.inj hgiven)
  split at h
  · rename_i out hout
    cases h
    rw [bytes_ofBytes (Patch.Patcher.isUtf8_applyText (isUtf8_bytes text) hout)]
    exact ⟨text, hinput, hout⟩
  · cases h

/-- A text that is read to its end is UTF-8, and so is all that a reader reports of it. So what a
selection copies does not depend on what would be made of other bytes, and what patching writes is
handed over byte by byte. -/
theorem copies_keep_bytes :
    (∀ (depth : Nat) (input : Bytes) (cs : List Reader.Call),
      let r := (Reader.ofBytes depth input).calls cs
      (r.next.event = .eof → r.next.failure = none → IsUtf8 input) ∧
        (r.failure = none → IsUtf8 (r.span.of input)) ∧
        ∀ span, r.skip.1 = .ok span → IsUtf8 (span.of input)) ∧
      (∀ copy : Bytes → String, (∀ s, copy (bytes s) = s) →
        ∀ (input : Bytes) (s : Selector), s.selectBy copy input = s.select input) ∧
      ∀ (p : Patching) (answer : String), p.apply = .ok answer →
        ∃ text, p.input = some text ∧
          ((Patch.Patcher.make p.config).applyText (bytes text) p.patch).1 = .ok (bytes answer) := by
  refine ⟨?_, fun copy hcopy => Selector.selectBy_eq hcopy, fun p answer => Patching.bytes_apply⟩
  intro depth input cs r
  obtain ⟨hspan, hskip, heof⟩ := Reader.calls_utf8 depth input cs
  exact ⟨heof, hspan, hskip⟩

end Command

end Quarry
