import Quarry.Proofs.Patch.Laying
import Quarry.Proofs.Patch.Resolving

/-!
What a look-up finds in a document under targets.
-/

namespace Quarry

open Json Text Content

/-- A text that is read as a value whose objects repeat no name, and no longer than an index can
count. -/
structure Reads (input : Bytes) (depth : Nat) (n : Node) : Prop where
  read : Document.read depth input = .ok ⟨depth, some n⟩
  distinct : n.Distinct
  short : input.length ≤ UInt64.size

/-- The text of a value whose objects repeat no name, and no longer than an index can count. -/
def Plain (bs : Bytes) : Prop :=
  ∃ v : Spelling, v.text = bs ∧ v.content.Valid ∧ bs.length ≤ UInt64.size

/-- The text of a value that is not nested too deep. -/
def Shallow (depth : Nat) (bs : Bytes) : Prop := ∃ v : Spelling, v.text = bs ∧ v.nesting ≤ depth

namespace Node

theorem Written.distinct {input : Bytes} {depth : Nat} {n : Node} (h : n.Written input depth)
    (hn : n.content.Valid) : n.Distinct := by
  induction h with
  | @make n v text content fits all ih =>
    cases n with
    | atom mark a => exact .atom mark a
    | array mark items =>
      apply Distinct.array
      intro m hm
      apply ih m hm
      rw [Node.content, contentItems_eq_map] at hn
      cases hn with
      | group nodup indices all =>
        have hmem : m.content ∈ (numbered 0 (items.map Node.content)).map Prod.snd := by
          rw [map_snd_numbered]
          exact List.mem_map_of_mem hm
        obtain ⟨c, hc, heq⟩ := List.mem_map.1 hmem
        rw [← heq]
        exact all c hc
    | object mark ms =>
      rw [Node.content, contentMembers_eq_map] at hn
      cases hn with
      | group nodup indices all =>
        apply Distinct.object
        · rwa [names_map] at nodup
        · intro m hm
          apply ih m.2 (List.mem_map_of_mem hm)
          exact all _ (List.mem_map_of_mem (f := fun m => (m.1, m.2.content)) hm)

theorem Distinct.pointer? {n m : Node} {p : List String} (h : n.Distinct)
    (hp : n.pointer? p = some m) : m.Distinct :=
  of_pointer? (fun h hc => h.child? hc) h hp

end Node

namespace Reads

variable {input : Bytes} {depth : Nat} {n m : Node} {q : List String}

theorem written (h : Reads input depth n) : n.Written input depth := by
  rcases Document.read_ok h.read with ⟨sp, -, hroot⟩ | ⟨p, n', -, -, hd, hw, -⟩
  · cases hroot
  · cases hd
    exact hw

theorem plain (h : Reads input depth n) (hq : n.pointer? q = some m) :
    Plain (m.span.of input) := by
  cases h.written.pointer? hq with
  | make v text content fits all =>
    refine ⟨v, text.symm, ?_, (m.span.length_of_le input).trans h.short⟩
    rw [content]
    exact (h.distinct.pointer? hq).valid

theorem content? (h : Reads input depth n) (hq : n.pointer? q = some m) :
    Json.content? (m.span.of input) = some m.content := by
  cases h.written.pointer? hq with
  | make v text content fits all => rw [text, content?_text, content]

end Reads

theorem Plain.content? {bs : Bytes} (h : Plain bs) :
    ∃ c : Content, Json.content? bs = some c ∧ c.Valid := by
  obtain ⟨v, rfl, hv, -⟩ := h
  exact ⟨v.content, content?_text v, hv⟩

theorem Plain.reads {bs : Bytes} {depth : Nat} {d : Document} (h : Plain bs)
    (hd : Document.read depth bs = .ok d) :
    ∃ n, d = ⟨depth, some n⟩ ∧ Reads bs depth n ∧ Json.content? bs = some n.content := by
  obtain ⟨v, rfl, hv, hlen⟩ := h
  rcases Document.read_ok hd with ⟨sp, hsp, hroot⟩ | ⟨p, n, htext, hp, rfl, hw, hc⟩
  · obtain ⟨n, hn, -⟩ := holds_text v v.content.nesting le_rfl
    rw [hsp, Document.read_space] at hn
    cases hn
  · have hcontent : n.content = v.content := by
      rw [hc]
      exact Page.content_eq (show p.text = v.page.text by rw [← htext, v.text_page])
    refine ⟨n, rfl, ⟨hd, hw.distinct (hcontent ▸ hv), hlen⟩, ?_⟩
    rw [content?_text, hcontent]

theorem Shallow.read {bs : Bytes} {depth : Nat} (h : Shallow depth bs) :
    ∃ d, Document.read depth bs = .ok d := by
  obtain ⟨v, rfl, hv⟩ := h
  obtain ⟨n, hn, -⟩ := Document.read_page v.page hv
  rw [v.text_page] at hn
  exact ⟨_, hn⟩

namespace Patch

theorem inherited_plain {input : Bytes} {depth : Nat} {n : Quarry.Node}
    (h : Reads input depth n) : Inherited input depth Plain where
  part := by
    intro bs d q m hbs hread hq
    obtain ⟨n', rfl, hn, -⟩ := hbs.reads hread
    exact hn.plain hq
  document := by
    intro d q m hread hq
    rw [h.read] at hread
    cases hread
    exact h.plain hq

theorem inherited_shallow (input : Bytes) (depth : Nat) :
    Inherited input depth (Shallow depth) :=
  ⟨fun _ => Document.spelled_of_pointer?, Document.spelled_of_pointer?⟩

/-! ### Look-ups -/

/-- What a look-up says about the place it was made at. -/
def Current.Shows (f : View) (p : List String) : Current → Prop
  | .missing => ∀ s, f (p ++ s) = none
  | .raw text => Pointer.Canonical f p → ∃ c, content? text = some c ∧ ∀ s, f (p ++ s) = c.view s
  | .modified => True

section Shows

variable {input bs text payload : Bytes} {depth : Nat} {n : Quarry.Node} {c : Content}
  {tokens p q rest : List String} {cur : Current} {f g : View} {ts : List Target}

theorem Current.Shows.congr (h : cur.Shows f p) (hfg : ∀ q, q <+: p ∨ p <+: q → g q = f q) :
    cur.Shows g p := by
  cases cur with
  | missing => exact fun s => (hfg _ (.inr (List.prefix_append p s))).trans (h s)
  | modified => trivial
  | raw text =>
    intro hc
    obtain ⟨c, hcontent, hview⟩ := h (hc.congr fun q hq _ => (hfg q (.inl hq)).symm)
    exact ⟨c, hcontent, fun s => (hfg _ (.inr (List.prefix_append p s))).trans (hview s)⟩

theorem Current.Shows.within (h : cur.Shows g q) (hfg : ∀ s, f (p ++ s) = g s) :
    cur.Shows f (p ++ q) := by
  have hq : ∀ s, f (p ++ q ++ s) = g (q ++ s) := by
    intro s
    rw [List.append_assoc, hfg]
  cases cur with
  | missing => exact fun s => (hq s).trans (h s)
  | modified => trivial
  | raw text =>
    intro hc
    obtain ⟨c, hcontent, hview⟩ := h (hc.within hfg)
    exact ⟨c, hcontent, fun s => (hq s).trans (hview s)⟩

theorem shows_textAt (h : Reads bs depth n) (tokens : List String) :
    (textAt bs ⟨depth, some n⟩ tokens).Shows n.content.view tokens := by
  have hpointer : Document.pointer? ⟨depth, some n⟩ tokens = n.pointer? tokens := rfl
  rw [textAt, hpointer]
  cases hm : n.pointer? tokens with
  | none =>
    intro s
    rw [Content.view_append]
    cases hg : n.content.get? tokens with
    | none => rfl
    | some c =>
      obtain ⟨m, hm', -⟩ := Node.exists_pointer? h.distinct (h.written.countable h.short) hg
      rw [hm] at hm'
      cases hm'
  | some m =>
    intro hc
    refine ⟨m.content, h.content? hm, fun s => ?_⟩
    rw [Content.view_append, h.distinct.get?_of_pointer? hc hm]
    rfl

theorem shows_textIn (hp : Plain payload) (hcontent : content? payload = some c)
    (h : textIn depth payload rest = .ok cur) : cur.Shows c.view rest := by
  rw [textIn] at h
  split at h
  · rename_i hrest
    cases h
    rw [List.isEmpty_iff] at hrest
    subst hrest
    exact fun _ => ⟨c, hcontent, fun s => rfl⟩
  · split at h
    · rename_i d hread
      cases h
      obtain ⟨n, rfl, hn, hcontent'⟩ := hp.reads hread
      rw [hcontent] at hcontent'
      obtain rfl := Option.some.inj hcontent'
      exact shows_textAt hn rest
    · cases h

theorem Edit.value?_of_ne {e : Edit} (h : e.kind ≠ .remove) : e.value? = some e.payload := by
  obtain ⟨kind, path, payload⟩ := e
  cases kind with
  | replace => rfl
  | add => rfl
  | remove => exact absurd rfl h

theorem Edit.content_of_ne {e : Edit} (h : e.kind ≠ .remove) :
    e.content content? = content? e.payload := by
  obtain ⟨kind, path, payload⟩ := e
  cases kind with
  | replace =>
    simp only [Edit.content, Edit.change?]
    cases content? payload <;> rfl
  | add =>
    simp only [Edit.content, Edit.change?]
    cases content? payload <;> rfl
  | remove => exact absurd rfl h

theorem laid_apart (h : ∀ t ∈ ts, t.overlaps p = false) (hq : q <+: p ∨ p <+: q) (f : View) :
    laid ts f q = f q := by
  apply laid_eq
  rw [foremost_eq_none]
  intro t ht hpre
  apply not_overlaps (h t ht)
  rcases hq with hq | hq
  · exact .inl (hpre.trans hq)
  · exact List.prefix_or_prefix_of_prefix hpre hq

theorem apart_of_decided (h : decided depth p ts = none) : ∀ t ∈ ts, t.overlaps p = false := by
  induction ts with
  | nil => simp
  | cons t ts ih =>
    rw [decided] at h
    split at h
    · split at h <;> cases h
    · rename_i hafter
      split at h
      · cases h
      · rename_i hwithin
        rw [List.forall_mem_cons]
        refine ⟨?_, ih h⟩
        rw [after?_eq_none, ← List.isPrefixOf_iff_prefix] at hafter
        simp [Target.overlaps, hafter, hwithin]

/-- What the targets decide is what is seen under them. -/
theorem shows_decided (hts : ∀ t ∈ ts, ∀ bs, t.edit.value? = some bs → Plain bs)
    (h : decided depth p ts = some (.ok cur)) (f : View) : cur.Shows (laid ts f) p := by
  -- The first target in the list that is around the place or within it decides.
  induction ts with
  | nil => cases h
  | cons t ts ih =>
    rw [List.forall_mem_cons] at hts
    rw [decided] at h
    cases hafter : after? t.tokens p with
    | some rest =>
      rw [hafter] at h
      simp only at h
      rw [after?_eq_some] at hafter
      subst hafter
      split at h
      · rename_i hkind
        cases h
        intro s
        rw [laid_cons, List.append_assoc, overlay_append, content_remove hkind]
        rfl
      · rename_i hkind
        have hplain := hts.1 _ (Edit.value?_of_ne hkind)
        obtain ⟨c, hcontent, -⟩ := hplain.content?
        have hshows := shows_textIn hplain hcontent (Option.some.inj h)
        apply hshows.within
        intro s
        rw [laid_cons, overlay_append, Edit.content_of_ne hkind, hcontent, Option.bind_some]
    | none =>
      rw [hafter] at h
      simp only at h
      rw [after?_eq_none] at hafter
      split at h
      · cases h
        trivial
      · rename_i hwithin
        rw [List.isPrefixOf_iff_prefix] at hwithin
        apply (ih hts.2 h).congr
        intro q hq
        rw [laid_cons, overlay_outside]
        intro hpre
        rcases hq with hq | hq
        · exact hafter (hpre.trans hq)
        · exact (List.prefix_or_prefix_of_prefix hpre hq).elim hafter hwithin

end Shows

namespace Resolving

variable {input : Bytes} {depth : Nat} {n : Quarry.Node} {r : Resolving} {tokens : List String}
  {cur : Current} {e : Error}

theorem shows_current (hn : Reads input depth n) (h : r.Keeps input depth Plain)
    (hcur : (r.current input depth tokens).1 = .ok cur) :
    cur.Shows (laid r.targets n.content.view) tokens := by
  rw [current] at hcur
  split at hcur
  · rename_i c hd
    rw [show c = .ok cur from hcur] at hd
    exact shows_decided h.payload hd n.content.view
  · rename_i hd
    have hapart := apart_of_decided hd
    have htext : (textAt input ⟨depth, some n⟩ tokens).Shows (laid r.targets n.content.view) tokens :=
      (shows_textAt hn tokens).congr fun q hq => laid_apart hapart hq n.content.view
    split at hcur
    · rename_i d hread
      have hread := h.document d hread
      rw [hn.read] at hread
      cases hread
      cases hcur
      exact htext
    · rw [hn.read] at hcur
      cases hcur
      exact htext

end Resolving

end Patch

end Quarry
