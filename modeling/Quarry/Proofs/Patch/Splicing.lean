import Quarry.Proofs.Patch.Walk

/-!
What a text holds after the pass over it.
-/

namespace Quarry

open Json Json.Reader Text

namespace Json

theorem Passage.members_ofParts {o : Bool} (s : Bool) (i : Nat) (ps : List (String × Spelling))
    (h : o = false → ps = numbered i (ps.map Prod.snd)) :
    (ofParts s ps : Passage o s).members i = Patch.mapMembers Spelling.content ps := by
  induction ps generalizing i s with
  | nil => rfl
  | cons m ps ih =>
    obtain ⟨k, v⟩ := m
    have hname : (leadFor o s k).name i = k := by
      rw [leadFor, Lead.name_compact]
      cases o with
      | true => rfl
      | false =>
        have hk := h rfl
        rw [List.map_cons, numbered, List.cons.injEq] at hk
        exact (Prod.mk.inj hk.1).1.symm
    rw [ofParts, members_cons, hname, ih true (i + 1)]
    · rfl
    · intro ho
      have hk := h ho
      rw [List.map_cons, numbered, List.cons.injEq] at hk
      exact hk.2

end Json

namespace Patch

theorem editMember_index {V : Type} {payload : Bytes → Option V} {k : String} {v : V}
    {entered : List (String × Node) → Option V}
    {after : List (String × Node) → Option (List (String × V))} {left : List (String × Node)}
    {vs : List (String × V)} (h : editMember payload false k v entered after left = some vs) :
    ∃ v' left' vs', after left' = some vs' ∧ vs = (k, v') :: vs' := by
  rw [editMember] at h
  split at h
  · obtain ⟨vs', hvs, rfl⟩ := Option.map_eq_some_iff.1 h
    exact ⟨v, left, vs', hvs, rfl⟩
  · rename_i n left' _
    split at h
    · obtain ⟨v', -, h⟩ := Option.bind_eq_some_iff.1 h
      obtain ⟨vs', hvs, h⟩ := Option.bind_eq_some_iff.1 h
      exact ⟨v', left', vs', hvs, (Option.some.inj h).symm⟩
    · rename_i e _
      obtain ⟨kind, path, bs⟩ := e
      cases kind with
      | replace =>
        simp only [Edit.outcome] at h
        obtain ⟨v', -, h⟩ := Option.bind_eq_some_iff.1 h
        obtain ⟨vs', hvs, h⟩ := Option.bind_eq_some_iff.1 h
        exact ⟨v', left', vs', hvs, (Option.some.inj h).symm⟩
      | add => simp [Edit.outcome] at h
      | remove => simp [Edit.outcome] at h

end Patch

namespace Json

/-- The edits leave the elements of arrays under their indices. -/
theorem Passage.edit_index {o s : Bool} (p : Passage o s) (ho : o = false) {i : Nat}
    {left : List (String × Patch.Node)} {ps : List (String × Spelling)}
    (h : p.edit i left = some ps) : ps = numbered i (ps.map Prod.snd) := by
  induction p generalizing i left ps with
  | close sp =>
    subst ho
    rw [edit] at h
    cases left with
    | nil =>
      obtain rfl := Option.some.inj h
      rfl
    | cons c left => simp [Patch.appended] at h
  | token l t rest ih =>
    subst ho
    rw [edit] at h
    obtain ⟨v', left', ps', hps, rfl⟩ := Patch.editMember_index h
    rw [List.map_cons, numbered, ← ih rfl hps, Json.Lead.name_index]
  | nested l k inside rest ih1 ih2 =>
    subst ho
    rw [edit] at h
    obtain ⟨v', left', ps', hps, rfl⟩ := Patch.editMember_index h
    rw [List.map_cons, numbered, ← ih2 rfl hps, Json.Lead.name_index]

/-- A text holds one value only. -/
theorem Page.content_eq {p p' : Page} (h : p.text = p'.text) :
    p.value.content = p'.value.content := by
  let depth := max p.value.nesting p'.value.nesting
  obtain ⟨n, hn, -, hc⟩ := Document.read_page p (le_max_left _ _ : p.value.nesting ≤ depth)
  obtain ⟨n', hn', -, hc'⟩ := Document.read_page p' (le_max_right _ _ : p'.value.nesting ≤ depth)
  rw [h, hn'] at hn
  simp only [Except.ok.injEq, Document.mk.injEq, true_and, Option.some.injEq] at hn
  rw [← hc, ← hc', hn]

theorem content_eq_of_text_eq {v v' : Spelling} (h : v.text = v'.text) : v.content = v'.content :=
  Page.content_eq (show v.page.text = v'.page.text by rw [v.text_page, v'.text_page, h])

/-- The value of a payload. -/
noncomputable def content? (bs : Bytes) : Option Content := (spelling? bs).map Spelling.content

theorem content?_text (v : Spelling) : content? v.text = some v.content := by
  obtain ⟨v', hv', htext⟩ := exists_spelling? v
  rw [content?, hv', Option.map_some, content_eq_of_text_eq htext]

/-- The edits of a text are those of its value. -/
theorem Passage.content_edit {o s : Bool} (p : Passage o s) (i : Nat)
    (left : List (String × Patch.Node)) :
    (p.edit i left).map (Patch.mapMembers Spelling.content) =
      Patch.editedMembers content? o (p.members i) left := by
  induction p generalizing i left with
  | close sp => exact (Patch.appended_map spelling? Spelling.content _ left).symm
  | @token o s l t rest ih =>
    exact (Patch.editMember_map spelling? Spelling.content o (l.name i) (.token t)
      (fun cs => rfl) (fun cs => (ih (i + 1) cs).symm) left).symm
  | @nested o s l k inside rest ih1 ih2 =>
    refine (Patch.editMember_map spelling? Spelling.content o (l.name i) (.nested k inside)
      (fun cs => ?_) (fun cs => (ih2 (i + 1) cs).symm) left).symm
    rw [Patch.edited, ← ih1, Option.map_map, Option.map_map]
    cases h : inside.edit 0 cs with
    | none => rfl
    | some ps =>
      simp only [Option.map_some, Function.comp_apply, Spelling.content]
      rw [members_ofParts false 0 ps fun hk => edit_index inside hk h]

end Json

namespace Patch.Splice

variable {depth : Nat}

theorem document_token (sp : Space) (t : Token) {rest : Bytes} (hr : Stops rest) (root : Node) :
    Fails Error.Unfit (document root ⟨ofBytes depth (sp.bytes ++ (t.text ++ rest)), .empty⟩) := by
  obtain ⟨-, hm⟩ := next_first_token depth sp t hr
  have hlast := t.event_not_last
  have hstart := t.event_not_start
  rw [← hm.event] at hlast hstart
  rw [document]
  refine Fails.andThen ?_ _
  simp only [next]
  split
  · rename_i he
    simp [he, Event.isLast] at hlast
  · rename_i he
    simp [he, Event.isLast] at hlast
  · rename_i he
    simp [he, Event.isStart] at hstart
  · rename_i he
    simp [he, Event.isStart] at hstart
  · exact fails_notFound (fun _ he => he) _ _

theorem document_open (sp after : Space) (k : Bool) (p : Passage k false) (root : Node)
    (hd : p.nesting + 1 ≤ depth) (hp : ∀ c ∈ root.children, c.2.Every Edit.Spelled) :
    let a := document root ⟨ofBytes depth (sp.bytes ++ openByte k :: (p.text ++ after.bytes)), .empty⟩
    match p.edit 0 root.children with
    | some ps => ∃ s : Splice, a = (.ok (), s) ∧
        s.writer.output = Spelling.text (.nested k (.ofParts false ps))
    | none => Fails Error.Unfit a := by
  obtain ⟨hs, hm⟩ := next_first_open depth sp k (p.text ++ after.bytes) (by omega)
  let r := (ofBytes depth (sp.bytes ++ openByte k :: (p.text ++ after.bytes))).next
  let w : Writer := ⟨[openByte k], [false]⟩
  have hfuel : p.steps ≤ r.input.length + 2 := by
    have hsteps := p.steps_le_length
    rw [hs.input]
    simp only [List.length_append]
    omega
  have hinside := ends_inside root.children (w := w) (i := 0) (fun _ he => he) p hs
    (by simp only [List.length_nil]; omega) rfl hp hfuel
  have hdoc : document root
      ⟨ofBytes depth (sp.bytes ++ openByte k :: (p.text ++ after.bytes)), .empty⟩ =
      andThen (inside (r.input.length + 2) k 0 root.children ⟨r, w⟩) fun s =>
        if s.next.reader.event = .error then s.next.fault else (.ok (), s.next) := by
    rw [document]
    simp only [next, hm.event]
    cases k <;> rfl
  simp only
  rw [hdoc]
  cases h : p.edit 0 root.children with
  | none =>
    rw [h] at hinside
    exact Fails.andThen hinside _
  | some ps =>
    rw [h, Option.map_some] at hinside
    obtain ⟨r', hr', hok⟩ := hinside
    have heof := next_eof after hr'
    rw [hok, andThen]
    refine ⟨_, if_neg ?_, rfl⟩
    simp [next, heof]

/-- The pass over a text succeeds just if the edits can be made, and then the text they make holds
what they make of the value. -/
theorem document_page (p : Page) (hd : p.value.nesting ≤ depth) {root : Node}
    (hp : ∀ c ∈ root.children, c.2.Every Edit.Spelled) :
    let a := document root ⟨ofBytes depth p.text, .empty⟩
    match edited content? p.value.content root.children with
    | some c => ∃ (v : Spelling) (s : Splice), v.content = c ∧ a = (.ok (), s) ∧
        s.writer.output = v.text
    | none => Fails Error.Unfit a := by
  obtain ⟨before, value, after⟩ := p
  cases value with
  | token t => exact document_token before t (stops_space after) root
  | nested k inside =>
    have hdoc := document_open before after k inside root hd hp
    have htext : Page.text ⟨before, .nested k inside, after⟩ =
        before.bytes ++ openByte k :: (inside.text ++ after.bytes) := by
      simp [Page.text, Spelling.text]
    simp only [htext, Spelling.content, edited, ← Passage.content_edit]
    simp only at hdoc
    cases h : inside.edit 0 root.children with
    | none =>
      rw [h] at hdoc
      exact hdoc
    | some ps =>
      rw [h] at hdoc
      obtain ⟨s, hs, hout⟩ := hdoc
      refine ⟨.nested k (.ofParts false ps), s, ?_, hs, hout⟩
      show Content.group k ((Passage.ofParts false ps : Passage k false).members 0) = _
      rw [Passage.members_ofParts false 0 ps fun hk => Passage.edit_index inside hk h]

/-- A text of spaces has nothing to edit. -/
theorem document_space (sp : Space) (root : Node) :
    Fails (fun _ => True) (document root ⟨ofBytes depth sp.bytes, .empty⟩) := by
  rw [document]
  simp only [next, next_empty]
  exact ⟨_, _, rfl, trivial⟩

/-- The pass does not get through a text that is nested too deep. -/
theorem document_deep (p : Page) (hd : depth < p.value.nesting) {root : Node}
    (hp : ∀ c ∈ root.children, c.2.Every Edit.Spelled) :
    Fails (fun _ => True) (document root ⟨ofBytes depth p.text, .empty⟩) := by
  obtain ⟨before, value, after⟩ := p
  cases value with
  | token t => simp [Spelling.nesting] at hd
  | nested k inside =>
    have htext : Page.text ⟨before, .nested k inside, after⟩ =
        before.bytes ++ openByte k :: (inside.text ++ after.bytes) := by
      simp [Page.text, Spelling.text]
    have hd : depth < inside.nesting + 1 := hd
    rw [htext]
    cases depth with
    | zero =>
      rw [document]
      simp only [next, event_first_deep]
      exact ⟨_, _, rfl, trivial⟩
    | succ depth =>
      obtain ⟨hs, hm⟩ := next_first_open (depth + 1) before k (inside.text ++ after.bytes)
        (by omega)
      let r := (ofBytes (depth + 1) (before.bytes ++ openByte k :: (inside.text ++ after.bytes))).next
      have hfuel : inside.steps ≤ r.input.length + 2 := by
        have hsteps := inside.steps_le_length
        rw [hs.input]
        simp only [List.length_append]
        omega
      have hdeep := fails_inside_deep (w := ⟨[openByte k], [false]⟩) (i := 0) inside root.children hs
        (by simp only [List.length_nil]; omega) rfl hp hfuel
      rw [document]
      simp only [next, hm.event]
      cases k <;> exact Fails.andThen hdeep _

end Patch.Splice

end Quarry
