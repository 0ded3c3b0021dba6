import Quarry.Proofs.Patch.Lookup
import Quarry.Proofs.Patch.Stepwise
import Quarry.Proofs.Text.Tokens

/-!
While the operations of a patch are resolved, the document under the targets so far is the value
that the operations make of it one after another.
-/

namespace Quarry.Patch

open Json Text Content

/-! ### Changes that leave elements where they are -/

/-- No element of an array is put in or taken out. -/
def Steady : Content → List (List String × Change) → Prop
  | _, [] => True
  | c, (p, a) :: changes =>
    ∀ c', a.make p c = some c' → ¬ a.kind.Shifts c.view p ∧ Steady c' changes

theorem Steady.first {c c' : Content} {p : List String} {a : Change}
    {changes : List (List String × Change)} (hs : Steady c ((p, a) :: changes))
    (h : Operation.makeAll c ((p, a) :: changes) = some c') :
    ∃ c₁, a.make p c = some c₁ ∧ ¬ a.kind.Shifts c.view p ∧ Steady c₁ changes ∧
      Operation.makeAll c₁ changes = some c' := by
  rw [Operation.makeAll_cons] at h
  obtain ⟨c₁, hmake, h⟩ := Option.bind_eq_some_iff.1 h
  obtain ⟨hstays, hrest⟩ := hs c₁ hmake
  exact ⟨c₁, hmake, hstays, hrest, h⟩

/-- What is seen after changes made one after another. -/
def overlays (changes : List (List String × Change)) (f : View) : View :=
  changes.foldl (fun f s => Change.overlay s.1 s.2.value? f) f

theorem EditKind.not_shifts {k : EditKind} {f : View} {p : List String}
    (h : f p.dropLast = some (.group true)) : ¬ k.Shifts f p := by
  rintro ⟨-, -, harray⟩
  rw [h] at harray
  cases harray

namespace Change

variable {a : Change} {p : List String} {c c' : Content}

theorem view_make (hc : c.Valid) (hs : ¬ a.kind.Shifts c.view p) (h : a.make p c = some c') :
    c'.view = overlay p a.value? c.view := by
  by_cases hp : p = []
  · subst hp
    rw [make] at h
    funext q
    rw [show overlay [] a.value? c.view q = _ from overlay_append [] q a.value? c.view, h]
    rfl
  · rw [make_eq_inPlace hp hs] at h
    exact view_inPlace hc h

theorem valid_make (hc : c.Valid) (hs : ¬ a.kind.Shifts c.view p)
    (ha : ∀ v, a.value? = some v → v.Valid) (h : a.make p c = some c') : c'.Valid := by
  by_cases hp : p = []
  · subst hp
    rw [make] at h
    exact ha c' h
  · rw [make_eq_inPlace hp hs] at h
    exact valid_inPlace hc ha h

theorem suits_of_make (hp : p ≠ []) (hs : ¬ a.kind.Shifts c.view p) (h : a.make p c = some c') :
    a.kind.Suits c.view p := by
  rw [make_eq_inPlace hp hs] at h
  exact suits_of_inPlace h

end Change

theorem steady_makeAll {changes : List (List String × Change)} {c c' : Content} (hc : c.Valid)
    (hs : Steady c changes) (hv : ∀ s ∈ changes, ∀ v, s.2.value? = some v → v.Valid)
    (h : Operation.makeAll c changes = some c') : c'.Valid ∧ c'.view = overlays changes c.view := by
  induction changes generalizing c with
  | nil =>
    obtain rfl := Option.some.inj h
    exact ⟨hc, rfl⟩
  | cons s changes ih =>
    obtain ⟨p, a⟩ := s
    rw [List.forall_mem_cons] at hv
    obtain ⟨c1, h1, hstays, hs, h⟩ := hs.first h
    obtain ⟨hvalid, hview⟩ := ih (Change.valid_make hc hstays hv.1 h1) hs hv.2 h
    refine ⟨hvalid, ?_⟩
    rw [hview, Change.view_make hc hstays h1]
    rfl

/-! ### Operations -/

namespace Operation

/-- The places whose value an operation asks for. -/
def reads : Operation → List String
  | .copy source _ => [source]
  | .move source _ => [source]
  | .test path _ => [path]
  | _ => []

/-- Where an operation puts a value. -/
def writes : Operation → List (List String)
  | .replace path _ => (Pointer.parse? path).toList
  | .add path _ => (Pointer.parse? path).toList
  | .copy _ path => (Pointer.parse? path).toList
  | .move _ path => (Pointer.parse? path).toList
  | _ => []

/-- Where an operation takes a value away. -/
def takes : Operation → List (List String)
  | .remove path => (Pointer.parse? path).toList
  | .move source _ => (Pointer.parse? source).toList
  | _ => []

def value? : Operation → Option Json.Value
  | .replace _ value => some value
  | .add _ value => some value
  | _ => none

/-- An operation whose value repeats no name and has a text no longer than an index can count. -/
structure Proper (op : Operation) : Prop where
  distinct : ∀ v, op.value? = some v → v.Distinct
  short : ∀ v, op.value? = some v → (bytes v.text).length ≤ UInt64.size

theorem proper_of_value? {op : Operation} (hv : op.value? = none) : op.Proper :=
  ⟨by simp [hv], by simp [hv]⟩

theorem content?_bytes (v : Json.Value) : content? (bytes v.text) = some (.ofJson v) := by
  obtain ⟨q, hq, hc⟩ := spelling_text v
  rw [← hq, content?_text, hc]

theorem Proper.plain {op : Operation} (h : op.Proper) : op.Holds Plain := by
  have hplain : ∀ v : Json.Value, op.value? = some v → Plain (bytes v.text) := by
    intro v hv
    obtain ⟨q, hq, hc⟩ := spelling_text v
    exact ⟨q, hq, hc ▸ (h.distinct v hv).valid, h.short v hv⟩
  cases op with
  | replace path value => exact hplain value rfl
  | add path value => exact hplain value rfl
  | remove path => trivial
  | copy source path => trivial
  | move source path => trivial
  | test path value => trivial

/-- What an operation asks for and finds is found by its own spelling. -/
theorem canonical_of_changes {op : Operation} {c : Content}
    {changes : List (List String × Change)} (hc : c.Valid) (h : op.changes c = some changes) :
    ∀ s ∈ op.reads, ∀ p, Pointer.parse? s = some p → Pointer.Canonical c.view p := by
  have hfound : ∀ {source : String} {q : List String} {v : Content},
      Pointer.parse? source = some q → c.get? q = some v →
      ∀ s ∈ [source], ∀ p, Pointer.parse? s = some p → Pointer.Canonical c.view p := by
    intro source q v hq hv s hs p hp
    rw [List.mem_singleton] at hs
    rw [hs, hq] at hp
    obtain rfl := Option.some.inj hp
    exact Pointer.canonical_of_get? hc (by simp [hv])
  cases op with
  | replace path value => simp [reads]
  | add path value => simp [reads]
  | remove path => simp [reads]
  | copy source path =>
    obtain ⟨q, hq, h⟩ := Option.bind_eq_some_iff.1 h
    obtain ⟨v, hv, -⟩ := Option.bind_eq_some_iff.1 h
    exact hfound hq hv
  | move source path =>
    obtain ⟨q, hq, h⟩ := Option.bind_eq_some_iff.1 h
    obtain ⟨v, hv, -⟩ := Option.bind_eq_some_iff.1 h
    exact hfound hq hv
  | test path value =>
    obtain ⟨q, hq, h⟩ := Option.bind_eq_some_iff.1 h
    obtain ⟨v, hv, -⟩ := Option.bind_eq_some_iff.1 h
    exact hfound hq hv

theorem valid_changes {op : Operation} {c : Content} {changes : List (List String × Change)}
    (h : op.Proper) (hc : c.Valid) (hop : op.changes c = some changes) :
    ∀ s ∈ changes, ∀ v, s.2.value? = some v → v.Valid := by
  cases op with
  | replace path value =>
    obtain ⟨p, -, hop⟩ := Option.bind_eq_some_iff.1 hop
    obtain rfl := Option.some.inj hop
    simpa [Change.value?] using (h.distinct value rfl).valid
  | add path value =>
    obtain ⟨p, -, hop⟩ := Option.bind_eq_some_iff.1 hop
    obtain rfl := Option.some.inj hop
    simpa [Change.value?] using (h.distinct value rfl).valid
  | remove path =>
    obtain ⟨p, -, hop⟩ := Option.bind_eq_some_iff.1 hop
    obtain rfl := Option.some.inj hop
    simp [Change.value?]
  | copy source path =>
    obtain ⟨q, -, hop⟩ := Option.bind_eq_some_iff.1 hop
    obtain ⟨v, hv, hop⟩ := Option.bind_eq_some_iff.1 hop
    obtain ⟨p, -, hop⟩ := Option.bind_eq_some_iff.1 hop
    obtain rfl := Option.some.inj hop
    simpa [Change.value?] using hc.get? hv
  | move source path =>
    obtain ⟨q, -, hop⟩ := Option.bind_eq_some_iff.1 hop
    obtain ⟨v, hv, hop⟩ := Option.bind_eq_some_iff.1 hop
    obtain ⟨p, -, hop⟩ := Option.bind_eq_some_iff.1 hop
    split at hop
    · cases hop
    · obtain rfl := Option.some.inj hop
      simpa [Change.value?] using hc.get? hv
  | test path value =>
    obtain ⟨p, -, hop⟩ := Option.bind_eq_some_iff.1 hop
    obtain ⟨v, -, hop⟩ := Option.bind_eq_some_iff.1 hop
    split at hop
    · obtain rfl := Option.some.inj hop
      simp
    · cases hop

end Operation

namespace Resolving

variable {input text payload : Bytes} {depth : Nat} {n : Quarry.Node} {r r' : Resolving}
  {tokens : List String} {path op : String} {kind : EditKind}

theorem pushEdit_ok (h : r.pushEdit kind path payload = (.ok (), r')) :
    ∃ p, Pointer.parse? path = some p ∧ r' = r.push ⟨p, kind, path, payload⟩ := by
  rw [pushEdit, Target.make] at h
  cases hp : Pointer.parse? path with
  | none =>
    rw [hp] at h
    cases h
  | some p =>
    rw [hp] at h
    cases h
    exact ⟨p, rfl, rfl⟩

theorem push_of_pushEdit {p : List String} (hp : Pointer.parse? path = some p)
    (h : r.pushEdit kind path payload = (.ok (), r')) : r' = r.push ⟨p, kind, path, payload⟩ := by
  obtain ⟨p', hp', heq⟩ := pushEdit_ok h
  rw [hp] at hp'
  rwa [Option.some.inj hp']

theorem pushEdit_laid {p : List String} (f : View) (hp : Pointer.parse? path = some p)
    (h : r.pushEdit kind path payload = (.ok (), r')) (hk : kind ≠ .remove) :
    laid r'.targets f = Change.overlay p (content? payload) (laid r.targets f) := by
  obtain rfl := push_of_pushEdit hp h
  rw [push, laid_cons, Edit.content_of_ne hk]

theorem copy_ok {source : String}
    (h : operation input depth (.copy source path) r = (.ok (), r')) :
    ∃ text r1, r.valueAt input depth source "copy" = (.ok text, r1) ∧
      r1.pushEdit .add path text = (.ok (), r') := by
  simp only [operation] at h
  split at h
  · cases h
  · rename_i text r1 hvalue
    exact ⟨text, r1, hvalue, h⟩

theorem move_ok {source : String}
    (h : operation input depth (.move source path) r = (.ok (), r')) :
    ¬ source.toList ++ ['/'] <+: path.toList ∧
      ∃ text r1 r2, r.valueAt input depth source "move" = (.ok text, r1) ∧
        r1.remove input depth source = (.ok (), r2) ∧
        r2.pushEdit .add path text = (.ok (), r') := by
  simp only [operation] at h
  split at h
  · cases h
  rename_i hwithin
  split at h
  · cases h
  rename_i text r1 hvalue
  split at h
  · cases h
  rename_i r2 hremove
  exact ⟨by simpa using hwithin, text, r1, r2, hvalue, hremove, h⟩

theorem test_ok {value : Json.Value}
    (h : operation input depth (.test path value) r = (.ok (), r')) :
    ∃ text, r.valueAt input depth path "test" = (.ok text, r') ∧
      holds depth text value = .ok true := by
  simp only [operation] at h
  split at h
  · cases h
  rename_i text r1 hvalue
  split at h
  · cases h
  · rename_i hholds
    cases h
    exact ⟨text, hvalue, hholds⟩
  · cases h

theorem remove_ok (h : r.remove input depth path = (.ok (), r')) :
    ∃ p, Pointer.parse? path = some p ∧ Removal input depth path p r r'.targets := by
  rw [remove, Target.make] at h
  cases hp : Pointer.parse? path with
  | none =>
    rw [hp] at h
    cases h
  | some p =>
    refine ⟨p, rfl, ?_⟩
    rw [hp] at h
    simp only at h
    split at h
    · rename_i hnone
      cases h
      exact .recorded hnone
    · rename_i i hi
      obtain ⟨us, t, vs, hundone, herase⟩ := exists_of_undone hi
      rw [herase] at h
      have htargets := targets_current input depth p ⟨r.document, us ++ vs⟩
      split at h
      · cases h
      · rename_i heq
        cases h
        rw [heq] at htargets
        rw [htargets]
        exact .dropped hundone (congrArg Prod.fst heq)
      · rename_i cur r1 hne heq
        cases h
        rw [heq] at htargets
        rw [push, htargets]
        exact .replaced hundone (congrArg Prod.fst heq) hne

theorem removal_of_remove {p : List String} (hp : Pointer.parse? path = some p)
    (h : r.remove input depth path = (.ok (), r')) : Removal input depth path p r r'.targets := by
  obtain ⟨p', hp', hremoval⟩ := remove_ok h
  rw [hp] at hp'
  rwa [Option.some.inj hp']

theorem Keeps.undone {P : Bytes → Prop} {us vs : List Target} {t : Target} {p : List String}
    (h : r.Keeps input depth P) (hu : Undone p r.targets us t vs) :
    Keeps input depth P ⟨r.document, us ++ vs⟩ := by
  refine ⟨h.document, fun u hmem => h.payload u ?_⟩
  rw [hu.split]
  rcases List.mem_append.1 hmem with hus | hvs
  · exact List.mem_append_left _ hus
  · exact List.mem_append_right us (List.mem_cons_of_mem t hvs)

/-- After a removal nothing is seen at its place, whether an edit was undone for it or not. -/
theorem remove_laid {p : List String} (hn : Reads input depth n) (h : r.Keeps input depth Plain)
    (hp : Pointer.parse? path = some p) (hr : r.remove input depth path = (.ok (), r')) :
    laid r'.targets n.content.view =
      Change.overlay p none (laid r.targets n.content.view) := by
  have hremoval := removal_of_remove hp hr
  have hmiddle : ∀ {us vs : List Target} {t : Target}, Undone p r.targets us t vs →
      Change.overlay p none (laid (us ++ vs) n.content.view) =
        Change.overlay p none (laid r.targets n.content.view) := by
    intro us vs t hundone
    rw [hundone.split, ← hundone.tokens]
    exact overlay_laid_middle us t vs none n.content.view
  generalize r'.targets = ts at hremoval ⊢
  cases hremoval with
  | recorded _ => rw [laid_cons, content_remove rfl]
  | dropped hundone hmissing =>
    -- Nothing is seen there under the rest, so that nothing has to be laid over it.
    have hshows := shows_current hn (h.undone hundone) hmissing
    rw [← hmiddle hundone]
    exact (overlay_self fun s => hshows s).symm
  | replaced hundone _ _ =>
    rw [laid_cons, content_remove rfl]
    exact hmiddle hundone

/-- Where the state is seen under the targets, a look-up finds what stands there in it. -/
theorem get?_of_laid {c v : Content} {f : View} {q : List String} {ts : List Target}
    (hview : c.view = laid ts f) (h : ∀ s, laid ts f (q ++ s) = v.view s) :
    ∃ w, c.get? q = some w ∧ v.Alike w := by
  have hq : ∀ s, (c.get? q).bind (fun w => w.view s) = v.view s := by
    intro s
    rw [← h, ← hview, view_append]
  cases hg : c.get? q with
  | none =>
    have hnil := hq []
    rw [hg] at hnil
    cases hnil
  | some w =>
    refine ⟨w, rfl, fun s => ?_⟩
    rw [← hq, hg]
    rfl

theorem overlay_alike {v w : Content} (h : v.Alike w) (p : List String) (f : View) :
    Change.overlay p (some v) f = Change.overlay p (some w) f := by
  funext q
  rw [Change.overlay, Change.overlay]
  cases after? p q with
  | none => rfl
  | some s => exact h s

theorem holds_ok {v : Content} {value : Json.Value} {b : Bool} (hplain : Plain text)
    (hcontent : content? text = some v) (h : holds depth text value = .ok b) :
    v.equalsJson value = b := by
  rw [holds] at h
  split at h
  · cases h
  · rename_i d hd
    obtain ⟨m, rfl, hm, hc⟩ := hplain.reads hd
    rw [hcontent] at hc
    cases hc
    rw [Node.equalsJson_content hm.distinct]
    exact Except.ok.inj h

end Resolving

/-! ### The state under way -/

/-- A value is what the document looks like under the targets so far. -/
structure Tracks (input : Bytes) (depth : Nat) (n : Quarry.Node) (c : Content) (r : Resolving) :
    Prop where
  keeps : r.Keeps input depth Plain
  valid : c.Valid
  view : c.view = laid r.targets n.content.view

section Tracks

variable {input text : Bytes} {depth : Nat} {n : Quarry.Node} {c c' : Content} {r r' : Resolving}
  {o : Operation} {ops : List Operation} {path op : String}

theorem tracks_start (hn : Reads input depth n) : Tracks input depth n n.content ⟨none, []⟩ :=
  ⟨Resolving.keeps_start input depth Plain, hn.distinct.valid, rfl⟩

theorem Tracks.view_remove {p : List String} (h : Tracks input depth n c r)
    (hn : Reads input depth n) (hp : Pointer.parse? path = some p)
    (hs : ¬ EditKind.Shifts c.view p .remove) (hmake : Change.remove.make p c = some c')
    (hok : r.remove input depth path = (.ok (), r')) :
    c'.view = laid r'.targets n.content.view := by
  rw [Change.view_make h.valid hs hmake, Resolving.remove_laid hn h.keeps hp hok, ← h.view]
  rfl

/-! ### What an operation does to the targets -/

/-- An operation has the text that it puts in place or looks at, and has changed no target for it. -/
structure Asked (input : Bytes) (depth : Nat) (n : Quarry.Node) (c : Content) (r : Resolving)
    (o : Operation) (r₁ : Resolving) (text : Bytes) (w : Content) : Prop where
  targets : r₁.targets = r.targets
  tracks : Tracks input depth n c r₁
  content : ∃ v, content? text = some v ∧ v.Alike w
  inherits : ∀ {P : Bytes → Prop}, Inherited input depth P → o.Holds P → r.Keeps input depth P →
    r₁.Keeps input depth P ∧ P text

theorem Tracks.given (h : Tracks input depth n c r) (value : Json.Value)
    (ho : ∀ {P : Bytes → Prop}, o.Holds P → P (bytes value.text)) :
    Asked input depth n c r o r (bytes value.text) (.ofJson value) :=
  ⟨rfl, h, ⟨_, Operation.content?_bytes value, .refl _⟩, fun _ hP hr => ⟨hr, ho hP⟩⟩

/-- The text that is found at a pointer is one of the value that stands there. -/
theorem Tracks.found (h : Tracks input depth n c r) (hn : Reads input depth n)
    (hc : ∀ p, Pointer.parse? path = some p → Pointer.Canonical c.view p)
    (hv : r.valueAt input depth path op = (.ok text, r')) (o : Operation) :
    ∃ p w, Pointer.parse? path = some p ∧ c.get? p = some w ∧
      Asked input depth n c r o r' text w := by
  have hinherits : ∀ {P : Bytes → Prop}, Inherited input depth P → r.Keeps input depth P →
      r'.Keeps input depth P ∧ P text := by
    intro P hP hr
    have hkeeps := Resolving.keeps_valueAt hr path op
    rw [hv] at hkeeps
    exact ⟨hkeeps, Resolving.ok_valueAt hP hr hv⟩
  have htargets := Resolving.targets_valueAt hv
  have htracks : Tracks input depth n c r' :=
    ⟨(hinherits (inherited_plain hn) h.keeps).1, h.valid, htargets ▸ h.view⟩
  rw [Resolving.valueAt] at hv
  cases hp : Pointer.parse? path with
  | none =>
    rw [hp] at hv
    cases hv
  | some p =>
    rw [hp] at hv
    simp only at hv
    split at hv
    · cases hv
    · rename_i heq
      cases hv
      obtain ⟨v, hcontent, hview⟩ :=
        Resolving.shows_current hn h.keeps (congrArg Prod.fst heq) (h.view ▸ hc p hp)
      obtain ⟨w, hw, halike⟩ := Resolving.get?_of_laid h.view hview
      exact ⟨p, w, rfl, hw, htargets, htracks, ⟨v, hcontent, halike⟩,
        fun hP _ hr => hinherits hP hr⟩
    · cases hv
    · cases hv

theorem Asked.equalsJson {r₁ : Resolving} {w : Content} {value : Json.Value} {b : Bool}
    (ha : Asked input depth n c r o r₁ text w) (hn : Reads input depth n) (ho : o.Holds Plain)
    (h : Tracks input depth n c r) (hw : w.Valid)
    (hb : Resolving.holds depth text value = .ok b) :
    w.equalsJson value = b := by
  obtain ⟨v, hcontent, halike⟩ := ha.content
  have hplain := (ha.inherits (inherited_plain hn) ho h.keeps).2
  obtain ⟨v', hv', hvalid⟩ := hplain.content?
  rw [hcontent] at hv'
  obtain rfl := Option.some.inj hv'
  rw [← halike.equalsJson hvalid hw]
  exact Resolving.holds_ok hplain hcontent hb

/-- What a resolved operation does to the targets, beside the changes that it makes. -/
inductive Resolved (input : Bytes) (depth : Nat) (n : Quarry.Node) (c : Content)
    (r r' : Resolving) : Operation → List (List String × Change) → Prop
  | puts {o : Operation} {path : String} {p : List String} {a : Change} {r₁ : Resolving}
      {text : Bytes} {w : Content} (asked : Asked input depth n c r o r₁ text w)
      (value : a.value? = some w) (parsed : Pointer.parse? path = some p) (writes : o.writes = [p])
      (pushed : r₁.pushEdit a.kind path text = (.ok (), r')) :
      Resolved input depth n c r r' o [(p, a)]
  | takes {path : String} {p : List String} (parsed : Pointer.parse? path = some p)
      (removed : r.remove input depth path = (.ok (), r')) :
      Resolved input depth n c r r' (.remove path) [(p, .remove)]
  | moves {source path : String} {q p : List String} {r₁ r₂ : Resolving} {text : Bytes}
      {w : Content} (asked : Asked input depth n c r (.move source path) r₁ text w)
      (origin : Pointer.parse? source = some q) (stands : c.get? q = some w)
      (removed : r₁.remove input depth source = (.ok (), r₂))
      (parsed : Pointer.parse? path = some p)
      (pushed : r₂.pushEdit .add path text = (.ok (), r')) :
      Resolved input depth n c r r' (.move source path) [(q, .remove), (p, .add w)]
  | checks {path : String} {value : Json.Value} {text : Bytes} {w : Content}
      (asked : Asked input depth n c r (.test path value) r' text w) :
      Resolved input depth n c r r' (.test path value) []

/-- An operation that is resolved finds in the state what it reads. -/
theorem Tracks.resolved (h : Tracks input depth n c r) (hn : Reads input depth n)
    (hc : ∀ s ∈ o.reads, ∀ p, Pointer.parse? s = some p → Pointer.Canonical c.view p)
    (hok : Resolving.operation input depth o r = (.ok (), r')) :
    ∃ changes, o.changes c = some changes ∧ Resolved input depth n c r r' o changes := by
  cases o with
  | replace path value =>
    obtain ⟨p, hp, -⟩ := Resolving.pushEdit_ok hok
    exact ⟨[(p, .replace (.ofJson value))], by simp [Operation.changes, hp],
      .puts (h.given value id) rfl hp (by simp [Operation.writes, hp]) hok⟩
  | add path value =>
    obtain ⟨p, hp, -⟩ := Resolving.pushEdit_ok hok
    exact ⟨[(p, .add (.ofJson value))], by simp [Operation.changes, hp],
      .puts (h.given value id) rfl hp (by simp [Operation.writes, hp]) hok⟩
  | remove path =>
    obtain ⟨p, hp, -⟩ := Resolving.remove_ok hok
    exact ⟨[(p, .remove)], by simp [Operation.changes, hp], .takes hp hok⟩
  | copy source path =>
    obtain ⟨text, r1, hvalue, hpush⟩ := Resolving.copy_ok hok
    obtain ⟨q, w, hq, hw, hasked⟩ :=
      h.found hn (hc source (by simp [Operation.reads])) hvalue (.copy source path)
    obtain ⟨p, hp, -⟩ := Resolving.pushEdit_ok hpush
    exact ⟨[(p, .add w)], by simp [Operation.changes, hq, hw, hp],
      .puts hasked rfl hp (by simp [Operation.writes, hp]) hpush⟩
  | move source path =>
    obtain ⟨hwithin, text, r1, r2, hvalue, hremove, hpush⟩ := Resolving.move_ok hok
    obtain ⟨q, w, hq, hw, hasked⟩ :=
      h.found hn (hc source (by simp [Operation.reads])) hvalue (.move source path)
    obtain ⟨p, hp, -⟩ := Resolving.pushEdit_ok hpush
    have hapart : q ≠ p → ¬ q <+: p := fun hne hpre =>
      hwithin (Pointer.slash_within hq hp hne hpre)
    exact ⟨[(q, .remove), (p, .add w)], by simpa [Operation.changes, hq, hw, hp] using hapart,
      .moves hasked hq hw hremove hp hpush⟩
  | test path value =>
    obtain ⟨text, hvalue, hholds⟩ := Resolving.test_ok hok
    obtain ⟨p, w, hp, hw, hasked⟩ :=
      h.found hn (hc path (by simp [Operation.reads])) hvalue (.test path value)
    have hequal := hasked.equalsJson hn trivial h (h.valid.get? hw) hholds
    exact ⟨[], by simp [Operation.changes, hp, hw, hequal], .checks hasked⟩

theorem Asked.pushEdit_laid {r₁ r₂ : Resolving} {w : Content} {p : List String} {kind : EditKind}
    (h : Asked input depth n c r o r₁ text w) (f : View) (hp : Pointer.parse? path = some p)
    (hpush : r₂.pushEdit kind path text = (.ok (), r')) (hk : kind ≠ .remove) :
    laid r'.targets f = Change.overlay p (some w) (laid r₂.targets f) := by
  obtain ⟨v, hcontent, halike⟩ := h.content
  rw [Resolving.pushEdit_laid f hp hpush hk, hcontent]
  exact Resolving.overlay_alike halike p _

theorem Change.kind_ne_remove {a : Change} {w : Content} (h : a.value? = some w) :
    a.kind ≠ .remove := by
  cases a with
  | replace v => simp [kind]
  | add v => simp [kind]
  | remove => cases h

/-- A resolved operation leaves the targets of its changes. -/
theorem Resolved.laid_targets {changes : List (List String × Change)}
    (h : Resolved input depth n c r r' o changes) (hn : Reads input depth n)
    (ht : Tracks input depth n c r) : laid r'.targets n.content.view = overlays changes c.view := by
  cases h with
  | puts asked value parsed _ pushed =>
    rw [asked.pushEdit_laid _ parsed pushed (Change.kind_ne_remove value), ← asked.tracks.view,
      ← value]
    rfl
  | takes parsed removed =>
    rw [Resolving.remove_laid hn ht.keeps parsed removed, ← ht.view]
    rfl
  | moves asked origin _ removed parsed pushed =>
    rw [asked.pushEdit_laid _ parsed pushed (by simp),
      Resolving.remove_laid hn asked.tracks.keeps origin removed, ← asked.tracks.view]
    rfl
  | checks asked => exact asked.tracks.view.symm

theorem Tracks.changes (h : Tracks input depth n c r) (hn : Reads input depth n)
    (hc : ∀ s ∈ o.reads, ∀ p, Pointer.parse? s = some p → Pointer.Canonical c.view p)
    (hok : Resolving.operation input depth o r = (.ok (), r')) :
    ∃ changes, o.changes c = some changes ∧
      laid r'.targets n.content.view = overlays changes c.view := by
  obtain ⟨changes, hchanges, hresolved⟩ := h.resolved hn hc hok
  exact ⟨changes, hchanges, hresolved.laid_targets hn h⟩

/-! ### Operations one after another -/

namespace Operation

/-- The operations put no element of an array in and take none out. -/
def Still : Content → List Operation → Prop
  | _, [] => True
  | c, op :: ops =>
    (∀ changes, op.changes c = some changes → Steady c changes) ∧
      ∀ c', op.step c = some c' → Still c' ops

theorem still_cons {op : Operation} {ops : List Operation} {c : Content} {p : List String}
    {a : Change} (hchanges : op.changes c = some [(p, a)]) (hs : ¬ a.kind.Shifts c.view p)
    (h : ∀ c', op.step c = some c' → Still c' ops) : Still c (op :: ops) := by
  refine ⟨fun changes hc => ?_, h⟩
  rw [hchanges] at hc
  obtain rfl := Option.some.inj hc
  exact fun _ _ => ⟨hs, trivial⟩

end Operation

/-- An operation that can be made finds what it reads by its own spelling. -/
theorem Tracks.resolved_of_step (h : Tracks input depth n c r) (hn : Reads input depth n)
    (hstep : o.step c = some c') (hok : Resolving.operation input depth o r = (.ok (), r')) :
    ∃ changes, o.changes c = some changes ∧ Operation.makeAll c changes = some c' ∧
      Resolved input depth n c r r' o changes := by
  obtain ⟨changes, hchanges, hmakes⟩ := Option.bind_eq_some_iff.1 hstep
  obtain ⟨changes', hchanges', hresolved⟩ :=
    h.resolved hn (Operation.canonical_of_changes h.valid hchanges) hok
  rw [hchanges] at hchanges'
  obtain rfl := Option.some.inj hchanges'
  exact ⟨changes, hchanges, hmakes, hresolved⟩

theorem Tracks.operation (h : Tracks input depth n c r) (hn : Reads input depth n)
    (ho : o.Proper) (hs : ∀ changes, o.changes c = some changes → Steady c changes)
    (hstep : o.step c = some c') (hok : Resolving.operation input depth o r = (.ok (), r')) :
    Tracks input depth n c' r' := by
  obtain ⟨changes, hchanges, hmakes, hresolved⟩ := h.resolved_of_step hn hstep hok
  have hv := Operation.valid_changes ho h.valid hchanges
  obtain ⟨hvalid, hview⟩ := steady_makeAll h.valid (hs changes hchanges) hv hmakes
  have hkeeps := Resolving.keeps_operation (inherited_plain hn) h.keeps ho.plain
  rw [hok] at hkeeps
  exact ⟨hkeeps, hvalid, hview.trans (hresolved.laid_targets hn h).symm⟩

/-- What is kept by each operation of a run that is resolved is kept by all of them. -/
theorem Operation.run_induct {M : Content → Resolving → Prop}
    (hM : ∀ {o : Operation} {c c' : Content} {r r' : Resolving}, M c r → o.Proper →
      (∀ changes, o.changes c = some changes → Steady c changes) → o.step c = some c' →
      Resolving.operation input depth o r = (.ok (), r') → M c' r')
    (h : M c r) (hops : ∀ op ∈ ops, op.Proper) (hs : Operation.Still c ops)
    (hrun : Operation.run c ops = some c')
    (hok : Resolving.operations input depth ops r = (.ok (), r')) : M c' r' := by
  induction ops generalizing c r with
  | nil =>
    obtain rfl := Option.some.inj hrun
    cases hok
    exact h
  | cons op ops ih =>
    rw [List.forall_mem_cons] at hops
    rw [Operation.run_cons] at hrun
    obtain ⟨c1, hstep, hrun⟩ := Option.bind_eq_some_iff.1 hrun
    rw [Resolving.operations] at hok
    split at hok
    · cases hok
    rename_i r1 hoperation
    exact ih (hM h hops.1 hs.1 hstep hoperation) hops.2 (hs.2 c1 hstep) hrun hok

theorem Tracks.operations (h : Tracks input depth n c r) (hn : Reads input depth n)
    (hops : ∀ op ∈ ops, op.Proper) (hs : Operation.Still c ops)
    (hrun : Operation.run c ops = some c')
    (hok : Resolving.operations input depth ops r = (.ok (), r')) :
    Tracks input depth n c' r' :=
  Operation.run_induct (fun h ho hs hstep hok => h.operation hn ho hs hstep hok) h hops hs hrun hok

end Tracks

end Quarry.Patch
