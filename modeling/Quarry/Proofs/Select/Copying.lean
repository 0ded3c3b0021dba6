import Quarry.Proofs.Json.Consumed
import Quarry.Proofs.Select.Reading

/-!
A selection copies source text out of a document. Whatever would be done with bytes that are no
characters, the copies are the same: there are none.
-/

namespace Quarry

open Json Text

namespace Walk

/-- A visit that turns bytes into text in some way. -/
def visitBy (copy : Bytes → String) (enter : Tree → Bool → Walk → Except ReadError Unit × Walk)
    (n : Tree) (o : Bool) (i : Nat) (w : Walk) : Except ReadError Unit × Walk :=
  match w.childFor o i n with
  | none => if w.reader.event.isStart then w.passOver fun _ w => w else (.ok (), w)
  | some c =>
    if w.reader.event.isStart then
      let w' := w.record c.collectors (scalarOf w.reader.event) ""
      let places := w'.slots c.collectors
      if c.hasChildren then
        andThen (enter c (w.reader.event == .objectStart) w') fun w'' =>
          (.ok (), w''.fill places
            (copy (Span.of ⟨w.reader.valueStart, w''.reader.position⟩ w''.reader.input)))
      else w'.passOver fun s w => w.fill places (copy (s.of w.reader.input))
    else
      (.ok (), w.record c.collectors (scalarOf w.reader.event)
        (copy (w.reader.span.of w.reader.input)))

def insideBy (copy : Bytes → String) :
    Nat → Tree → Bool → Nat → Walk → Except ReadError Unit × Walk
  | 0, _, _, _, w => (.error w.reader.fault, w)
  | fuel + 1, n, o, i, w =>
    let w := { w with reader := w.reader.next }
    if w.reader.event.isLast then (.error w.reader.fault, w)
    else if w.reader.event.isEnd then (.ok (), w)
    else andThen (visitBy copy (insideBy copy fuel · · 0 ·) n o i w) (insideBy copy fuel n o (i + 1))

def documentBy (copy : Bytes → String) (root : Tree) (w : Walk) : Except ReadError Unit × Walk :=
  let w := { w with reader := w.reader.next }
  if w.reader.event = .eof then (.ok (), w)
  else if w.reader.event = .error then (.error w.reader.fault, w)
  else
    andThen
      (if w.reader.event.isStart then
        if root.hasChildren then
          insideBy copy (w.reader.input.length + 2) root (w.reader.event == .objectStart) 0 w
        else w.passOver fun _ w => w
      else (.ok (), w))
      fun w =>
        let w := { w with reader := w.reader.next }
        if w.reader.event = .error then (.error w.reader.fault, w) else (.ok (), w)

variable {copy : Bytes → String} {input : Bytes} {w : Walk}

/-- Two outcomes that are one, and a reader that can go on if they are no fault. -/
structure Coincide (input : Bytes) (p q : Except ReadError Unit × Walk) : Prop where
  same : p = q
  clean : ∀ w, q = (.ok (), w) → w.reader.Clean input

theorem coincide_ok (h : w.reader.Clean input) : Coincide input (.ok (), w) (.ok (), w) := by
  refine ⟨rfl, ?_⟩
  rintro w' hw
  cases hw
  exact h

theorem coincide_error (e : ReadError) (w : Walk) : Coincide input (.error e, w) (.error e, w) :=
  ⟨rfl, nofun⟩

theorem Coincide.andThen {p q : Except ReadError Unit × Walk}
    {k l : Walk → Except ReadError Unit × Walk} (h : Coincide input p q)
    (hk : ∀ w : Walk, w.reader.Clean input → Coincide input (k w) (l w)) :
    Coincide input (Walk.andThen p k) (Walk.andThen q l) := by
  obtain ⟨rfl, hclean⟩ := h
  obtain ⟨a, w⟩ := p
  cases a with
  | error e => exact coincide_error e w
  | ok _ => exact hk w (hclean w rfl)

theorem coincide_passOver {done done' : Span → Walk → Walk} (hw : w.reader.Clean input)
    (hdone : ∀ (s : Span) (w : Walk), w.reader.Clean input → IsUtf8 (s.of input) →
      done s w = done' s w ∧ (done' s w).reader = w.reader) :
    Coincide input (w.passOver done) (w.passOver done') := by
  rw [passOver, passOver, skip]
  cases hskip : w.reader.skip with
  | mk a r =>
    cases a with
    | error e => exact coincide_error e _
    | ok s =>
      obtain ⟨hclean, hutf8⟩ := hw.skip hskip
      obtain ⟨hsame, hreader⟩ := hdone s { w with reader := r } hclean hutf8
      simp only
      rw [hsame]
      apply coincide_ok
      rw [hreader]
      exact hclean

/-- A copy that is right for all texts is right for the spans that are copied. -/
theorem copy_eq (hcopy : ∀ s, copy (bytes s) = s) {bs : Bytes} (h : IsUtf8 bs) :
    copy bs = ofBytes bs := by
  rw [← bytes_ofBytes h, hcopy, ofBytes_bytes]

theorem coincide_visit (hcopy : ∀ s, copy (bytes s) = s)
    {enter enter' : Tree → Bool → Walk → Except ReadError Unit × Walk}
    (henter : ∀ c o (w : Walk), w.reader.Clean input → Coincide input (enter c o w) (enter' c o w))
    (hw : w.reader.Clean input) (n : Tree) (o : Bool) (i : Nat) :
    Coincide input (visitBy copy enter n o i w) (visit enter' n o i w) := by
  rw [visitBy, visit]
  cases w.childFor o i n with
  | none =>
    simp only
    split
    · exact coincide_passOver hw fun _ _ _ _ => ⟨rfl, rfl⟩
    · exact coincide_ok hw
  | some c =>
    simp only
    split
    · have hrecord : (w.record c.collectors (scalarOf w.reader.event) "").reader.Clean input := hw
      split
      · apply (henter c _ _ hrecord).andThen
        intro w' hw'
        have hspan := hw.valid.start.isUtf8_span hw'.valid.position
        rw [textOf, hw'.valid.same, copy_eq hcopy hspan]
        exact coincide_ok hw'
      · apply coincide_passOver hrecord
        intro s w' hw' hspan
        rw [textOf, hw'.valid.same, copy_eq hcopy hspan]
        exact ⟨rfl, rfl⟩
    · rw [textOf, hw.valid.same, copy_eq hcopy hw.valid.isUtf8_span]
      exact coincide_ok hw

theorem coincide_inside (hcopy : ∀ s, copy (bytes s) = s) (fuel : Nat) {n : Tree} {o : Bool} {i : Nat}
    (hw : w.reader.Clean input) :
    Coincide input (insideBy copy fuel n o i w) (inside fuel n o i w) := by
  induction fuel generalizing n o i w with
  | zero => exact coincide_error _ w
  | succ fuel ih =>
    rw [insideBy, inside_succ]
    simp only
    split
    · exact coincide_error _ _
    rename_i hlast
    have hnext := hw.next (by simpa using hlast)
    split
    · exact coincide_ok hnext
    · exact (coincide_visit hcopy (fun c o w hw => ih hw) hnext n o i).andThen fun w hw => ih hw

theorem documentBy_eq (hcopy : ∀ s, copy (bytes s) = s) (root : Tree) (hw : w.reader.Clean input) :
    documentBy copy root w = document root w := by
  rw [documentBy, document_eq]
  simp only
  split
  · rfl
  rename_i heof
  split
  · rfl
  rename_i herror
  have hnext : w.reader.next.Clean input := by
    apply hw.next
    generalize w.reader.next.event = e at heof herror
    cases e <;> first | rfl | contradiction
  split
  · split
    · rw [(coincide_inside hcopy _ hnext).same]
    · rfl
  · rfl

end Walk

namespace Selector

/-- A selection that turns bytes into text in some way. -/
def selectBy (copy : Bytes → String) (input : Bytes) (s : Selector) :
    Except ReadError Unit × Selector :=
  match Walk.documentBy copy s.tree.root ⟨.ofBytes s.depthLimit input, s.cleared⟩ with
  | (answer, w) =>
    let s := { s with skipped := w.reader.skipped, eventsRead := w.reader.eventsRead }
    match answer with
    | .ok _ => (.ok (), { s with results := w.results, failure := none })
    | .error e => (.error e, { s with results := s.cleared, failure := some e })

theorem selectBy_eq {copy : Bytes → String} (hcopy : ∀ s, copy (bytes s) = s) (input : Bytes)
    (s : Selector) : s.selectBy copy input = s.select input := by
  rw [selectBy, Walk.documentBy_eq hcopy _ (Reader.clean_ofBytes s.depthLimit input)]
  rfl

end Selector

end Quarry
