import Quarry.Proofs.Document.Outcome
import Quarry.Select.Selector

/-!
A selection comes through the same places of a text as a plain pass, whatever paths it follows and
whatever it passes over, so it ends where the plain pass ends and with the same fault.
-/

namespace Quarry

open Json Text

namespace Walk

open Json.Reader (endEvent_not_last startEvent_not_last isEnd_endEvent isEnd_startEvent
  isStart_startEvent)

variable {depth fuel : Nat} {read rest : Bytes} {f : Frame} {outer : List Frame}
  {o : Bool} {i : Nat} {n : Tree} {w : Walk} {r : Reader}
  {enter : Tree → Bool → Walk → Except ReadError Unit × Walk}

/-- Passes over the container the reader stands on. -/
def passOver (done : Span → Walk → Walk) (w : Walk) : Except ReadError Unit × Walk :=
  match w.skip with
  | (.error e, w) => (.error e, w)
  | (.ok s, w) => (.ok (), done s w)

/-- What is done at the member or element `i` of a container. The containers that a path leads
into are left to `enter`. -/
def visit (enter : Tree → Bool → Walk → Except ReadError Unit × Walk)
    (n : Tree) (o : Bool) (i : Nat) (w : Walk) : Except ReadError Unit × Walk :=
  match w.childFor o i n with
  | none => if w.reader.event.isStart then w.passOver fun _ w => w else (.ok (), w)
  | some c =>
    if w.reader.event.isStart then
      let w' := w.record c.collectors (scalarOf w.reader.event) ""
      let places := w'.slots c.collectors
      if c.hasChildren then
        andThen (enter c (w.reader.event == .objectStart) w') fun w'' =>
          (.ok (), w''.fill places (w''.textOf ⟨w.reader.valueStart, w''.reader.position⟩))
      else w'.passOver fun s w => w.fill places (w.textOf s)
    else (.ok (), w.record c.collectors (scalarOf w.reader.event) (w.textOf w.reader.span))

theorem skip_eq_passOver (w : Walk) :
    (w.skip.1.map fun _ => (), w.skip.2) = w.passOver fun _ w => w := by
  rw [passOver]
  obtain ⟨a, w'⟩ := w.skip
  cases a <;> rfl

theorem inside_succ (fuel : Nat) (n : Tree) (o : Bool) (i : Nat) (w : Walk) :
    inside (fuel + 1) n o i w =
      let w := { w with reader := w.reader.next }
      if w.reader.event.isLast then (.error w.reader.fault, w)
      else if w.reader.event.isEnd then (.ok (), w)
      else andThen (visit (inside fuel · · 0 ·) n o i w) (inside fuel n o (i + 1)) := by
  rw [inside]
  simp only [skip_eq_passOver]
  rfl

theorem document_eq (root : Tree) (w : Walk) :
    document root w =
      let w := { w with reader := w.reader.next }
      if w.reader.event = .eof then (.ok (), w)
      else if w.reader.event = .error then (.error w.reader.fault, w)
      else
        andThen
          (if w.reader.event.isStart then
            if root.hasChildren then
              inside (w.reader.input.length + 2) root (w.reader.event == .objectStart) 0 w
            else w.passOver fun _ w => w
          else (.ok (), w))
          fun w =>
            let w := { w with reader := w.reader.next }
            if w.reader.event = .error then (.error w.reader.fault, w) else (.ok (), w) := by
  rw [document]
  simp only [skip_eq_passOver]

/-! ### Coming out of containers -/

theorem leaves_andThen {mid : List Frame} {p : Except ReadError Unit × Walk}
    {k : Walk → Except ReadError Unit × Walk} (hf : r.failure = none)
    (h : r.Leaves depth mid p.1 p.2.reader)
    (hk : ∀ read rest, p.2.reader.Stands depth read rest mid →
      rest.length ≤ r.cursor.rest.length →
      p.2.reader.Leaves depth outer (k p.2).1 (k p.2).2.reader) :
    r.Leaves depth outer (andThen p k).1 (andThen p k).2.reader := by
  obtain ⟨a, w⟩ := p
  generalize hr : w.reader = r' at h
  cases h with
  | out a onward stands =>
    have hlen := onward.length hf
    rw [stands.cursor] at hlen
    subst hr
    apply Reader.Leaves.after onward
    exact hk _ _ stands (by simp only at hlen; omega)
  | @fault n r' onward event =>
    show r.Leaves depth outer (.error r'.next.fault) w.reader
    rw [hr]
    exact .fault onward event

theorem leaves_passOver {done : Span → Walk → Walk}
    (h : w.reader.Stands depth read rest (f :: outer)) (he : w.reader.event.isStart = true)
    (hd : ∀ s w, (done s w).reader = w.reader) :
    w.reader.Leaves depth outer (w.passOver done).1 (w.passOver done).2.reader := by
  have hskip := Reader.leaves_skip h he
  rw [passOver, skip]
  generalize w.reader.skip = p at hskip
  obtain ⟨a, r⟩ := p
  cases a with
  | error e => exact hskip.map fun _ => ()
  | ok s =>
    show w.reader.Leaves depth outer (.ok ()) (done s _).reader
    rw [hd]
    exact hskip.map fun _ => ()

theorem leaves_visit_token (h : w.reader.Stands depth read rest outer)
    (he : w.reader.event.isStart = false) :
    w.reader.Leaves depth outer (visit enter n o i w).1 (visit enter n o i w).2.reader := by
  rw [visit, he]
  split
  · exact .out () .here h
  · exact .out () .here h

theorem leaves_visit_open (h : w.reader.Stands depth read rest (f :: outer))
    (he : w.reader.event.isStart = true)
    (hk : ∀ (c : Tree) (o : Bool) (w' : Walk), w'.reader = w.reader →
      w.reader.Leaves depth outer (enter c o w').1 (enter c o w').2.reader) :
    w.reader.Leaves depth outer (visit enter n o i w).1 (visit enter n o i w).2.reader := by
  rw [visit, he, if_pos rfl]
  split
  · exact leaves_passOver h he fun _ _ => rfl
  · rename_i c _
    simp only [↓reduceIte]
    split
    · refine leaves_andThen h.failure (hk _ _ _ rfl) ?_
      intro read rest hs _
      exact .out () .here hs
    · exact leaves_passOver (w := w.record c.collectors (scalarOf w.reader.event) "") h he
        fun _ _ => rfl

/-- A pass through a container comes out of it, or to the fault that stands in the way. -/
theorem leaves_inside (h : w.reader.Stands depth read rest (f :: outer))
    (hf : rest.length < fuel) :
    w.reader.Leaves depth outer (inside fuel n o i w).1 (inside fuel n o i w).2.reader := by
  induction fuel generalizing n o i w read rest f outer with
  | zero => omega
  | succ fuel ih =>
    obtain ⟨b, s⟩ := f
    rw [inside_succ]
    simp only
    by_cases hfail : w.reader.next.failure = none
    · have hlt : w.reader.next.event.isLast = false →
          w.reader.next.cursor.rest.length < fuel := by
        intro hl
        have hlen := Reader.length_next h.failure hl
        rw [h.cursor] at hlen
        simp only at hlen
        omega
      -- What is left of the container is a pass of its own.
      have goOn : w.reader.next.event.isLast = false →
          w.reader.next.Leaves depth (⟨b, true⟩ :: outer)
            (visit (inside fuel · · 0 ·) n o i { w with reader := w.reader.next }).1
            (visit (inside fuel · · 0 ·) n o i { w with reader := w.reader.next }).2.reader →
          let p := andThen (visit (inside fuel · · 0 ·) n o i { w with reader := w.reader.next })
            (inside fuel n o (i + 1))
          w.reader.Leaves depth outer p.1 p.2.reader := by
        intro hl hvisit
        refine (leaves_andThen hfail hvisit ?_).after (.next .here hl)
        intro read' rest' hs hlen
        exact ih hs (by have := hlt hl; omega)
      rcases Reader.next_cases h hfail with ⟨sp, rest', -, hs, he⟩ | ⟨l, t, rest', -, hs, hm⟩ |
        ⟨l, k, rest', -, -, hs, hm⟩
      · have hl : w.reader.next.event.isLast = false := he ▸ endEvent_not_last b
        rw [if_neg (by simp [hl]), if_pos (by rw [he, isEnd_endEvent])]
        exact .out () (.next .here hl) hs
      · have hl : w.reader.next.event.isLast = false := hm.event ▸ t.event_not_last
        rw [if_neg (by simp [hl]), if_neg (by simp [hm.event, t.event_not_end])]
        apply goOn hl
        exact leaves_visit_token (w := { w with reader := w.reader.next }) hs
          (by rw [hm.event, t.event_not_start])
      · have hl : w.reader.next.event.isLast = false := hm.event ▸ startEvent_not_last k
        rw [if_neg (by simp [hl]), if_neg (by simp [hm.event, isEnd_startEvent])]
        apply goOn hl
        refine leaves_visit_open (w := { w with reader := w.reader.next }) hs
          (by rw [hm.event, isStart_startEvent]) ?_
        intro c o w' hw'
        have hlen := hlt hl
        rw [hs.cursor] at hlen
        have hw : w'.reader = w.reader.next := hw'
        have hleave := ih (n := c) (o := o) (i := 0) (w := w') (by rwa [hw]) hlen
        rwa [hw] at hleave
    · have hev : w.reader.next.event = .error :=
        (Reader.sound_next h.failure).resolve_left hfail
      rw [if_pos (by rw [hev]; rfl)]
      exact .fault .here hev

/-! ### To the end of a text -/

/-- A reader started on a text has come to its last token, with the answer that belongs to it. -/
structure Completes (r : Reader) (p : Except ReadError Unit × Walk) (n : Nat) : Prop where
  ends : r.Ends n
  reader : ∃ k, p.2.reader = { Reader.next^[n] r with skipped := k }
  answer : p.1 = (Reader.next^[n] r).outcome

theorem completes_of_onward {r' : Reader} {p : Except ReadError Unit × Walk} {m : Nat}
    (h : r.Onward m r') (hf : r.failure = none) (hl : r'.next.event.isLast = true)
    (hr : p.2.reader = r'.next) (ha : p.1 = r'.next.outcome) : Completes r p (m + 1) := by
  obtain ⟨hends, k, hk⟩ := h.ends hf hl
  refine ⟨hends, ⟨k, hr.trans hk⟩, ?_⟩
  rw [ha, hk]
  rfl

/-- What follows the value of a text is read after it. -/
theorem completes_of_leaves {p : Except ReadError Unit × Walk} {r' : Reader} {m : Nat}
    (hf : r.failure = none) (h : r.Onward m r') (hp : r'.Leaves depth [] p.1 p.2.reader) :
    ∃ m', Completes r
      (andThen p fun w =>
        let w := { w with reader := w.reader.next }
        if w.reader.event = .error then (.error w.reader.fault, w) else (.ok (), w)) m' := by
  obtain ⟨a, w⟩ := p
  generalize hr : w.reader = r'' at hp
  cases hp with
  | out a onward stands =>
    subst hr
    have hl := Reader.isLast_next_of_stands stands
    rcases Reader.eof_or_error hl with he | he
    · refine ⟨_, completes_of_onward (h.trans onward) hf hl ?_ ?_⟩
      · simp [andThen, he]
      · simp [andThen, Reader.outcome, he]
    · refine ⟨_, completes_of_onward (h.trans onward) hf hl ?_ ?_⟩
      · simp [andThen, he]
      · simp [andThen, Reader.outcome, he]
  | fault onward event =>
    refine ⟨_, completes_of_onward (h.trans onward) hf (by rw [event]; rfl) hr ?_⟩
    simp [andThen, Reader.outcome, event]

theorem completes_document (root : Tree) (depth : Nat) (input : Bytes) (results : List Matches) :
    ∃ n, Completes (.ofBytes depth input) (document root ⟨.ofBytes depth input, results⟩) n := by
  rw [document_eq]
  simp only
  let r := Reader.ofBytes depth input
  by_cases hl : r.next.event.isLast = true
  · rcases Reader.eof_or_error hl with he | he
    · refine ⟨1, completes_of_onward .here rfl hl ?_ ?_⟩
      · rw [if_pos he]
      · rw [if_pos he, Reader.outcome, if_pos he]
    · have he' : r.next.event ≠ .eof := by simp [he]
      refine ⟨1, completes_of_onward .here rfl hl ?_ ?_⟩
      · rw [if_neg he', if_pos he]
      · rw [if_neg he', if_pos he, Reader.outcome, if_neg he']
  · rw [Bool.not_eq_true] at hl
    have hone : r.Onward 1 r.next := .next .here hl
    have hf := hone.failure rfl
    rw [if_neg (by intro he; simp [r, he, Event.isLast] at hl),
      if_neg (by intro he; simp [r, he, Event.isLast] at hl)]
    apply completes_of_leaves rfl hone
    rcases Reader.next_first_cases hf with ⟨sp, rfl⟩ | ⟨sp, t, rest, hin, hs, hm⟩ |
      ⟨sp, k, rest, hin, hs, hm⟩
    · rw [Reader.next_empty sp] at hl
      simp [Event.isLast] at hl
    · rw [if_neg (by simp [hm.event, t.event_not_start])]
      exact .out () .here hs
    · rw [if_pos (by rw [hm.event, isStart_startEvent])]
      split
      · have hinput : r.next.input = input := by rw [hs.input, hin]; simp
        refine leaves_inside (w := ⟨r.next, results⟩) hs ?_
        rw [show (Walk.mk r.next results).reader.input = input from hinput, hin]
        simp only [List.length_append, List.length_cons]
        omega
      · exact leaves_passOver (w := ⟨r.next, results⟩) hs (by rw [hm.event, isStart_startEvent])
          fun _ _ => rfl

end Walk

namespace Selector

/-- A selection accepts what a plain pass accepts, with the same fault where it does not, and comes
through as many tokens. -/
theorem select_reads (s : Selector) (input : Bytes) :
    let limit := if s.maxDepth = 0 then 512 else s.maxDepth
    (∃ n, (Reader.ofBytes limit input).Ends n ∧ (s.select input).2.eventsRead = n) ∧
      match Document.read limit input with
      | .ok _ => (s.select input).1 = .ok () ∧ (s.select input).2.failure = none
      | .error e => (s.select input).1 = .error e ∧ (s.select input).2.failure = some e ∧
          (s.select input).2.results = s.results.map fun _ => Matches.empty := by
  intro limit
  have hlimit : s.depthLimit = limit := rfl
  let r := Reader.ofBytes limit input
  obtain ⟨n, hends, ⟨k, hreader⟩, hanswer⟩ :=
    Walk.completes_document s.tree.root limit input s.cleared
  have hcount : (Reader.next^[n] r).eventsRead = n := (hends.eventsRead rfl).trans (Nat.zero_add n)
  rw [← Document.read_outcome hends] at hanswer
  rw [select, hlimit]
  generalize Walk.document s.tree.root ⟨r, s.cleared⟩ = p at hreader hanswer
  obtain ⟨answer, w⟩ := p
  simp only at hreader hanswer
  have hread : w.reader.eventsRead = n := by rw [hreader]; exact hcount
  cases hd : Document.read limit input with
  | ok d =>
    rw [hd] at hanswer
    subst hanswer
    exact ⟨⟨n, hends, hread⟩, rfl, rfl⟩
  | error e =>
    rw [hd] at hanswer
    subst hanswer
    exact ⟨⟨n, hends, hread⟩, rfl, rfl, rfl⟩

end Selector

end Quarry
