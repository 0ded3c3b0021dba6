import Quarry.Proofs.Document.Outcome
import Quarry.Proofs.Patch.Merging

/-!
A pass that succeeds has come through the whole of an accepted text.
-/

namespace Quarry

open Json Text

namespace Json.Reader

/-- A reader on the first token of a value in some containers. -/
inductive AtValue (r : Reader) (depth : Nat) (frames : List Frame) : Prop
  | token {read rest : Bytes} (start : r.event.isStart = false)
      (stands : r.Stands depth read rest frames)
  | opened {read rest : Bytes} {f : Frame} (start : r.event.isStart = true)
      (stands : r.Stands depth read rest (f :: frames))

section Within

variable {depth : Nat} {read rest : Bytes} {f : Frame} {outer : List Frame} {r : Reader}

/-- Within a container comes its end or a value. -/
theorem next_within (h : r.Stands depth read rest (f :: outer))
    (hl : r.next.event.isLast = false) :
    (∃ read' rest', r.next.Stands depth read' rest' outer) ∧ r.next.event.isEnd = true ∨
      r.next.AtValue depth (⟨f.isObject, true⟩ :: outer) ∧ r.next.event.isEnd = false := by
  obtain ⟨o, s⟩ := f
  have hf := (sound_next h.failure).failure_eq_none hl
  rcases next_cases h hf with ⟨sp, rest', -, hs, he⟩ | ⟨l, t, rest', -, hs, hm⟩ |
    ⟨l, k, rest', -, -, hs, hm⟩
  · exact .inl ⟨⟨_, _, hs⟩, by rw [he, isEnd_endEvent]⟩
  · right
    rw [hm.event]
    exact ⟨.token (by rw [hm.event, t.event_not_start]) hs, t.event_not_end⟩
  · right
    rw [hm.event]
    exact ⟨.opened (by rw [hm.event, isStart_startEvent]) hs, isEnd_startEvent k⟩

theorem stands_first {input : Bytes} (h : (ofBytes depth input).next.event.isStart = true) :
    ∃ f read rest, (ofBytes depth input).next.Stands depth read rest [f] := by
  have hl : (ofBytes depth input).next.event.isLast = false := by
    cases he : (ofBytes depth input).next.event <;> simp_all [Event.isStart, Event.isLast]
  have hf : (ofBytes depth input).next.failure = none := (sound_next rfl).failure_eq_none hl
  rcases next_first_cases hf with ⟨sp, rfl⟩ | ⟨sp, t, rest, -, -, hm⟩ | ⟨sp, k, rest, -, hs, -⟩
  · rw [next_empty sp] at h
    cases h
  · rw [hm.event, t.event_not_start] at h
    cases h
  · exact ⟨_, _, _, hs⟩

end Within

end Json.Reader

namespace Patch.Splice

variable {depth fuel i : Nat} {read rest : Bytes} {f : Frame} {outer : List Frame} {o : Bool}
  {s s' : Splice} {left : List (String × Node)}

/-! ### Coming out of what the pass goes into -/

theorem andThen_ok {a : Answer} {k : Splice → Answer} (h : andThen a k = (.ok (), s')) :
    ∃ s, a = (.ok (), s) ∧ k s = (.ok (), s') := by
  obtain ⟨x, s⟩ := a
  cases x with
  | ok u => exact ⟨s, rfl, h⟩
  | error e => cases h

theorem leaves_pass {span : Span} (h : s.reader.AtValue depth outer)
    (hok : s.pass = (.ok span, s')) : s.reader.Leaves depth outer (.ok ()) s'.reader := by
  rw [pass] at hok
  cases h with
  | token start stands =>
    rw [start, if_neg (by simp)] at hok
    cases hok
    exact .out () .here stands
  | opened start stands =>
    have hskip := Reader.leaves_skip stands start
    rw [start, if_pos rfl] at hok
    generalize s.reader.skip = p at hok hskip
    obtain ⟨a, r⟩ := p
    cases a with
    | error e => cases hok
    | ok span' =>
      cases hok
      exact hskip.map fun _ => ()

theorem leaves_dropValue (h : s.reader.AtValue depth outer) (hok : s.dropValue = (.ok (), s')) :
    s.reader.Leaves depth outer (.ok ()) s'.reader := by
  rw [dropValue] at hok
  split at hok
  · rename_i span s1 hp
    cases hok
    exact leaves_pass h hp
  · cases hok

theorem leaves_copyValue {key : Option String} (h : s.reader.AtValue depth outer)
    (hok : s.copyValue key = (.ok (), s')) : s.reader.Leaves depth outer (.ok ()) s'.reader := by
  rw [copyValue] at hok
  split at hok
  · rename_i span s1 hp
    have hleave := leaves_pass h hp
    cases hok
    exact hleave
  · cases hok

theorem leaves_change {key : Option String} {e : Edit} (h : s.reader.AtValue depth outer)
    (hok : change o key e s = (.ok (), s')) : s.reader.Leaves depth outer (.ok ()) s'.reader := by
  rw [change] at hok
  split at hok
  · obtain ⟨s1, hdrop, hwrite⟩ := andThen_ok hok
    have hleave := leaves_dropValue h hdrop
    cases hwrite
    exact hleave
  · exact leaves_dropValue h hok
  · cases hok

theorem reader_addMembers (hok : addMembers left s = (.ok (), s')) : s'.reader = s.reader := by
  induction left generalizing s with
  | nil =>
    cases hok
    rfl
  | cons c left ih =>
    obtain ⟨k, n⟩ := c
    rw [addMembers_cons] at hok
    split at hok
    · have heq := ih hok
      exact heq
    · cases hok

theorem reader_finish
    (hok : (if o then s.finishObject left else s.finishArray left) = (.ok (), s')) :
    s'.reader = s.reader := by
  split at hok
  · obtain ⟨s1, hadd, hwrite⟩ := andThen_ok hok
    have heq := reader_addMembers hadd
    cases hwrite
    exact heq
  · unfold finishArray at hok
    split at hok
    · cases hok
      rfl
    · split at hok <;> cases hok

/-- A pass from inside a container comes out of it, if it succeeds. -/
theorem leaves_inside (h : s.reader.Stands depth read rest (f :: outer))
    (hok : inside fuel o i left s = (.ok (), s')) :
    s.reader.Leaves depth outer (.ok ()) s'.reader := by
  induction fuel generalizing o i left s s' read rest f outer with
  | zero => cases hok
  | succ fuel ih =>
    rw [inside_succ] at hok
    simp only at hok
    split at hok
    · cases hok
    rename_i hlast
    have hl : s.reader.next.event.isLast = false := by simpa [next] using hlast
    have hone : s.reader.Onward 1 s.next.reader := .next .here hl
    rcases Reader.next_within h hl with ⟨⟨read', rest', hs⟩, hend⟩ | ⟨hv, hend⟩
    · rw [if_pos (show s.next.reader.event.isEnd = true from hend)] at hok
      rw [reader_finish hok]
      exact .out () hone hs
    · rw [if_neg (by simp [next, hend])] at hok
      have hv : s.next.reader.AtValue depth (⟨f.isObject, true⟩ :: outer) := hv
      -- The pass over the value and the pass from there on both come out.
      have hafter : ∀ {s1 : Splice} {left' : List (String × Node)},
          s.next.reader.Leaves depth (⟨f.isObject, true⟩ :: outer) (.ok ()) s1.reader →
          inside fuel o (i + 1) left' s1 = (.ok (), s') →
          s.reader.Leaves depth outer (.ok ()) s'.reader := by
        intro s1 left' hleave hrest
        generalize hr : s1.reader = r at hleave
        cases hleave with
        | out _ onward stands =>
          subst hr
          exact (ih stands hrest).after (hone.trans onward)
      split at hok
      · obtain ⟨s1, hcopy, hrest⟩ := andThen_ok hok
        exact hafter (leaves_copyValue hv hcopy) hrest
      · rename_i n left' _
        obtain ⟨s1, hmember, hrest⟩ := andThen_ok hok
        split at hmember
        · exact hafter (leaves_change hv hmember) hrest
        · refine hafter ?_ hrest
          rw [enter] at hmember
          cases hv with
          | token start stands =>
            rw [if_neg, if_neg] at hmember
            · cases hmember
            · intro he
              simp [he, Event.isStart] at start
            · intro he
              simp [he, Event.isStart] at start
          | opened start stands =>
            split at hmember
            · exact ih (s := s.next.write _) stands hmember
            · split at hmember
              · exact ih (s := s.next.write _) stands hmember
              · cases hmember

/-- A text that the pass gets through is accepted. -/
theorem read_of_document {root : Node} {input : Bytes} {w : Writer}
    (hok : document root ⟨.ofBytes depth input, w⟩ = (.ok (), s')) :
    ∃ d, Document.read depth input = .ok d := by
  obtain ⟨s1, hvalue, hrest⟩ := andThen_ok hok
  let r := Reader.ofBytes depth input
  have hinside : ∀ {o : Bool} {w' : Writer}, r.next.event = Reader.startEvent o →
      inside (r.next.input.length + 2) o 0 root.children ⟨r.next, w'⟩ = (.ok (), s1) →
      r.Leaves depth [] (.ok ()) s1.reader := by
    intro o w' he hok
    have hstart : (Reader.ofBytes depth input).next.event.isStart = true := by
      rw [show (Reader.ofBytes depth input).next.event = _ from he, Reader.isStart_startEvent]
    obtain ⟨f, read, rest, hs⟩ := Reader.stands_first hstart
    have hl : r.next.event.isLast = false := he ▸ Reader.startEvent_not_last o
    exact (leaves_inside (s := ⟨r.next, w'⟩) hs hok).after (.next .here hl)
  have hleave : r.Leaves depth [] (.ok ()) s1.reader := by
    split at hvalue
    · cases hvalue
    · cases hvalue
    · rename_i he
      exact hinside (o := true) he hvalue
    · rename_i he
      exact hinside (o := false) he hvalue
    · cases hvalue
  generalize hr : s1.reader = r' at hleave
  cases hleave with
  | out _ onward stands =>
    subst hr
    have hlast := Reader.isLast_next_of_stands stands
    rcases Reader.eof_or_error hlast with he | he
    · exact Document.read_of_onward onward he
    · rw [if_pos (show s1.next.reader.event = .error from he)] at hrest
      cases hrest

end Patch.Splice

end Quarry
