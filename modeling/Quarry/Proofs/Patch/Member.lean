import Quarry.Patch.Patcher
import Quarry.Proofs.Document.Printing
import Quarry.Proofs.Json.Skipping
import Quarry.Proofs.Patch.Tree

/-!
What the pass over a text does with one member or element.
-/

namespace Quarry

open Json Json.Reader Text

namespace Patch.Splice

variable {depth : Nat} {read rest : Bytes} {frames : List Frame}

/-- Passing over a value gives the place of its text. -/
theorem pass_onValue {r : Reader} {w : Writer} {v : Spelling}
    (h : r.OnValue depth read rest frames v) :
    ∃ r' : Reader, r'.Stands depth (read ++ v.text) rest frames ∧
      pass ⟨r, w⟩ = (.ok ⟨read.length, (read ++ v.text).length⟩, ⟨r', w⟩) := by
  cases h with
  | token t stands event start =>
    refine ⟨r, stands, ?_⟩
    rw [pass]
    simp only [event, t.event_not_start, Bool.false_eq_true, ↓reduceIte, span, start, position,
      stands.cursor]
    rfl
  | nested k inside stands event start fits =>
    obtain ⟨r', hr', hskip⟩ := skip_nested stands event start fits
    refine ⟨r', hr', ?_⟩
    rw [pass]
    simp only [event, isStart_startEvent, ↓reduceIte, hskip]
    rfl

end Patch.Splice

namespace Json

/-! ### Texts that hold one value -/

open Classical in
/-- A spelling with just this text. -/
noncomputable def spelling? (bs : Bytes) : Option Spelling :=
  if h : ∃ v : Spelling, v.text = bs then some h.choose else none

theorem text_of_spelling? {bs : Bytes} {v : Spelling} (h : spelling? bs = some v) :
    v.text = bs := by
  rw [spelling?] at h
  split at h
  · rename_i hex
    exact Option.some.inj h ▸ hex.choose_spec
  · simp at h

theorem exists_spelling? (v : Spelling) : ∃ v', spelling? v.text = some v' ∧ v'.text = v.text := by
  have hex : ∃ v' : Spelling, v'.text = v.text := ⟨v, rfl⟩
  exact ⟨hex.choose, dif_pos hex, hex.choose_spec⟩

/-! ### Passages written anew -/

/-- The name of a member as it is written; elements have none. -/
def leadFor (o s : Bool) (k : String) : Lead o s := .compact o s (escaping_writer.quoted k)

theorem text_leadFor (o s : Bool) (k : String) : (leadFor o s k).text =
    (if s then [byte ','] else []) ++ if o then stringBytes k ++ [byte ':'] else [] := by
  rw [leadFor, Lead.text_compact, text_quoted_writer]

def Passage.ofParts {o : Bool} : (s : Bool) → List (String × Spelling) → Passage o s
  | _, [] => .close Space.none
  | s, (k, v) :: ps => .cons (leadFor o s k) v (ofParts true ps)

/-- What the edits of a tree make of the rest of a container. -/
noncomputable def Passage.edit : {o s : Bool} → Passage o s → Nat →
    List (String × Patch.Node) → Option (List (String × Spelling))
  | o, _, .close _, _, left => Patch.appended spelling? o left
  | o, _, .token l t rest, i, left =>
    Patch.editMember spelling? o (l.name i) (.token t) (fun _ => none) (rest.edit (i + 1)) left
  | o, _, .nested l k inside rest, i, left =>
    Patch.editMember spelling? o (l.name i) (.nested k inside)
      (fun cs => (inside.edit 0 cs).map fun ps => .nested k (ofParts false ps))
      (rest.edit (i + 1)) left

end Json

namespace Patch

/-- What the edit puts in place is the text of one value. -/
def Edit.Spelled (e : Edit) : Prop := ∀ bs, e.value? = some bs → ∃ v : Spelling, v.text = bs

/-- The edits of a patch do not suit the text. -/
def Error.Unfit : Error → Prop
  | .notFound _ => True
  | .unsupported _ _ => True
  | _ => False

/-! ### Writing -/

section Writing

variable {w : Writer} {st : Bool} {ws : List Bool}

def keyFor (o : Bool) (k : String) : Option String := if o then some k else none

theorem key_leadFor (o s : Bool) (k : String) : (leadFor o s k).key = keyFor o k := by
  cases o <;> rfl

theorem lead_eq (h : w.started = st :: ws) (o : Bool) (k : String) :
    w.lead (keyFor o k) = ⟨w.output ++ (leadFor o st k).text, true :: ws⟩ := by
  unfold Writer.lead
  rw [text_leadFor, h]
  cases o <;> cases st <;> simp [keyFor]

theorem raw_eq (h : w.started = st :: ws) (o : Bool) (k : String) (bs : Bytes) :
    w.raw (keyFor o k) bs = ⟨w.output ++ ((leadFor o st k).text ++ bs), true :: ws⟩ := by
  rw [Writer.raw, lead_eq h, Writer.put, List.append_assoc]

theorem start_eq (h : w.started = st :: ws) (o kind : Bool) (k : String) :
    (if kind then Writer.objectStart (keyFor o k) w else Writer.arrayStart (keyFor o k) w) =
      ⟨w.output ++ ((leadFor o st k).text ++ [openByte kind]), false :: true :: ws⟩ := by
  cases kind with
  | true =>
    rw [if_pos rfl, Writer.objectStart, Writer.start, lead_eq h, Writer.put, List.append_assoc]
    rfl
  | false =>
    rw [if_neg (by simp), Writer.arrayStart, Writer.start, lead_eq h, Writer.put,
      List.append_assoc]
    rfl

theorem finish_eq (h : w.started = st :: ws) (o : Bool) :
    (if o then Writer.objectEnd w else Writer.arrayEnd w) =
      ⟨w.output ++ [closeByte o], ws⟩ := by
  cases o with
  | true =>
    rw [if_pos rfl, Writer.objectEnd, Writer.finish, h]
    rfl
  | false =>
    rw [if_neg (by simp), Writer.arrayEnd, Writer.finish, h]
    rfl

end Writing

/-- What an edit writes is its value. -/
theorem Edit.value?_of_outcome {o : Bool} {e : Edit} {bs : Bytes}
    (h : e.outcome o = some (some bs)) : e.value? = some bs := by
  obtain ⟨kind, path, payload⟩ := e
  cases kind with
  | replace => exact Option.some.inj h
  | add =>
    cases o with
    | true => exact Option.some.inj h
    | false => cases h
  | remove => cases o <;> cases h

namespace Splice

/-- A pass that fails in one of some ways. -/
def Fails (P : Error → Prop) (a : Answer) : Prop := ∃ e s, a = (.error e, s) ∧ P e

/-- A pass that comes to some place and has written some bytes, or fails. -/
def Ends (P : Error → Prop) (depth : Nat) (read rest : Bytes) (frames : List Frame) (started : List Bool)
    (written : Option Bytes) (w : Writer) (a : Answer) : Prop :=
  match written with
  | some bs => ∃ r : Reader, r.Stands depth read rest frames ∧
      a = (.ok (), ⟨r, ⟨w.output ++ bs, started⟩⟩)
  | none => Fails P a

variable {depth fuel i : Nat} {read rest : Bytes} {outer : List Frame} {o s st : Bool}
  {ws : List Bool} {r : Reader} {w : Writer} {left : List (String × Node)} {P : Error → Prop}

theorem fails_notFound (hP : ∀ e : Error, e.Unfit → P e) (path : String) (s : Splice) :
    Fails P (s.fail (.notFound path)) :=
  ⟨_, s, rfl, hP _ trivial⟩

theorem fails_unsupported (hP : ∀ e : Error, e.Unfit → P e) (path op : String) (s : Splice) :
    Fails P (s.fail (.unsupported path op)) :=
  ⟨_, s, rfl, hP _ trivial⟩

theorem Fails.andThen {a : Answer} (h : Fails P a) (k : Splice → Answer) :
    Fails P (andThen a k) := by
  obtain ⟨e, s, rfl, he⟩ := h
  exact ⟨e, s, rfl, he⟩

theorem ends_shift {a : Answer} {bs : Bytes} {written : Option Bytes} {started : List Bool}
    (h : Ends P depth read rest outer ws written ⟨w.output ++ bs, started⟩ a) :
    Ends P depth read rest outer ws (written.map (bs ++ ·)) w a := by
  cases written with
  | none => exact h
  | some cs =>
    obtain ⟨r', hr', rfl⟩ := h
    exact ⟨r', hr', by rw [List.append_assoc]⟩

theorem ends_andThen {a : Answer} {k : Splice → Answer} {read' rest' bs : Bytes}
    {outer' : List Frame} {ws' : List Bool} {written : Option Bytes}
    (h : Ends P depth read rest outer ws (some bs) w a)
    (hk : ∀ r : Reader, r.Stands depth read rest outer →
      Ends P depth read' rest' outer' ws' written ⟨w.output ++ bs, ws⟩
        (k ⟨r, ⟨w.output ++ bs, ws⟩⟩)) :
    Ends P depth read' rest' outer' ws' (written.map (bs ++ ·)) w (andThen a k) := by
  obtain ⟨r, hr, rfl⟩ := h
  exact ends_shift (hk r hr)

/-! ### The end of a container -/

def partsText (o st : Bool) (ps : List (String × Spelling)) : Bytes :=
  (Passage.ofParts st ps : Passage o st).text

theorem partsText_cons (o st : Bool) (k : String) (v : Spelling) (ps : List (String × Spelling)) :
    partsText o st ((k, v) :: ps) =
      (leadFor o st k).text ++ (v.text ++ partsText o true ps) := by
  rw [partsText, Passage.ofParts, Passage.text_cons]
  rfl

/-- The text of a member comes before that of those after it. -/
theorem map_partsText_cons (o st : Bool) (k : String) (v : Spelling)
    (x : Option (List (String × Spelling))) :
    (x.bind fun ps => some ((k, v) :: ps)).map (partsText o st) =
      (x.map (partsText o true)).map ((leadFor o st k).text ++ v.text ++ ·) := by
  cases x with
  | none => rfl
  | some ps => simp [partsText_cons]

theorem addMembers_cons (k : String) (n : Node) (s : Splice) :
    addMembers ((k, n) :: left) s =
      match n.edit.bind Edit.value? with
      | some bs => addMembers left (s.write (Writer.raw (some k) bs))
      | none => s.fail (.notFound n.firstTarget) := by
  rw [addMembers]
  cases n.edit with
  | none => rfl
  | some e =>
    obtain ⟨kind, path, bs⟩ := e
    cases kind <;> rfl

theorem ends_finishObject (hP : ∀ e : Error, e.Unfit → P e)
    (hr : r.Stands depth read rest outer) (hw : w.started = st :: ws)
    (hp : ∀ c ∈ left, c.2.Every Edit.Spelled) :
    Ends P depth read rest outer ws ((appended spelling? true left).map (partsText true st)) w
      (finishObject left ⟨r, w⟩) := by
  induction left generalizing w st with
  | nil =>
    have hend := finish_eq hw true
    rw [if_pos rfl] at hend
    refine ⟨r, hr, ?_⟩
    rw [finishObject, addMembers, andThen]
    simp only [write, hend]
    rfl
  | cons c left ih =>
    obtain ⟨k, n⟩ := c
    have hp' : ∀ c ∈ left, c.2.Every Edit.Spelled := fun c hc => hp c (List.mem_cons_of_mem _ hc)
    rw [finishObject, addMembers_cons, appended, if_pos rfl]
    cases he : n.edit with
    | none => exact (fails_notFound hP _ _).andThen _
    | some e =>
      simp only [Option.bind_some, Option.bind_eq_bind]
      cases hv : e.value? with
      | none => exact (fails_notFound hP _ _).andThen _
      | some bs =>
        obtain ⟨v, rfl⟩ := (hp _ List.mem_cons_self).edit he bs hv
        obtain ⟨v', hv', htext⟩ := exists_spelling? v
        have hraw := raw_eq hw true k v.text
        have hnext := ends_shift (ih (w := ⟨w.output ++ ((leadFor true st k).text ++ v.text),
          true :: ws⟩) rfl hp')
        rw [← htext, ← map_partsText_cons, htext, ← hraw] at hnext
        simp only [Option.bind_some, hv']
        exact hnext

theorem ends_finish (hP : ∀ e : Error, e.Unfit → P e)
    (hr : r.Stands depth read rest outer) (hw : w.started = st :: ws)
    (hp : ∀ c ∈ left, c.2.Every Edit.Spelled) :
    Ends P depth read rest outer ws ((appended spelling? o left).map (partsText o st)) w
      (if o then finishObject left ⟨r, w⟩ else finishArray left ⟨r, w⟩) := by
  cases o with
  | true => exact ends_finishObject hP hr hw hp
  | false =>
    cases left with
    | nil =>
      have hend := finish_eq hw false
      rw [if_neg (by simp)] at hend
      refine ⟨r, hr, ?_⟩
      rw [if_neg (by simp), finishArray]
      simp only [write, hend]
      rfl
    | cons c left =>
      obtain ⟨k, n⟩ := c
      rw [appended, if_neg (by simp), if_neg (by simp), finishArray]
      cases n.edit with
      | none => exact fails_notFound hP _ _
      | some e =>
        obtain ⟨kind, path, bs⟩ := e
        cases kind with
        | replace => exact fails_notFound hP _ _
        | add => exact fails_unsupported hP _ _ _
        | remove => exact fails_unsupported hP _ _ _

/-! ### One member or element -/

/-- The pass within a value that has edits below it. -/
def enter (fuel : Nat) (key : Option String) (n : Node) (s : Splice) : Answer :=
  if s.reader.event = .objectStart then
    inside fuel true 0 n.children (s.write (Writer.objectStart key))
  else if s.reader.event = .arrayStart then
    inside fuel false 0 n.children (s.write (Writer.arrayStart key))
  else s.fail (.notFound n.firstTarget)

/-- The pass over a value that has an edit. -/
def change (o : Bool) (key : Option String) (e : Edit) (s : Splice) : Answer :=
  match e.outcome o with
  | some (some bs) => s.replaceValue key bs
  | some none => s.dropValue
  | none => s.fail (.unsupported e.path e.kind.name)

theorem inside_succ (fuel : Nat) (o : Bool) (i : Nat) (left : List (String × Node)) (s : Splice) :
    inside (fuel + 1) o i left s =
      let s := s.next
      if s.reader.event.isLast then s.fault
      else if s.reader.event.isEnd then if o then s.finishObject left else s.finishArray left
      else
        let name := if o then s.reader.key.getD "" else toString i
        match Node.takeChild name left with
        | none => andThen (s.copyValue (keyFor o name)) (inside fuel o (i + 1) left)
        | some (n, left) =>
          andThen
            (match n.edit with
              | some e => change o (keyFor o name) e s
              | none => enter fuel (keyFor o name) n s)
            (inside fuel o (i + 1) left) := by
  rw [inside]
  simp only
  congr 2
  generalize Node.takeChild (if o then s.next.reader.key.getD "" else toString i) left = child
  cases child with
  | none => rfl
  | some c =>
    obtain ⟨n, left⟩ := c
    simp only
    cases n.edit with
    | none => rfl
    | some e =>
      obtain ⟨kind, path, bs⟩ := e
      cases kind <;> cases o <;> rfl

theorem inside_value {l : Lead o s} (hlast : r.next.event.isLast = false)
    (hend : r.next.event.isEnd = false) (hkey : r.next.key = l.key) :
    inside (fuel + 1) o i left ⟨r, w⟩ =
      match Node.takeChild (l.name i) left with
      | none => andThen (copyValue (keyFor o (l.name i)) ⟨r.next, w⟩) (inside fuel o (i + 1) left)
      | some (n, left) =>
        andThen
          (match n.edit with
            | some e => change o (keyFor o (l.name i)) e ⟨r.next, w⟩
            | none => enter fuel (keyFor o (l.name i)) n ⟨r.next, w⟩)
          (inside fuel o (i + 1) left) := by
  have hname : (if o then r.next.key.getD "" else toString i) = l.name i := by
    cases o with
    | true => rw [if_pos rfl, hkey, Json.Lead.name_key l i rfl]
    | false => rw [if_neg (by simp), Json.Lead.name_index]
  rw [inside_succ]
  simp only [next, hlast, hend, hname, Bool.false_eq_true, ↓reduceIte]

section Value

variable {v : Spelling} {frames : List Frame}

theorem ends_copyValue (h : r.OnValue depth read rest frames v) (hw : w.started = st :: ws)
    (o : Bool) (k : String) :
    Ends P depth (read ++ v.text) rest frames (true :: ws)
      (some ((leadFor o st k).text ++ v.text)) w (copyValue (keyFor o k) ⟨r, w⟩) := by
  obtain ⟨r', hr', hpass⟩ := pass_onValue (w := w) h
  refine ⟨r', hr', ?_⟩
  have hinput : r'.input = read ++ (v.text ++ rest) := by rw [hr'.input, List.append_assoc]
  rw [copyValue, hpass]
  simp only [write, hinput, span_of_append, raw_eq hw]

theorem ends_dropValue (h : r.OnValue depth read rest frames v) :
    Ends P depth (read ++ v.text) rest frames w.started (some []) w (dropValue ⟨r, w⟩) := by
  obtain ⟨r', hr', hpass⟩ := pass_onValue (w := w) h
  refine ⟨r', hr', ?_⟩
  rw [dropValue, hpass, List.append_nil]

theorem ends_replaceValue (h : r.OnValue depth read rest frames v) (hw : w.started = st :: ws)
    (o : Bool) (k : String) (bs : Bytes) :
    Ends P depth (read ++ v.text) rest frames (true :: ws)
      (some ((leadFor o st k).text ++ bs)) w (replaceValue (keyFor o k) bs ⟨r, w⟩) := by
  obtain ⟨r', hr', hpass⟩ := pass_onValue (w := w) h
  refine ⟨r', hr', ?_⟩
  rw [replaceValue, dropValue, hpass, andThen]
  simp only [write, raw_eq hw]

theorem event_onValue (h : r.OnValue depth read rest frames v) :
    r.event.isLast = false ∧ r.event.isEnd = false := by
  cases h with
  | token t stands event start =>
    rw [event]
    exact ⟨t.event_not_last, t.event_not_end⟩
  | nested k inside stands event start fits =>
    rw [event]
    exact ⟨startEvent_not_last k, isEnd_startEvent k⟩

/-- One member, given what is done within it and what is done after it. -/
theorem ends_member {l : Lead o s} {entered : List (String × Node) → Option Spelling}
    {after : List (String × Node) → Option (List (String × Spelling))} {read' rest' : Bytes}
    (hP : ∀ e : Error, e.Unfit → P e)
    (hv : r.next.OnValue depth (read ++ l.text) rest (⟨o, true⟩ :: outer) v)
    (hkey : r.next.key = l.key) (hw : w.started = st :: ws)
    (hp : ∀ c ∈ left, c.2.Every Edit.Spelled)
    (henter : ∀ n : Node, (∀ c ∈ n.children, c.2.Every Edit.Spelled) →
      Ends P depth (read ++ l.text ++ v.text) rest (⟨o, true⟩ :: outer) (true :: ws)
        ((entered n.children).map fun v' => (leadFor o st (l.name i)).text ++ v'.text) w
        (enter fuel (keyFor o (l.name i)) n ⟨r.next, w⟩))
    (hafter : ∀ (r' : Reader) (w' : Writer) (st' : Bool) (left' : List (String × Node)),
      r'.Stands depth (read ++ l.text ++ v.text) rest (⟨o, true⟩ :: outer) →
      w'.started = st' :: ws → (∀ c ∈ left', c.2.Every Edit.Spelled) →
      Ends P depth read' rest' outer ws ((after left').map (partsText o st')) w'
        (inside fuel o (i + 1) left' ⟨r', w'⟩)) :
    Ends P depth read' rest' outer ws
      ((editMember spelling? o (l.name i) v entered after left).map (partsText o st)) w
      (inside (fuel + 1) o i left ⟨r, w⟩) := by
  obtain ⟨hlast, hend⟩ := event_onValue hv
  rw [inside_value hlast hend hkey, editMember]
  cases ht : Node.takeChild (l.name i) left with
  | none =>
    simp only
    have hcopy := ends_andThen (ends_copyValue hv hw o (l.name i)) fun r' hr' =>
      hafter r' _ true left hr' rfl hp
    rw [← map_partsText_cons] at hcopy
    cases hq : after left <;> simpa [hq] using hcopy
  | some c =>
    obtain ⟨n, left'⟩ := c
    obtain ⟨hmem, hsub⟩ := Node.mem_of_takeChild ht
    have hn := hp _ hmem
    have hp' : ∀ c ∈ left', c.2.Every Edit.Spelled := fun c hc => hp c (hsub c hc)
    simp only
    cases he : n.edit with
    | none =>
      simp only
      have hin := henter n hn.children
      cases hq : entered n.children with
      | none =>
        rw [hq] at hin
        exact Fails.andThen hin _
      | some v' =>
        rw [hq, Option.map_some] at hin
        have hall := ends_andThen hin fun r' hr' => hafter r' _ true left' hr' rfl hp'
        rw [← map_partsText_cons] at hall
        exact hall
    | some e =>
      simp only
      rw [change]
      cases ho : e.outcome o with
      | none => exact (fails_unsupported hP _ _ _).andThen _
      | some out =>
        cases out with
        | none =>
          have hall := ends_andThen (ends_dropValue (w := w) hv) fun r' hr' =>
            hafter r' _ st left' hr' hw hp'
          simp only [List.nil_append, Option.map_id'] at hall
          exact hall
        | some bs =>
          obtain ⟨v', rfl⟩ := hn.edit he bs (Edit.value?_of_outcome ho)
          obtain ⟨v'', hv'', htext⟩ := exists_spelling? v'
          have hall := ends_andThen (ends_replaceValue hv hw o (l.name i) v'.text) fun r' hr' =>
            hafter r' _ true left' hr' rfl hp'
          rw [← htext, ← map_partsText_cons, htext] at hall
          simp only [hv'']
          exact hall

end Value

end Splice

end Patch

end Quarry
