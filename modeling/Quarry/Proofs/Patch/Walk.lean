import Quarry.Proofs.Patch.Member

/-!
The one pass over a text writes what the edits of the tree make of it.
-/

namespace Quarry

open Json Json.Reader Text

namespace Patch

theorem editMember_none {V : Type} (payload : Bytes → Option V) (o : Bool) (k : String) (v : V)
    (entered : List (String × Node) → Option V) (left : List (String × Node)) :
    editMember payload o k v entered (fun _ => none) left = none := by
  rw [editMember]
  cases Node.takeChild k left with
  | none => rfl
  | some c =>
    obtain ⟨n, left'⟩ := c
    simp only
    cases n.edit with
    | none => simp
    | some e =>
      simp only
      cases e.outcome o with
      | none => rfl
      | some out => cases out <;> simp

namespace Splice

variable {depth fuel i : Nat} {read rest : Bytes} {outer : List Frame} {o s st : Bool}
  {ws : List Bool} {r : Reader} {w : Writer} {left : List (String × Node)} {P : Error → Prop}

/-! ### Entering a value -/

theorem fails_enter_token (hP : ∀ e : Error, e.Unfit → P e) {t : Token} (he : r.event = t.event)
    (key : Option String) (n : Node) : Fails P (enter fuel key n ⟨r, w⟩) := by
  have hstart := t.event_not_start
  rw [← he] at hstart
  rw [enter, if_neg, if_neg]
  · exact fails_notFound hP _ _
  · intro he
    simp only at he
    simp [he, Event.isStart] at hstart
  · intro he
    simp only at he
    simp [he, Event.isStart] at hstart

theorem enter_open {k : Bool} (he : r.event = startEvent k) (hw : w.started = st :: ws)
    (o : Bool) (key : String) (n : Node) :
    enter fuel (keyFor o key) n ⟨r, w⟩ =
      inside fuel k 0 n.children
        ⟨r, ⟨w.output ++ ((leadFor o st key).text ++ [openByte k]), false :: true :: ws⟩⟩ := by
  have hstart := start_eq hw o k key
  rw [enter]
  simp only [he, write]
  cases k with
  | true =>
    rw [if_pos rfl] at hstart
    rw [if_pos (show startEvent true = .objectStart from rfl), hstart]
  | false =>
    rw [if_neg (by simp)] at hstart
    rw [if_neg (by decide), if_pos (show startEvent false = .arrayStart from rfl), hstart]

/-- A container that is entered is written with what the pass within it wrote. -/
theorem ends_enter {k : Bool} (p : Passage k false) (he : r.event = startEvent k)
    (hw : w.started = st :: ws) (o : Bool) (key : String) (n : Node)
    (hin : Ends P depth read rest outer (true :: ws)
      ((p.edit 0 n.children).map (partsText k false))
      ⟨w.output ++ ((leadFor o st key).text ++ [openByte k]), false :: true :: ws⟩
      (inside fuel k 0 n.children
        ⟨r, ⟨w.output ++ ((leadFor o st key).text ++ [openByte k]), false :: true :: ws⟩⟩)) :
    Ends P depth read rest outer (true :: ws)
      (((p.edit 0 n.children).map fun ps => Spelling.nested k (.ofParts false ps)).map
        fun v => (leadFor o st key).text ++ v.text) w
      (enter fuel (keyFor o key) n ⟨r, w⟩) := by
  rw [enter_open he hw]
  have hall := ends_shift hin
  rw [Option.map_map] at hall ⊢
  simpa [Function.comp_def, Spelling.text, partsText] using hall

/-! ### The rest of a container -/

section

variable {l : Lead o s} {tail : Passage o true} {read' rest' : Bytes}
  {after : List (String × Node) → Option (List (String × Spelling))}

theorem ends_token {t : Token} (hP : ∀ e : Error, e.Unfit → P e)
    (h : r.Stands depth read ((Passage.token l t tail).text ++ rest) (⟨o, s⟩ :: outer))
    (hw : w.started = st :: ws) (hp : ∀ c ∈ left, c.2.Every Edit.Spelled)
    (hafter : ∀ (r' : Reader) (w' : Writer) (st' : Bool) (left' : List (String × Node)),
      r'.Stands depth (read ++ (l.text ++ t.text)) (tail.text ++ rest) (⟨o, true⟩ :: outer) →
      w'.started = st' :: ws → (∀ c ∈ left', c.2.Every Edit.Spelled) →
      Ends P depth read' rest' outer ws ((after left').map (partsText o st')) w'
        (inside fuel o (i + 1) left' ⟨r', w'⟩)) :
    Ends P depth read' rest' outer ws
      ((editMember spelling? o (l.name i) (.token t) (fun _ => none) after left).map
        (partsText o st)) w (inside (fuel + 1) o i left ⟨r, w⟩) := by
  obtain ⟨hstands, hmeets⟩ := h.next_token
  apply ends_member hP (onValue_token hstands hmeets) hmeets.key hw hp
  · intro n hn
    exact fails_enter_token hP hmeets.event _ n
  · intro r' w' st' left' hr' hw' hp'
    exact hafter r' w' st' left' (by simpa [Spelling.text] using hr') hw' hp'

variable {k : Bool} {p : Passage k false}

theorem ends_nested (hP : ∀ e : Error, e.Unfit → P e)
    (h : r.Stands depth read ((Passage.nested l k p tail).text ++ rest) (⟨o, s⟩ :: outer))
    (hd : outer.length + 2 + p.nesting ≤ depth) (hw : w.started = st :: ws)
    (hp : ∀ c ∈ left, c.2.Every Edit.Spelled)
    (hinside : ∀ (cs : List (String × Node)) (w' : Writer),
      r.next.Stands depth (read ++ (l.text ++ [openByte k])) (p.text ++ (tail.text ++ rest))
        (⟨k, false⟩ :: ⟨o, true⟩ :: outer) →
      w'.started = false :: true :: ws → (∀ c ∈ cs, c.2.Every Edit.Spelled) →
      Ends P depth (read ++ (l.text ++ [openByte k]) ++ p.text) (tail.text ++ rest)
        (⟨o, true⟩ :: outer) (true :: ws) ((p.edit 0 cs).map (partsText k false)) w'
        (inside fuel k 0 cs ⟨r.next, w'⟩))
    (hafter : ∀ (r' : Reader) (w' : Writer) (st' : Bool) (left' : List (String × Node)),
      r'.Stands depth (read ++ (l.text ++ [openByte k]) ++ p.text) (tail.text ++ rest)
        (⟨o, true⟩ :: outer) →
      w'.started = st' :: ws → (∀ c ∈ left', c.2.Every Edit.Spelled) →
      Ends P depth read' rest' outer ws ((after left').map (partsText o st')) w'
        (inside fuel o (i + 1) left' ⟨r', w'⟩)) :
    Ends P depth read' rest' outer ws
      ((editMember spelling? o (l.name i) (.nested k p)
        (fun cs => (p.edit 0 cs).map fun ps => .nested k (.ofParts false ps)) after left).map
        (partsText o st)) w (inside (fuel + 1) o i left ⟨r, w⟩) := by
  obtain ⟨hstands, hmeets⟩ := h.next_open (by omega)
  have hv := onValue_open hstands hmeets (by simp only [List.length_cons]; omega)
  apply ends_member hP hv hmeets.key hw hp
  · intro n hn
    apply ends_enter p hmeets.event hw
    simpa [Spelling.text] using hinside n.children _ hstands rfl hn
  · intro r' w' st' left' hr' hw' hp'
    exact hafter r' w' st' left' (by simpa [Spelling.text] using hr') hw' hp'

end

variable (left) in
/-- The pass from inside a container to its end. -/
theorem ends_inside (hP : ∀ e : Error, e.Unfit → P e) (p : Passage o s)
    (h : r.Stands depth read (p.text ++ rest) (⟨o, s⟩ :: outer))
    (hd : outer.length + 1 + p.nesting ≤ depth) (hw : w.started = st :: ws)
    (hp : ∀ c ∈ left, c.2.Every Edit.Spelled) (hf : p.steps ≤ fuel) :
    Ends P depth (read ++ p.text) rest outer ws ((p.edit i left).map (partsText o st)) w
      (inside fuel o i left ⟨r, w⟩) := by
  induction p generalizing r read rest outer w st ws left i fuel with
  | @close o s sp =>
    obtain ⟨fuel, rfl⟩ : ∃ n, fuel = n + 1 := ⟨fuel - 1, by simp only [Passage.steps] at hf; omega⟩
    obtain ⟨hstands, hevent, -⟩ := h.next_close
    have hall := ends_finish (o := o) hP hstands hw hp
    rw [inside]
    simp only [next, hevent, endEvent_not_last, isEnd_endEvent, Bool.false_eq_true, ↓reduceIte]
    exact hall
  | @token o s l t tail ih =>
    obtain ⟨fuel, rfl⟩ : ∃ n, fuel = n + 1 := ⟨fuel - 1, by simp only [Passage.steps] at hf; omega⟩
    rw [Passage.edit]
    refine ends_token hP h hw hp fun r' w' st' left' hr' hw' hp' => ?_
    have hsteps : tail.steps ≤ fuel := by simpa [Passage.steps] using hf
    have htail := ih left' (i := i + 1) hr' hd hw' hp' hsteps
    simpa [Passage.text] using htail
  | @nested o s l k p tail ih1 ih2 =>
    simp only [Passage.steps] at hf
    simp only [Passage.nesting] at hd
    obtain ⟨fuel, rfl⟩ : ∃ n, fuel = n + 1 := ⟨fuel - 1, by omega⟩
    rw [Passage.edit]
    refine ends_nested hP h (by omega) hw hp (fun cs w' hs hw' hcs => ?_)
      fun r' w' st' left' hr' hw' hp' => ?_
    · exact ih1 cs (i := 0) hs (by simp only [List.length_cons]; omega) hw' hcs (by omega)
    · have hsteps : tail.steps ≤ fuel := by omega
      have htail := ih2 left' (i := i + 1) hr' (by omega) hw' hp' hsteps
      simpa [Passage.text] using htail

/-! ### Texts nested too deep -/

theorem fails_pass_deep {k : Bool} {p : Passage k false}
    (hs : r.Stands depth (read ++ [openByte k]) (p.text ++ rest) (⟨k, false⟩ :: outer))
    (he : r.event = startEvent k) (hd : depth < outer.length + 1 + p.nesting) (w : Writer) :
    ∃ e s, pass ⟨r, w⟩ = (.error e, s) := by
  obtain ⟨e, r', hskip⟩ := skip_deep hs he hd
  refine ⟨.read e, ⟨r', w⟩, ?_⟩
  rw [pass]
  simp only [he, isStart_startEvent, ↓reduceIte, hskip]

/-- A value that is nested too deep is not passed over, so it has to be entered, where the pass
fails as well. -/
theorem fails_nested_deep {l : Lead o s} {k : Bool} {p : Passage k false} {tail : Passage o true}
    (h : r.Stands depth read ((Passage.nested l k p tail).text ++ rest) (⟨o, s⟩ :: outer))
    (hopen : outer.length + 1 < depth) (hd : depth < outer.length + 2 + p.nesting)
    (hw : w.started = st :: ws) (hp : ∀ c ∈ left, c.2.Every Edit.Spelled)
    (hinside : ∀ (cs : List (String × Node)) (w' : Writer),
      r.next.Stands depth (read ++ (l.text ++ [openByte k])) (p.text ++ (tail.text ++ rest))
        (⟨k, false⟩ :: ⟨o, true⟩ :: outer) →
      w'.started = false :: true :: ws → (∀ c ∈ cs, c.2.Every Edit.Spelled) →
      Fails (fun _ => True) (inside fuel k 0 cs ⟨r.next, w'⟩)) :
    Fails (fun _ => True) (inside (fuel + 1) o i left ⟨r, w⟩) := by
  obtain ⟨hstands, hmeets⟩ := h.next_open hopen
  have hs : r.next.Stands depth ((read ++ l.text) ++ [openByte k]) (p.text ++ (tail.text ++ rest))
      (⟨k, false⟩ :: ⟨o, true⟩ :: outer) := by
    simpa using hstands
  obtain ⟨e, s', hpass⟩ :=
    fails_pass_deep hs hmeets.event (by simp only [List.length_cons]; omega) w
  have hlast : r.next.event.isLast = false := hmeets.event ▸ startEvent_not_last k
  have hend : r.next.event.isEnd = false := hmeets.event ▸ isEnd_startEvent k
  rw [inside_value hlast hend hmeets.key]
  cases ht : Node.takeChild (l.name i) left with
  | none =>
    simp only [copyValue, hpass]
    exact ⟨_, _, rfl, trivial⟩
  | some c =>
    obtain ⟨n, left'⟩ := c
    obtain ⟨hmem, -⟩ := Node.mem_of_takeChild ht
    apply Fails.andThen
    cases n.edit with
    | none =>
      simp only
      rw [enter_open hmeets.event hw]
      exact hinside n.children _ hstands rfl (hp _ hmem).children
    | some e =>
      simp only [change, replaceValue, dropValue, hpass]
      cases e.outcome o with
      | none => exact ⟨_, _, rfl, trivial⟩
      | some out => cases out <;> exact ⟨_, _, rfl, trivial⟩

/-- The pass does not get through a container with too deep a value in it. -/
theorem fails_inside_deep (p : Passage o s) (left : List (String × Node))
    (h : r.Stands depth read (p.text ++ rest) (⟨o, s⟩ :: outer))
    (hd : depth < outer.length + 1 + p.nesting) (hw : w.started = st :: ws)
    (hp : ∀ c ∈ left, c.2.Every Edit.Spelled) (hf : p.steps ≤ fuel) :
    Fails (fun _ => True) (inside fuel o i left ⟨r, w⟩) := by
  induction p generalizing r read rest outer w st ws left i fuel with
  | close sp =>
    have hfits := h.fits
    simp only [Passage.nesting, List.length_cons] at hd hfits
    omega
  | @token o s l t tail ih =>
    obtain ⟨fuel, rfl⟩ : ∃ n, fuel = n + 1 := ⟨fuel - 1, by simp only [Passage.steps] at hf; omega⟩
    have hsteps : tail.steps ≤ fuel := by simpa [Passage.steps] using hf
    have hall : Ends (fun _ => True) depth read rest outer ws
        ((editMember spelling? o (l.name i) (.token t) (fun _ => none) (fun _ => none) left).map
          (partsText o st)) w (inside (fuel + 1) o i left ⟨r, w⟩) :=
      ends_token (fun _ _ => trivial) h hw hp fun r' w' st' left' hr' hw' hp' =>
        ih left' hr' hd hw' hp' hsteps
    rw [editMember_none] at hall
    exact hall
  | @nested o s l k p tail ih1 ih2 =>
    simp only [Passage.nesting] at hd
    simp only [Passage.steps] at hf
    obtain ⟨fuel, rfl⟩ : ∃ n, fuel = n + 1 := ⟨fuel - 1, by omega⟩
    by_cases hopen : depth ≤ outer.length + 1
    · obtain ⟨hevent, -⟩ := failure_next_deep l k hopen h.inside
      rw [inside]
      simp only [next, hevent]
      exact ⟨_, _, rfl, trivial⟩
    by_cases hin : depth < outer.length + 2 + p.nesting
    · refine fails_nested_deep h (by omega) hin hw hp fun cs w' hs hw' hcs => ?_
      exact ih1 cs hs (by simp only [List.length_cons]; omega) hw' hcs (by omega)
    · -- What is too deep comes after this value.
      have hall : Ends (fun _ => True) depth read rest outer ws
          ((editMember spelling? o (l.name i) (.nested k p)
            (fun cs => (p.edit 0 cs).map fun ps => .nested k (.ofParts false ps))
            (fun _ => none) left).map (partsText o st)) w (inside (fuel + 1) o i left ⟨r, w⟩) :=
        ends_nested (fun _ _ => trivial) h (by omega) hw hp
          (fun cs w' hs hw' hcs => ends_inside cs (fun _ _ => trivial) p hs
            (by simp only [List.length_cons]; omega) hw' hcs (by omega))
          fun r' w' st' left' hr' hw' hp' => ih2 left' hr' (by omega) hw' hp' (by omega)
      rw [editMember_none] at hall
      exact hall

end Splice

end Patch

end Quarry
