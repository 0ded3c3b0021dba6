import Quarry.Proofs.Json.Passage

/-!
Passing over values.
-/

namespace Quarry.Json.Reader

open Text

variable {r : Reader} {depth : Nat} {read rest : Bytes} {outer : List Frame} {o s : Bool}

theorem readUntil_next {target fuel : Nat} (h : r.next.event.isLast = false) :
    readUntil target (fuel + 1) r =
      if r.next.event.isEnd && decide (r.next.stack.length < target) then r.next
      else readUntil target fuel r.next := by
  have herr : r.next.event ≠ .error := by
    intro he
    simp [he, Event.isLast] at h
  have heof : r.next.event ≠ .eof := by
    intro he
    simp [he, Event.isLast] at h
  rw [readUntil]
  simp only [herr, heof, ↓reduceIte]

theorem isEnd_endEvent (o : Bool) : (endEvent o).isEnd = true := by cases o <;> rfl

theorem isEnd_startEvent (o : Bool) : (startEvent o).isEnd = false := by cases o <;> rfl

theorem isStart_startEvent (o : Bool) : (startEvent o).isStart = true := by cases o <;> rfl

theorem readUntil_crosses {p : Passage o s} {r' : Reader}
    (h : Crosses depth p read rest outer r r') {target : Nat} (ht : target ≤ outer.length + 1)
    (fuel : Nat) :
    readUntil target (fuel + p.steps) r =
      if outer.length < target then r' else readUntil target fuel r' := by
  induction h generalizing fuel with
  | close sp stands event =>
    rw [Passage.steps, readUntil_next (event ▸ endEvent_not_last _), event, isEnd_endEvent,
      stands.stack, Bool.true_and]
    simp only [decide_eq_true_eq]
  | token l t tail stands meets onward ih =>
    rw [Passage.steps, ← Nat.add_assoc, readUntil_next (meets.event ▸ t.event_not_last),
      meets.event, t.event_not_end, Bool.false_and, if_neg (by simp), ih ht]
  | nested l k inside tail stands meets fits within onward ih1 ih2 =>
    have hfuel : fuel + (inside.steps + tail.steps + 1) =
        fuel + tail.steps + inside.steps + 1 := by omega
    rw [Passage.steps, hfuel, readUntil_next (meets.event ▸ startEvent_not_last k), meets.event,
      isEnd_startEvent, Bool.false_and, if_neg (by simp),
      ih1 (by simp only [List.length_cons]; omega),
      if_neg (by simp only [List.length_cons]; omega), ih2 ht]

/-- A reader that has read the first token of a value. -/
inductive OnValue (r : Reader) (depth : Nat) (read rest : Bytes) (frames : List Frame) :
    Spelling → Prop
  | token (t : Token) (stands : r.Stands depth (read ++ t.text) rest frames)
      (event : r.event = t.event) (start : r.valueStart = read.length) :
      OnValue r depth read rest frames (.token t)
  | nested (k : Bool) (inside : Passage k false)
      (stands : r.Stands depth (read ++ [openByte k]) (inside.text ++ rest) (⟨k, false⟩ :: frames))
      (event : r.event = startEvent k) (start : r.valueStart = read.length)
      (fits : frames.length + 1 + inside.nesting ≤ depth) :
      OnValue r depth read rest frames (.nested k inside)

theorem onValue_token {t : Token} {lead : Bytes} {key : Option String}
    (hs : r.Stands depth (read ++ (lead ++ t.text)) rest outer)
    (hm : r.Meets t.event key (read ++ lead).length) :
    r.OnValue depth (read ++ lead) rest outer (.token t) :=
  .token t (by simpa using hs) hm.event hm.valueStart

theorem onValue_open {k : Bool} {inside : Passage k false} {lead : Bytes} {key : Option String}
    (hs : r.Stands depth (read ++ (lead ++ [openByte k])) (inside.text ++ rest)
      (⟨k, false⟩ :: outer))
    (hm : r.Meets (startEvent k) key (read ++ lead).length)
    (hd : outer.length + 1 + inside.nesting ≤ depth) :
    r.OnValue depth (read ++ lead) rest outer (.nested k inside) :=
  .nested k inside (by simpa using hs) hm.event hm.valueStart hd

theorem Stands.skipped (h : r.Stands depth read rest outer) (n : Nat) :
    ({ r with skipped := n } : Reader).Stands depth read rest outer :=
  ⟨h.input, h.cursor, h.stack, h.maxDepth, h.failure, h.rootDone, h.fits⟩

theorem skip_nested {k : Bool} {inside : Passage k false}
    (hs : r.Stands depth (read ++ [openByte k]) (inside.text ++ rest) (⟨k, false⟩ :: outer))
    (he : r.event = startEvent k) (hv : r.valueStart = read.length)
    (hd : outer.length + 1 + inside.nesting ≤ depth) :
    ∃ r' : Reader, r'.Stands depth (read ++ openByte k :: inside.text) rest outer ∧
      r.skip = (.ok ⟨read.length, (read ++ openByte k :: inside.text).length⟩, r') := by
  obtain ⟨r', hr', hcrosses⟩ := exists_crosses inside hs hd
  have hsteps := inside.steps_le_length
  obtain ⟨f, hf⟩ : ∃ f, r.cursor.rest.length + 1 = f + inside.steps := by
    refine ⟨r.cursor.rest.length + 1 - inside.steps, ?_⟩
    rw [hs.cursor, List.length_append]
    omega
  have hskip : r.readUntil r.stack.length (r.cursor.rest.length + 1) = r' := by
    rw [hs.stack, List.length_cons, hf, readUntil_crosses hcrosses le_rfl, if_pos (by omega)]
  have hr'' : r'.Stands depth (read ++ openByte k :: inside.text) rest outer := by
    simpa using hr'
  refine ⟨{ r' with skipped := r'.skipped + 1 }, hr''.skipped _, ?_⟩
  rw [skip, he, isStart_startEvent, if_pos rfl, hskip]
  simp only [hr''.failure, hv, position, hr''.cursor]

/-! ### Values nested too deep -/

theorem failure_next_deep (l : Lead o s) (k : Bool) (hd : depth ≤ outer.length + 1)
    (h : r.Stands depth read (l.text ++ openByte k :: rest) (⟨o, s⟩ :: outer)) :
    r.next.event = .error ∧ r.next.failure ≠ none := by
  rw [next_lead l (startsValue_openByte k) h]
  exact readValue_deep rfl (by simpa [h.maxDepth] using hd)

theorem failure_readUntil_deep (p : Passage o s) (target fuel : Nat)
    (h : r.Stands depth read (p.text ++ rest) (⟨o, s⟩ :: outer))
    (hd : depth < outer.length + 1 + p.nesting) (ht : target ≤ outer.length + 1)
    (hf : p.steps ≤ fuel) : (readUntil target fuel r).failure ≠ none := by
  induction p generalizing r read rest outer fuel with
  | @close o s sp =>
    have hfits := h.fits
    simp only [Passage.nesting, List.length_cons] at hd hfits
    omega
  | @token o s l t tail ih =>
    obtain ⟨hstands, hmeets⟩ := h.next_token
    obtain ⟨fuel, rfl⟩ : ∃ n, fuel = n + 1 := ⟨fuel - 1, by simp only [Passage.steps] at hf; omega⟩
    rw [readUntil_next (hmeets.event ▸ t.event_not_last), hmeets.event, t.event_not_end,
      Bool.false_and, if_neg (by simp)]
    exact ih fuel hstands hd ht (by simpa [Passage.steps] using hf)
  | @nested o s l k inside tail ih1 ih2 =>
    simp only [Passage.nesting] at hd
    simp only [Passage.steps] at hf
    obtain ⟨fuel, rfl⟩ : ∃ n, fuel = n + 1 := ⟨fuel - 1, by omega⟩
    by_cases hopen : depth ≤ outer.length + 1
    · obtain ⟨hevent, hfail⟩ := failure_next_deep l k hopen h.inside
      rw [readUntil]
      simp only [hevent, ↓reduceIte]
      exact hfail
    · obtain ⟨hstands, hmeets⟩ := h.next_open (by omega)
      rw [readUntil_next (hmeets.event ▸ startEvent_not_last k), hmeets.event, isEnd_startEvent,
        Bool.false_and, if_neg (by simp)]
      by_cases hin : depth < outer.length + 2 + inside.nesting
      · apply ih1 fuel hstands
        · simp only [List.length_cons]
          omega
        · simp only [List.length_cons]
          omega
        · omega
      · obtain ⟨r', hr', hcrosses⟩ := exists_crosses inside hstands
          (by simp only [List.length_cons]; omega)
        obtain ⟨f, rfl⟩ : ∃ f, fuel = f + inside.steps := ⟨fuel - inside.steps, by omega⟩
        rw [readUntil_crosses hcrosses (by simp only [List.length_cons]; omega),
          if_neg (by simp only [List.length_cons]; omega)]
        exact ih2 f hr' (by omega) ht (by omega)

theorem skip_deep {k : Bool} {inside : Passage k false}
    (hs : r.Stands depth (read ++ [openByte k]) (inside.text ++ rest) (⟨k, false⟩ :: outer))
    (he : r.event = startEvent k) (hd : depth < outer.length + 1 + inside.nesting) :
    ∃ e r', r.skip = (.error e, r') := by
  have hsteps := inside.steps_le_length
  have hfail := failure_readUntil_deep inside (outer.length + 1) (r.cursor.rest.length + 1) hs hd
    le_rfl (by rw [hs.cursor, List.length_append]; omega)
  rw [skip, he, isStart_startEvent, if_pos rfl, hs.stack, List.length_cons]
  obtain ⟨e, he⟩ := Option.ne_none_iff_exists'.1 hfail
  simp only [he]
  exact ⟨e, _, rfl⟩

end Quarry.Json.Reader
