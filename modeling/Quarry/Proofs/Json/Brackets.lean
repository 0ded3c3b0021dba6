import Mathlib.Algebra.BigOperators.Intervals
import Quarry.Proofs.Json.Progress

/-!
Passing over a container is reading on to the bracket that closes it. Which one does is a matter of
the events alone, as many ends as starts; the reader goes by the containers it has open.
-/

namespace Quarry.Json

open Text

/-- By how many the open containers grow with a token. -/
def Event.weight (e : Event) : Int := if e.isStart then 1 else if e.isEnd then -1 else 0

theorem Token.weight_event (t : Token) : t.event.weight = 0 := by
  rw [Event.weight, t.event_not_start, t.event_not_end, if_neg (by simp), if_neg (by simp)]

namespace Reader

variable {r r' : Reader} {input read rest : Bytes} {depth level n m : Nat} {outer : List Frame}
  {o s k : Bool}

theorem weight_startEvent (k : Bool) : (startEvent k).weight = 1 := by cases k <;> rfl

theorem weight_endEvent (o : Bool) : (endEvent o).weight = -1 := by cases o <;> rfl

theorem startEvent_inj {k k' : Bool} (h : startEvent k = startEvent k') : k = k' := by
  cases k <;> cases k' <;> first | rfl | cases h

theorem ne_startEvent {e : Event} (h : e.isStart = false) (k : Bool) : e ≠ startEvent k := by
  rintro rfl
  rw [isStart_startEvent] at h
  cases h

theorem isStart_endEvent (o : Bool) : (endEvent o).isStart = false := by cases o <;> rfl

/-! ### Where a reader may be -/

/-- Behind the first token of a text, and right behind a bracket that opened a container. -/
def Placed (depth : Nat) (input : Bytes) (r : Reader) : Prop :=
  ∃ read rest frames, input = read ++ rest ∧ r.Stands depth read rest frames ∧
    ∀ k, r.event = startEvent k → ∃ before outer, read = before ++ [openByte k] ∧
      frames = ⟨k, false⟩ :: outer ∧ r.valueStart = before.length

theorem placed_of_not_start {frames : List Frame} (h : r.Stands depth read rest frames)
    (he : r.event.isStart = false) : r.Placed depth (read ++ rest) :=
  ⟨read, rest, frames, rfl, h, fun k hk => absurd hk (ne_startEvent he k)⟩

theorem placed_of_start {before : Bytes} {key : Option String}
    (h : r.Stands depth (before ++ [openByte k]) rest (⟨k, false⟩ :: outer))
    (hm : r.Meets (startEvent k) key before.length) :
    r.Placed depth (before ++ openByte k :: rest) := by
  refine ⟨_, rest, _, by simp, h, ?_⟩
  intro k' hk'
  rw [hm.event] at hk'
  obtain rfl := startEvent_inj hk'
  exact ⟨before, outer, rfl, rfl, hm.valueStart⟩

theorem placed_next (h : r.Placed depth input) (hf : r.next.failure = none) :
    r.next.Placed depth input ∧
      (r.next.stack.length : Int) = r.stack.length + r.next.event.weight := by
  obtain ⟨read, rest, frames, rfl, hs, -⟩ := h
  cases frames with
  | nil =>
    obtain ⟨sp, rfl⟩ := space_of_next hs hf
    have heof := next_eof_eq sp hs
    have hstands : r.next.Stands depth (read ++ sp.bytes) [] [] := by
      rw [heof]
      refine ⟨?_, ?_, hs.stack, hs.maxDepth, hs.failure, fun _ => rfl, Nat.zero_le _⟩
      · simp [emit, hs.input]
      · simp [emit]
    have hevent : r.next.event = .eof := next_eof sp hs
    constructor
    · rw [← List.append_nil (read ++ sp.bytes)]
      exact placed_of_not_start hstands (by rw [hevent]; rfl)
    · rw [hstands.stack, hs.stack, hevent]
      rfl
  | cons f outer =>
    obtain ⟨o, s⟩ := f
    rcases next_cases hs hf with ⟨sp, rest, rfl, hstands, hevent⟩ |
      ⟨l, t, rest, rfl, hstands, hm⟩ | ⟨l, k, rest, rfl, -, hstands, hm⟩
    · constructor
      · have hplaced := placed_of_not_start hstands (hevent ▸ isStart_endEvent o)
        simpa using hplaced
      · rw [hstands.stack, hs.stack, hevent, weight_endEvent, List.length_cons]
        omega
    · constructor
      · have hplaced := placed_of_not_start hstands (hm.event ▸ t.event_not_start)
        simpa using hplaced
      · rw [hstands.stack, hs.stack, hm.event, t.weight_event, List.length_cons, List.length_cons]
        omega
    · constructor
      · rw [← List.append_assoc] at hstands
        have hplaced := placed_of_start hstands hm
        simpa using hplaced
      · rw [hstands.stack, hs.stack, hm.event, weight_startEvent]
        simp only [List.length_cons]
        omega

/-- What becomes of a reader: it is at the start, behind some token, or has met a fault. -/
def Reached (depth : Nat) (input : Bytes) (r : Reader) : Prop :=
  (∃ n, r = { ofBytes depth input with skipped := n }) ∨ r.Placed depth input ∨
    r.failure ≠ none ∧ r.Sound

theorem reached_ofBytes (depth : Nat) (input : Bytes) :
    (ofBytes depth input).Reached depth input := .inl ⟨0, rfl⟩

theorem placed_skipped (h : r.Placed depth input) (n : Nat) :
    ({ r with skipped := n } : Reader).Placed depth input := by
  obtain ⟨read, rest, frames, rfl, hs, hstart⟩ := h
  exact ⟨read, rest, frames, rfl, hs.skipped n, hstart⟩

theorem Placed.failure (h : r.Placed depth input) : r.failure = none := by
  obtain ⟨_, _, _, _, hs, _⟩ := h
  exact hs.failure

theorem stands_empty (depth : Nat) (sp : Space) :
    (ofBytes depth sp.bytes).next.Stands depth sp.bytes [] [] := by
  have hskip := skipSpace_space sp solid_nil 0
  rw [List.append_nil, Nat.zero_add] at hskip
  have hnext : (ofBytes depth sp.bytes).next = emit .eof { ofBytes depth sp.bytes with
      eventsRead := 1
      cursor := ⟨[], sp.bytes.length⟩
      rootDone := true } := by
    rw [next, andThen_of_failure rfl]
    simp only [ofBytes, Cursor.start, hskip]
    rfl
  rw [hnext]
  exact ⟨(List.append_nil _).symm, rfl, rfl, rfl, rfl, fun _ => rfl, Nat.zero_le _⟩

theorem placed_first (hf : (ofBytes depth input).next.failure = none) :
    (ofBytes depth input).next.Placed depth input := by
  rcases next_first_cases hf with ⟨sp, rfl⟩ | ⟨sp, t, rest, rfl, hs, hm⟩ | ⟨sp, k, rest, rfl, hs, hm⟩
  · have hplaced := placed_of_not_start (stands_empty depth sp) (by rw [next_empty]; rfl)
    rwa [List.append_nil] at hplaced
  · have hplaced := placed_of_not_start hs (hm.event ▸ t.event_not_start)
    simpa using hplaced
  · exact placed_of_start hs hm

theorem Reached.next (h : r.Reached depth input) : r.next.Reached depth input := by
  rcases h with ⟨n, rfl⟩ | h | ⟨hf, hs⟩
  · rw [next_skipped rfl]
    by_cases hf : (ofBytes depth input).next.failure = none
    · exact .inr (.inl (placed_skipped (placed_first hf) n))
    · exact .inr (.inr ⟨hf, (sound_next rfl).imp id id⟩)
  · by_cases hf : r.next.failure = none
    · exact .inr (.inl (placed_next h hf).1)
    · exact .inr (.inr ⟨hf, sound_next h.failure⟩)
  · rw [next_of_failure hf]
    exact .inr (.inr ⟨hf, hs⟩)

theorem kept_reached (depth : Nat) (input : Bytes) : Kept (Reached depth input) where
  next h := h.next
  fail f _ := .inr (.inr ⟨failure_fail f _, sound_fail f _⟩)
  skipped n h := by
    rcases h with ⟨_, rfl⟩ | h | h
    · exact .inl ⟨n, rfl⟩
    · exact .inr (.inl (placed_skipped h n))
    · exact .inr (.inr h)

theorem Reached.placed (h : r.Reached depth input) (he : r.event.isStart = true) :
    r.Placed depth input := by
  rcases h with ⟨n, rfl⟩ | h | ⟨hf, hs⟩
  · cases he
  · exact h
  · rw [hs.resolve_left hf] at he
    cases he

theorem placed_iterate (h : r.Placed depth input)
    (hf : ∀ j, 0 < j → j ≤ n → (next^[j] r).failure = none) :
    (next^[n] r).Placed depth input ∧
      ((next^[n] r).stack.length : Int) =
        r.stack.length + ∑ j ∈ Finset.range n, (next^[j + 1] r).event.weight := by
  induction n with
  | zero => exact ⟨h, by simp⟩
  | succ n ih =>
    obtain ⟨hplaced, hstack⟩ := ih fun j hpos hj => hf j hpos (Nat.le_succ_of_le hj)
    have hnone := hf (n + 1) (Nat.succ_pos n) le_rfl
    rw [Finset.sum_range_succ, Function.iterate_succ_apply'] at *
    obtain ⟨hplaced', hstack'⟩ := placed_next hplaced hnone
    refine ⟨hplaced', ?_⟩
    rw [hstack', hstack, add_assoc]

/-! ### Reading on within a container -/

/-- None of the tokens before the `n`-th is the last or comes out of the containers around. -/
def Stays (r : Reader) (level n : Nat) : Prop :=
  ∀ j, 0 < j → j < n → (next^[j] r).event.isLast = false ∧ level < (next^[j] r).stack.length

theorem stays_one (r : Reader) (level : Nat) : r.Stays level 1 := fun j hpos hj => by omega

theorem Stays.mono {level' : Nat} (h : r.Stays level' n) (hle : level ≤ level') :
    r.Stays level n := by
  intro j hpos hj
  obtain ⟨hl, hs⟩ := h j hpos hj
  exact ⟨hl, hle.trans_lt hs⟩

theorem Stays.append (h : r.Stays level n) (hl : (next^[n] r).event.isLast = false)
    (hs : level < (next^[n] r).stack.length) (h' : (next^[n] r).Stays level m) :
    r.Stays level (n + m) := by
  intro j hpos hj
  rcases lt_trichotomy j n with hlt | rfl | hgt
  · exact h j hpos hlt
  · exact ⟨hl, hs⟩
  · obtain ⟨i, rfl⟩ : ∃ i, j = i + n := ⟨j - n, by omega⟩
    have hstays := h' i (by omega) (by omega)
    rwa [← Function.iterate_add_apply] at hstays

/-- The `n`-th token closes the innermost container. -/
structure Closes (r : Reader) (depth : Nat) (read rest : Bytes) (o : Bool) (outer : List Frame)
    (n : Nat) : Prop where
  pos : 0 < n
  stays : r.Stays outer.length n
  stands : (next^[n] r).Stands depth read rest outer
  event : (next^[n] r).event = endEvent o

theorem Closes.after (h : (next^[m] r).Closes depth read rest o outer n)
    (hstays : r.Stays outer.length m) (hl : (next^[m] r).event.isLast = false)
    (hs : outer.length < (next^[m] r).stack.length) :
    r.Closes depth read rest o outer (m + n) := by
  refine ⟨Nat.lt_of_lt_of_le h.pos (Nat.le_add_left n m), hstays.append hl hs h.stays, ?_, ?_⟩
  · rw [Nat.add_comm, Function.iterate_add_apply]
    exact h.stands
  · rw [Nat.add_comm, Function.iterate_add_apply]
    exact h.event

theorem closes_passage (p : Passage o s)
    (h : r.Stands depth read (p.text ++ rest) (⟨o, s⟩ :: outer))
    (hd : outer.length + 1 + p.nesting ≤ depth) :
    r.Closes depth (read ++ p.text) rest o outer p.steps := by
  induction p generalizing r read rest outer with
  | close sp =>
    obtain ⟨hstands, hevent, -⟩ := h.next_close
    exact ⟨Nat.one_pos, stays_one r _, hstands, hevent⟩
  | token l t tail ih =>
    obtain ⟨hstands, hm⟩ := h.next_token
    have hcloses : (next^[1] r).Closes _ _ _ _ _ tail.steps := ih hstands hd
    have hall := hcloses.after (stays_one r _) (hm.event ▸ t.event_not_last)
      (by rw [Function.iterate_one, hstands.stack]; exact Nat.lt_succ_self _)
    rw [Nat.add_comm] at hall
    simpa [Passage.text, Passage.steps] using hall
  | nested l k inside tail ih1 ih2 =>
    simp only [Passage.nesting] at hd
    obtain ⟨hstands, hm⟩ := h.next_open (by omega)
    have hinside : (next^[1] r).Closes _ _ _ _ _ inside.steps :=
      ih1 hstands (by simp only [List.length_cons]; omega)
    have hin := hinside.after (stays_one r _) (hm.event ▸ startEvent_not_last k)
      (by rw [Function.iterate_one, hstands.stack]; exact Nat.lt_succ_self _)
    have hall := (ih2 hin.stands (by omega)).after (hin.stays.mono (Nat.le_succ _))
      (hin.event ▸ endEvent_not_last k) (by rw [hin.stands.stack]; exact Nat.lt_succ_self _)
    have hsteps : 1 + inside.steps + tail.steps = inside.steps + tail.steps + 1 := by omega
    rw [hsteps] at hall
    simpa [Passage.text, Passage.steps] using hall

/-- A fault is met with the `n`-th token, within the innermost container. -/
structure Breaks (r : Reader) (level n : Nat) : Prop where
  pos : 0 < n
  stays : r.Stays level n
  event : (next^[n] r).event = .error
  failure : (next^[n] r).failure ≠ none

theorem Breaks.mono {level' : Nat} (h : r.Breaks level' n) (hle : level ≤ level') :
    r.Breaks level n := ⟨h.pos, h.stays.mono hle, h.event, h.failure⟩

theorem Breaks.after (h : (next^[m] r).Breaks level n) (hstays : r.Stays level m)
    (hl : (next^[m] r).event.isLast = false) (hs : level < (next^[m] r).stack.length) :
    r.Breaks level (m + n) := by
  refine ⟨Nat.lt_of_lt_of_le h.pos (Nat.le_add_left n m), hstays.append hl hs h.stays, ?_, ?_⟩
  · rw [Nat.add_comm, Function.iterate_add_apply]
    exact h.event
  · rw [Nat.add_comm, Function.iterate_add_apply]
    exact h.failure

/-- In a container a reader comes to its end, or to a fault before. -/
theorem passage_or_fault (h : r.Stands depth read rest (⟨o, s⟩ :: outer)) :
    (∃ (p : Passage o s) (rest' : Bytes), rest = p.text ++ rest' ∧
      outer.length + 1 + p.nesting ≤ depth) ∨ ∃ n, r.Breaks outer.length n := by
  induction hlen : rest.length using Nat.strong_induction_on generalizing r read rest o s outer with
  | h len ih =>
    subst hlen
    by_cases hf : r.next.failure = none
    · -- A fault that is met behind the next token is a fault of this container, too.
      have lift : ∀ {n}, r.next.event.isLast = false → outer.length < r.next.stack.length →
          r.next.Breaks outer.length n → ∃ n, r.Breaks outer.length n := by
        intro n hl hs hbreaks
        exact ⟨1 + n, Breaks.after (m := 1) hbreaks (stays_one r _) hl hs⟩
      rcases next_cases h hf with ⟨sp, rest, rfl, -, -⟩ | ⟨l, t, rest, rfl, hs, hm⟩ |
        ⟨l, k, rest, rfl, hd, hs, hm⟩
      · exact .inl ⟨.close sp, rest, by simp [Passage.text], h.fits⟩
      · obtain ⟨b, bs, hb, -⟩ := t.head
        have hlt : rest.length < (l.text ++ (t.text ++ rest)).length := by
          simp only [List.length_append, hb, List.length_cons]
          omega
        rcases ih _ hlt hs rfl with ⟨p, rest', rfl, hn⟩ | ⟨n, hbreaks⟩
        · exact .inl ⟨.token l t p, rest', by simp [Passage.text], hn⟩
        · right
          apply lift (hm.event ▸ t.event_not_last) _ hbreaks
          rw [hs.stack]
          exact Nat.lt_succ_self _
      · have hl : r.next.event.isLast = false := hm.event ▸ startEvent_not_last k
        have hin : outer.length < r.next.stack.length := by
          rw [hs.stack]
          exact Nat.lt_succ_of_lt (Nat.lt_succ_self _)
        have hlt : rest.length < (l.text ++ openByte k :: rest).length := by
          simp only [List.length_append, List.length_cons]
          omega
        rcases ih _ hlt hs rfl with ⟨q, rest1, rfl, hq⟩ | ⟨n, hbreaks⟩
        · have hcloses := closes_passage q hs hq
          rw [List.length_append] at hlt
          have hlt1 : rest1.length < (l.text ++ openByte k :: (q.text ++ rest1)).length := by
            simp only [List.length_append, List.length_cons]
            omega
          rcases ih _ hlt1 hcloses.stands rfl with ⟨p, rest2, rfl, hp⟩ | ⟨n, hbreaks⟩
          · refine .inl ⟨.nested l k q p, rest2, by simp [Passage.text], ?_⟩
            simp only [Passage.nesting, List.length_cons] at hq hp ⊢
            omega
          · right
            apply lift hl hin
            exact hbreaks.after (hcloses.stays.mono (Nat.le_succ _))
              (hcloses.event ▸ endEvent_not_last k)
              (by rw [hcloses.stands.stack]; exact Nat.lt_succ_self _)
        · exact .inr (lift hl hin (hbreaks.mono (Nat.le_succ _)))
    · exact .inr ⟨1, Nat.one_pos, stays_one r _, (sound_next h.failure).resolve_left hf, hf⟩

/-! ### Passing over -/

theorem readUntil_stays (h : r.Stays level (m + 1)) (fuel : Nat) :
    readUntil (level + 1) (fuel + (m + 1)) r = readUntil (level + 1) (fuel + 1) (next^[m] r) := by
  induction m generalizing fuel with
  | zero => rfl
  | succ m ih =>
    obtain ⟨hl, hs⟩ := h (m + 1) (Nat.succ_pos m) (Nat.lt_succ_self _)
    have hbefore := ih (fun j hpos hj => h j hpos (by omega)) (fuel + 1)
    rw [Function.iterate_succ_apply'] at hl hs ⊢
    have hfuel : fuel + (m + 1 + 1) = fuel + 1 + (m + 1) := by omega
    rw [hfuel, hbefore, readUntil_next hl, if_neg]
    simp only [Bool.and_eq_true, decide_eq_true_eq, not_and]
    omega

theorem beyond_of_stays (h : r.Healthy input) (he : r.event.isStart = true)
    (hlevel : r.stack.length = level + 1) (hpos : 0 < n) (hstays : r.Stays level n)
    (hout : (next^[n] r).event = .error ∨
      (∃ o, (next^[n] r).event = endEvent o) ∧ (next^[n] r).stack.length ≤ level) :
    r.beyond = next^[n] r := by
  obtain ⟨m, rfl⟩ : ∃ m, n = m + 1 := ⟨n - 1, by omega⟩
  have hfuel := h.readUntil_fuel (level + 1) (Nat.lt_succ_self _)
    (show r.cursor.rest.length < r.cursor.rest.length + (m + 1) by omega)
  rw [beyond, he, if_pos rfl, hlevel, hfuel, readUntil_stays hstays]
  rw [Function.iterate_succ_apply'] at hout ⊢
  rcases hout with herror | ⟨⟨o, hend⟩, hstack⟩
  · exact readUntil_error herror
  · rw [readUntil_next (hend ▸ endEvent_not_last o), hend, isEnd_endEvent, if_pos]
    simp only [Bool.true_and, decide_eq_true_eq]
    omega

/-- How many more containers than before `r`'s last token are open after `n` further ones. -/
def unclosed (r : Reader) (n : Nat) : Int :=
  1 + ∑ j ∈ Finset.range n, (next^[j + 1] r).event.weight

theorem unclosed_eq (h : r.Placed depth input) (hlevel : r.stack.length = level + 1)
    (hf : ∀ j, 0 < j → j ≤ n → (next^[j] r).failure = none) :
    r.unclosed n = (next^[n] r).stack.length - level := by
  obtain ⟨-, hstack⟩ := placed_iterate h hf
  rw [unclosed, hstack, hlevel]
  push_cast
  ring

/-! ### The container alone -/

theorem Passage.exists_close (p : Passage o s) : ∃ bs, p.text = bs ++ [closeByte o] := by
  induction p with
  | close sp => exact ⟨sp.bytes, rfl⟩
  | token l t tail ih =>
    obtain ⟨bs, hbs⟩ := ih
    exact ⟨l.text ++ (t.text ++ bs), by simp [Passage.text, hbs]⟩
  | nested l k inside tail _ ih =>
    obtain ⟨bs, hbs⟩ := ih
    exact ⟨l.text ++ openByte k :: (inside.text ++ bs), by simp [Passage.text, hbs]⟩

theorem completes_next {fuel : Nat} (h : r.next.event.isLast = false) :
    r.completes (fuel + 1) = r.next.completes fuel := by
  rw [completes]
  split
  · rename_i he
    rw [he] at h
    cases h
  · rename_i he
    rw [he] at h
    cases h
  · rfl

theorem completes_iterate {fuel : Nat}
    (h : ∀ j, 0 < j → j ≤ n → (next^[j] r).event.isLast = false) :
    r.completes (fuel + n) = (next^[n] r).completes fuel := by
  induction n generalizing fuel with
  | zero => rfl
  | succ n ih =>
    have hl := h (n + 1) (Nat.succ_pos n) le_rfl
    have hbefore : r.completes (fuel + 1 + n) = (next^[n] r).completes (fuel + 1) :=
      ih fun j hpos hj => h j hpos (Nat.le_succ_of_le hj)
    rw [Function.iterate_succ_apply'] at hl ⊢
    rw [← completes_next hl, ← hbefore]
    congr 1
    omega

theorem Closes.not_last (h : r.Closes depth read rest o outer n) :
    ∀ j, 0 < j → j ≤ n → (next^[j] r).event.isLast = false := by
  intro j hpos hj
  rcases hj.lt_or_eq with hlt | rfl
  · exact (h.stays j hpos hlt).1
  · rw [h.event]
    exact endEvent_not_last o

theorem completes_container (p : Passage k false) (hd : 1 + p.nesting ≤ depth) :
    (ofBytes depth (openByte k :: p.text)).completes (p.steps + 2) = true := by
  obtain ⟨hs, hm⟩ := next_first_open depth Space.none k p.text (by omega)
  have hs : (ofBytes depth (openByte k :: p.text)).next.Stands depth [openByte k] (p.text ++ [])
      [⟨k, false⟩] := by
    rw [List.append_nil]
    exact hs
  have hcloses := closes_passage p hs (by simpa using hd)
  have hl : (ofBytes depth (openByte k :: p.text)).next.event.isLast = false :=
    hm.event ▸ startEvent_not_last k
  have hsteps : p.steps + 2 = 1 + p.steps + 1 := by omega
  rw [hsteps, completes_next hl, completes_iterate hcloses.not_last, completes,
    next_eof Space.none hcloses.stands]

/-! ### The matching bracket -/

theorem Healthy.iterate (h : r.Healthy input) (n : Nat) : (Reader.next^[n] r).Healthy input := by
  induction n with
  | zero => exact h
  | succ n ih =>
    rw [Function.iterate_succ_apply']
    exact ih.next

theorem skipped_iterate (r : Reader) (n : Nat) : (next^[n] r).skipped = r.skipped := by
  induction n with
  | zero => rfl
  | succ n ih =>
    rw [Function.iterate_succ_apply', ← ih]
    by_cases hf : (next^[n] r).failure = none
    · have hskipped := congrArg Reader.skipped (next_skipped hf (next^[n] r).skipped)
      exact hskipped
    · rw [next_of_failure hf]

theorem Stays.unclosed (h : r.Stays level n) (hr : r.Healthy input) (hplaced : r.Placed depth input)
    (hlevel : r.stack.length = level + 1) :
    ∀ j, 0 < j → j < n → (next^[j] r).event.isLast = false ∧ 0 < r.unclosed j := by
  intro j hpos hj
  obtain ⟨hl, hs⟩ := h j hpos hj
  refine ⟨hl, ?_⟩
  have heq := unclosed_eq (n := j) hplaced hlevel fun i hi hij =>
    (hr.iterate i).1.failure_eq_none (h i hi (hij.trans_lt hj)).1
  omega

/-- The `n`-th token is the end of the container that was opened last, by its kind and by the number
of ends and starts up to there; passing over the container leads to it and gives the bytes from
bracket to bracket, which are a text of their own. -/
structure Matched (depth : Nat) (input : Bytes) (k : Bool) (r : Reader) (n : Nat) : Prop where
  event : (next^[n] r).event = endEvent k
  unclosed : r.unclosed n = 0
  skip : r.skip = (.ok ⟨r.valueStart, (next^[n] r).position⟩,
    { next^[n] r with skipped := r.skipped + 1 })
  within : Span.Within ⟨r.valueStart, (next^[n] r).position⟩ input
  brackets : ∃ inside, Span.of ⟨r.valueStart, (next^[n] r).position⟩ input =
    openByte k :: (inside ++ [closeByte k])
  alone : ∃ fuel, (ofBytes (depth - (r.stack.length - 1))
    (Span.of ⟨r.valueStart, (next^[n] r).position⟩ input)).completes fuel = true

theorem matched_of_closes {before : Bytes} {p : Passage k false}
    (hr : r.Healthy (before ++ openByte k :: (p.text ++ rest)))
    (hplaced : r.Placed depth (before ++ openByte k :: (p.text ++ rest)))
    (he : r.event = startEvent k) (hstart : r.valueStart = before.length)
    (hlevel : r.stack.length = outer.length + 1) (hd : outer.length + 1 + p.nesting ≤ depth)
    (hcloses : r.Closes depth (before ++ openByte k :: p.text) rest k outer p.steps) :
    r.Matched depth (before ++ openByte k :: (p.text ++ rest)) k p.steps := by
  have hposition : (next^[p.steps] r).position = before.length + (openByte k :: p.text).length := by
    rw [position, hcloses.stands.cursor, List.length_append]
  have hspan : Span.of ⟨r.valueStart, (next^[p.steps] r).position⟩
      (before ++ openByte k :: (p.text ++ rest)) = openByte k :: p.text := by
    rw [Span.of, hstart, hposition]
    simp
  refine ⟨hcloses.event, ?unclosed, ?skip, ?within, ?brackets, ?alone⟩
  case unclosed =>
    rw [unclosed_eq hplaced hlevel, hcloses.stands.stack, Int.sub_self]
    intro j hpos hj
    exact (hr.iterate j).1.failure_eq_none (hcloses.not_last j hpos hj)
  case skip =>
    have hbeyond := beyond_of_stays hr (he ▸ isStart_startEvent k) hlevel hcloses.pos
      hcloses.stays (.inr ⟨⟨k, hcloses.event⟩, hcloses.stands.stack ▸ le_rfl⟩)
    rw [skip_of_none (hbeyond ▸ hcloses.stands.failure), hbeyond, skipped_iterate]
  case within =>
    constructor
    · simp only [hstart, hposition, Nat.le_add_right]
    · simp only [hposition, List.length_append, List.length_cons]
      omega
  case brackets =>
    obtain ⟨inside, hinside⟩ := Passage.exists_close p
    exact ⟨inside, by rw [hspan, hinside]⟩
  case alone =>
    refine ⟨p.steps + 2, ?_⟩
    rw [hspan]
    apply completes_container
    omega

/-- Wherever a reader has just opened a container, passing over it is reading on to the bracket that
closes it, or to a fault before. -/
theorem skip_matches (depth : Nat) (input : Bytes) (cs : List Call)
    (h : ((ofBytes depth input).calls cs).event = startEvent k) :
    let r := (ofBytes depth input).calls cs
    ∃ n, 0 < n ∧
      (∀ j, 0 < j → j < n → (next^[j] r).event.isLast = false ∧ 0 < r.unclosed j) ∧
      (r.Matched depth input k n ∨
        (next^[n] r).event = .error ∧
          ∃ e, (next^[n] r).failure = some e ∧ r.skip = (.error e, next^[n] r)) := by
  intro r
  have hr : r.Healthy input := (healthy_ofBytes depth input).calls cs
  have hplaced : r.Placed depth input := by
    apply ((kept_reached depth input).calls (reached_ofBytes depth input) cs).placed
    rw [h, isStart_startEvent]
  obtain ⟨read, rest, frames, rfl, hs, hstart⟩ := id hplaced
  obtain ⟨before, outer, rfl, rfl, hv⟩ := hstart k h
  have hlevel : r.stack.length = outer.length + 1 := by rw [hs.stack, List.length_cons]
  rcases passage_or_fault hs with ⟨p, rest', rfl, hd⟩ | ⟨n, hbreaks⟩
  · have hcloses := closes_passage p hs hd
    refine ⟨p.steps, hcloses.pos, hcloses.stays.unclosed hr hplaced hlevel, .inl ?_⟩
    simp only [List.append_assoc, List.cons_append, List.nil_append] at hr hplaced hcloses ⊢
    exact matched_of_closes hr hplaced h hv hlevel hd hcloses
  · refine ⟨n, hbreaks.pos, hbreaks.stays.unclosed hr hplaced hlevel, .inr ⟨hbreaks.event, ?_⟩⟩
    obtain ⟨e, he⟩ := Option.ne_none_iff_exists'.1 hbreaks.failure
    have hstart : r.event.isStart = true := h ▸ isStart_startEvent k
    have hbeyond := beyond_of_stays hr hstart hlevel hbreaks.pos hbreaks.stays
      (.inl hbreaks.event)
    refine ⟨e, he, ?_⟩
    rw [skip_of_some (hbeyond ▸ he), hbeyond]

/-- In an array an object is passed over, with the array it holds. -/
theorem skip_matches_nested :
    let input := bytes "[\x7b\"a\":[]\x7d,1]"
    let r := (ofBytes 3 input).calls [.next, .next]
    r.event = startEvent true ∧ r.skip.1.toOption = some ⟨1, 9⟩ ∧
      Span.of ⟨1, 9⟩ input = bytes "\x7b\"a\":[]\x7d" ∧ ∃ n, r.Matched 3 input true n := by
  intro input r
  have he : r.event = startEvent true := by decide +kernel
  have hskip : r.skip.1.toOption = some ⟨1, 9⟩ := by decide +kernel
  refine ⟨he, hskip, by decide +kernel, ?_⟩
  obtain ⟨n, -, -, hmatched | ⟨-, e, -, hfault⟩⟩ := skip_matches 3 input [.next, .next] he
  · exact ⟨n, hmatched⟩
  · rw [hfault] at hskip
    cases hskip

end Reader

end Quarry.Json
