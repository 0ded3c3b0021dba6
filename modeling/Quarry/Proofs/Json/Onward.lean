import Mathlib.Logic.Function.Iterate
import Quarry.Proofs.Json.Further
import Quarry.Proofs.Json.Skipping

/-!
Reading on, token by token or past whole values: the reader comes through the same places, and a
fault is the same fault.
-/

namespace Quarry.Json.Reader

open Text

/-! ### Counts -/

/-- The reader with other counts of what was read and passed over. -/
def tally (n k : Nat) (r : Reader) : Reader := { r with eventsRead := n, skipped := k }

section Tally

variable (r : Reader) (n k : Nat)

@[simp] theorem cursor_tally : (r.tally n k).cursor = r.cursor := rfl

@[simp] theorem failure_tally : (r.tally n k).failure = r.failure := rfl

theorem tally_ite (c : Prop) [Decidable c] (a b : Reader) :
    (if c then a else b).tally n k = if c then a.tally n k else b.tally n k :=
  apply_ite _ c a b

theorem scanned_tally (s : Scan Event) : (r.tally n k).scanned s = (r.scanned s).tally n k := by
  obtain ⟨a, stop⟩ := s
  cases a <;> rfl

theorem literal_tally (word : String) (e : Event) :
    (r.tally n k).literal word e = (r.literal word e).tally n k := by
  rw [literal, literal, tally_ite]
  rfl

theorem openContainer_tally (o : Bool) :
    (r.tally n k).openContainer o = (r.openContainer o).tally n k := by
  rw [openContainer, openContainer, tally_ite]
  rfl

theorem readValue_tally : (r.tally n k).readValue = r.readValue.tally n k := by
  let r' : Reader := { r with valueStart := r.position }
  have hopen := fun o => (openContainer_tally r' n k o).symm
  have hscan := fun s => (scanned_tally r' n k s).symm
  have hword := fun w e => (literal_tally r' n k w e).symm
  rw [readValue, readValue]
  simp only [cursor_tally]
  cases r.cursor.rest with
  | nil => rfl
  | cons b bs =>
    simp only [tally_ite]
    simp only [r'] at hopen hscan hword
    rw [hopen, hopen, hscan, hscan, hword, hword, hword]
    rfl

theorem readComma_tally (f : Frame) :
    (r.tally n k).readComma f = (r.readComma f).tally n k := by
  rw [readComma, readComma, tally_ite, tally_ite]
  rfl

theorem readName_tally : (r.tally n k).readName = r.readName.tally n k := by
  rw [readName, readName, tally_ite, cursor_tally]
  split
  · obtain ⟨a, stop⟩ := scanString r.cursor
    cases a with
    | error e => rfl
    | ok name =>
      simp only [tally_ite]
      rfl
  · rfl

theorem andThen_tally {g : Reader → Reader} (hg : ∀ r : Reader, g (r.tally n k) = (g r).tally n k) :
    (r.tally n k).andThen g = (r.andThen g).tally n k := by
  rw [andThen, andThen, failure_tally]
  cases r.failure with
  | none => exact hg r
  | some e => rfl

theorem readInside_tally (f : Frame) (outer : List Frame) :
    (r.tally n k).readInside f outer = (r.readInside f outer).tally n k := by
  rw [readInside, readInside, tally_ite, tally_ite, readComma_tally, ← andThen_tally]
  · rfl
  · intro r
    simp only [tally_ite]
    rw [← readValue_tally, ← andThen_tally _ _ _ fun r => readValue_tally r n k, ← readName_tally]
    rfl

theorem readOutside_tally : (r.tally n k).readOutside = r.readOutside.tally n k := by
  rw [readOutside, readOutside, tally_ite, tally_ite, ← readValue_tally]
  rfl

theorem next_tally (h : r.failure = none) :
    (r.tally n k).next = r.next.tally (n + 1) k := by
  rw [next, next, andThen_of_failure h, andThen_of_failure (r := r.tally n k) h]
  cases hs : r.stack with
  | nil =>
    simp only [tally, hs]
    rw [← tally, ← readOutside_tally]
    rfl
  | cons f outer =>
    simp only [tally, hs]
    rw [← tally, ← readInside_tally]
    rfl

end Tally

theorem eventsRead_next {r : Reader} (h : r.failure = none) :
    r.next.eventsRead = r.eventsRead + 1 := by
  have hn := next_tally r r.eventsRead r.skipped h
  exact congrArg Reader.eventsRead hn

theorem next_skipped {r : Reader} (h : r.failure = none) (k : Nat) :
    ({ r with skipped := k } : Reader).next = { r.next with skipped := k } := by
  have hn := next_tally r r.eventsRead k h
  rw [← eventsRead_next h] at hn
  exact hn

/-! ### Lengths -/

section Length

variable {r : Reader}

theorem Sound.failure_eq_none (h : r.Sound) (hl : r.event.isLast = false) : r.failure = none := by
  refine h.resolve_right ?_
  intro he
  simp [he, Event.isLast] at hl

theorem length_readValue (h : r.readValue.failure = none) :
    r.readValue.cursor.rest.length < r.cursor.rest.length := by
  rcases readValue_cases h with ⟨o, rest, hrest, -, hval⟩ | ⟨t, rest, hrest, hval⟩
  · rw [hval, hrest]
    simp [entered]
  · obtain ⟨b, bs, hb, -⟩ := t.head
    rw [hval, hrest, hb]
    simp [passed, finish]

/-- Every token but the last takes a byte at least. -/
theorem length_next (h : r.failure = none) (hl : r.next.event.isLast = false) :
    r.next.cursor.rest.length < r.cursor.rest.length := by
  have hf := (sound_next h).failure_eq_none hl
  cases hs : r.stack with
  | cons f outer =>
    rcases next_inside_cases hs hf with ⟨sp, rest, hrest, hnext⟩ | ⟨l, rest, hrest, hnext⟩
    · rw [hnext, hrest]
      simp only [finish, List.length_append, List.length_cons]
      omega
    · rw [hnext] at hf ⊢
      rw [hrest, List.length_append]
      exact Nat.lt_add_left _ (length_readValue hf)
  | nil =>
    rcases next_outside_cases hs hf with ⟨sp, -, hnext⟩ | ⟨sp, rest, hrest, -, hnext⟩
    · rw [hnext] at hl
      cases hl
    · rw [hnext] at hf ⊢
      rw [hrest, List.length_append]
      exact Nat.lt_add_left _ (length_readValue hf)

end Length

/-! ### Places that reading comes through -/

/-- Reading on by so many tokens, none of them the last, whatever was passed over on the way. -/
inductive Onward (r : Reader) : Nat → Reader → Prop
  | here : Onward r 0 r
  | next {n : Nat} {r' : Reader} (h : Onward r n r') (hl : r'.next.event.isLast = false) :
      Onward r (n + 1) r'.next
  | skipped {n : Nat} {r' : Reader} (h : Onward r n r') (k : Nat) :
      Onward r n { r' with skipped := k }

variable {r r' r'' : Reader} {n m : Nat}

theorem Onward.trans (h : r.Onward n r') (h' : r'.Onward m r'') : r.Onward (n + m) r'' := by
  induction h' with
  | here => exact h
  | next _ hl ih => exact ih.next hl
  | skipped _ k ih => exact ih.skipped k

theorem Onward.failure (h : r.Onward n r') (hf : r.failure = none) : r'.failure = none := by
  induction h with
  | here => exact hf
  | next _ hl ih => exact (sound_next ih).failure_eq_none hl
  | skipped _ k ih => exact ih

theorem Onward.length (h : r.Onward n r') (hf : r.failure = none) :
    r'.cursor.rest.length + n ≤ r.cursor.rest.length := by
  induction h with
  | here => exact le_rfl
  | next h hl ih =>
    have hlt := length_next (h.failure hf) hl
    omega
  | skipped _ k ih => exact ih

theorem next_iterate {k : Nat} (hk : r' = { next^[n] r with skipped := k })
    (hf : r'.failure = none) : r'.next = { next^[n + 1] r with skipped := k } := by
  have hfail : (next^[n] r).failure = none := by rwa [hk] at hf
  rw [hk, next_skipped hfail, Function.iterate_succ_apply']

theorem Onward.plain (h : r.Onward n r') (hf : r.failure = none) :
    (∃ k, r' = { Reader.next^[n] r with skipped := k }) ∧
      ∀ j < n, (Reader.next^[j + 1] r).event.isLast = false := by
  induction h with
  | here => exact ⟨⟨r.skipped, rfl⟩, by simp⟩
  | @next n r' h hl ih =>
    obtain ⟨⟨k, hk⟩, hbefore⟩ := ih
    have hnext := next_iterate hk (h.failure hf)
    refine ⟨⟨k, hnext⟩, ?_⟩
    intro j hj
    by_cases hjn : j = n
    · subst hjn
      rwa [hnext] at hl
    · exact hbefore j (by omega)
  | skipped _ k ih =>
    obtain ⟨⟨k', hk⟩, hbefore⟩ := ih
    exact ⟨⟨k, by rw [hk]⟩, hbefore⟩

/-- Reading one token after another comes to the last one with the `n`-th. -/
structure Ends (r : Reader) (n : Nat) : Prop where
  pos : 0 < n
  last : (next^[n] r).event.isLast = true
  before : ∀ j, 0 < j → j < n → (next^[j] r).event.isLast = false

theorem Ends.tail (h : r.Ends (n + 1)) (hn : 0 < n) : r.next.Ends n := by
  refine ⟨hn, h.last, ?_⟩
  intro j hpos hj
  exact h.before (j + 1) (by omega) (by omega)

theorem Ends.onward (h : r.Ends (n + 1)) {j : Nat} (hj : j ≤ n) :
    r.Onward j (Reader.next^[j] r) := by
  induction j with
  | zero => exact .here
  | succ j ih =>
    have hl := h.before (j + 1) (by omega) (by omega)
    rw [Function.iterate_succ_apply'] at hl ⊢
    exact (ih (by omega)).next hl

theorem Ends.le_length (h : r.Ends n) (hf : r.failure = none) :
    n ≤ r.cursor.rest.length + 1 := by
  obtain ⟨m, rfl⟩ : ∃ m, n = m + 1 := ⟨n - 1, by have := h.pos; omega⟩
  have hlen := (h.onward le_rfl).length hf
  omega

theorem Onward.ends (h : r.Onward n r') (hf : r.failure = none)
    (hl : r'.next.event.isLast = true) :
    r.Ends (n + 1) ∧ ∃ k, r'.next = { Reader.next^[n + 1] r with skipped := k } := by
  obtain ⟨⟨k, hk⟩, hbefore⟩ := h.plain hf
  have hnext := next_iterate hk (h.failure hf)
  refine ⟨⟨Nat.succ_pos n, ?_, ?_⟩, k, hnext⟩
  · rwa [hnext] at hl
  · intro j hpos hj
    obtain ⟨j, rfl⟩ : ∃ i, j = i + 1 := ⟨j - 1, by omega⟩
    exact hbefore j (by omega)

theorem Onward.eventsRead (h : r.Onward n r') (hf : r.failure = none) :
    r'.eventsRead = r.eventsRead + n := by
  induction h with
  | here => rfl
  | next h hl ih => rw [eventsRead_next (h.failure hf), ih, Nat.add_assoc]
  | skipped _ k ih => exact ih

theorem Ends.eventsRead (h : r.Ends n) (hf : r.failure = none) :
    (Reader.next^[n] r).eventsRead = r.eventsRead + n := by
  obtain ⟨m, rfl⟩ : ∃ m, n = m + 1 := ⟨n - 1, by have := h.pos; omega⟩
  have hon := h.onward le_rfl
  rw [Function.iterate_succ_apply', eventsRead_next (hon.failure hf), hon.eventsRead hf,
    Nat.add_assoc]

/-! ### Coming out of a container -/

variable {depth : Nat} {read rest : Bytes} {outer : List Frame}

/-- What becomes of a pass from `r` on: it comes out into the containers around, or to a fault. -/
inductive Leaves {α : Type} (r : Reader) (depth : Nat) (outer : List Frame) :
    Except ReadError α → Reader → Prop
  | out {n : Nat} {r' : Reader} {read rest : Bytes} (a : α) (onward : r.Onward n r')
      (stands : r'.Stands depth read rest outer) : Leaves r depth outer (.ok a) r'
  | fault {n : Nat} {r' : Reader} (onward : r.Onward n r') (event : r'.next.event = .error) :
      Leaves r depth outer (.error r'.next.fault) r'.next

theorem Leaves.after {α : Type} {a : Except ReadError α} (h : r.Onward n r')
    (h' : r'.Leaves depth outer a r'') : r.Leaves depth outer a r'' := by
  cases h' with
  | out a onward stands => exact .out a (h.trans onward) stands
  | fault onward event => exact .fault (h.trans onward) event

theorem Leaves.map {α β : Type} {a : Except ReadError α} (h : r.Leaves depth outer a r')
    (g : α → β) : r.Leaves depth outer (a.map g) r' := by
  cases h with
  | out a onward stands => exact .out (g a) onward stands
  | fault onward event => exact .fault onward event

theorem readUntil_error {target fuel : Nat} (h : r.next.event = .error) :
    readUntil target (fuel + 1) r = r.next := by
  rw [readUntil]
  simp only [h, ↓reduceIte]

theorem leaves_readUntil {inner : List Frame} {fuel : Nat}
    (h : r.Stands depth read rest (inner ++ outer)) (hi : inner ≠ []) (hf : rest.length < fuel) :
    let r' := readUntil (outer.length + 1) fuel r
    r'.failure = none ∧ r.Leaves depth outer (.ok ()) r' ∨
      ∃ e, r'.failure = some e ∧ r.Leaves (α := Unit) depth outer (.error e) r' := by
  induction fuel generalizing r read rest inner with
  | zero => omega
  | succ fuel ih =>
    obtain ⟨⟨o, s⟩, inner, rfl⟩ := List.exists_cons_of_ne_nil hi
    have hs : r.Stands depth read rest (⟨o, s⟩ :: (inner ++ outer)) := h
    by_cases hfail : r.next.failure = none
    · have hlt : r.next.event.isLast = false → r.next.cursor.rest.length < fuel := by
        intro hl
        have hlen := length_next h.failure hl
        rw [h.cursor] at hlen
        simp only at hlen
        omega
      -- Reading goes on from the next token, in other containers within those around.
      have goOn : ∀ {read' rest' : Bytes} (inner' : List Frame), inner' ≠ [] →
          r.next.Stands depth read' rest' (inner' ++ outer) → r.next.event.isLast = false →
          (r.next.event.isEnd && decide (r.next.stack.length < outer.length + 1)) = false →
          let r' := readUntil (outer.length + 1) (fuel + 1) r
          r'.failure = none ∧ r.Leaves depth outer (.ok ()) r' ∨
            ∃ e, r'.failure = some e ∧ r.Leaves (α := Unit) depth outer (.error e) r' := by
        intro read' rest' inner' hi' hst hl hgo
        have hlen := hlt hl
        rw [hst.cursor] at hlen
        have hone : r.Onward 1 r.next := .next .here hl
        rw [readUntil_next hl, hgo, if_neg (by simp)]
        rcases ih hst hi' hlen with ⟨hnone, hleave⟩ | ⟨e, he, hleave⟩
        · exact .inl ⟨hnone, hleave.after hone⟩
        · exact .inr ⟨e, he, hleave.after hone⟩
      rcases next_cases hs hfail with ⟨sp, rest', -, hst, hev⟩ | ⟨l, t, rest', -, hst, hm⟩ |
        ⟨l, k, rest', -, -, hst, hm⟩
      · have hl : r.next.event.isLast = false := hev ▸ endEvent_not_last o
        by_cases hnil : inner = []
        · subst hnil
          left
          rw [readUntil_next hl, hev, isEnd_endEvent, hst.stack, if_pos (by simp)]
          exact ⟨hst.failure, .out () (.next .here hl) hst⟩
        · apply goOn inner hnil hst hl
          have hpos := List.length_pos_of_ne_nil hnil
          simp only [hst.stack, List.length_append, Bool.and_eq_false_imp, decide_eq_false_iff_not]
          omega
      · refine goOn (⟨o, true⟩ :: inner) (by simp) hst ?_ ?_
        · rw [hm.event]
          exact t.event_not_last
        · rw [hm.event, t.event_not_end, Bool.false_and]
      · refine goOn (⟨k, false⟩ :: ⟨o, true⟩ :: inner) (by simp) hst ?_ ?_
        · rw [hm.event]
          exact startEvent_not_last k
        · rw [hm.event, isEnd_startEvent, Bool.false_and]
    · have hev : r.next.event = .error := (sound_next h.failure).resolve_left hfail
      obtain ⟨e, he⟩ := Option.ne_none_iff_exists'.1 hfail
      right
      rw [readUntil_error hev]
      have hfault : r.next.fault = e := by rw [fault, he]; rfl
      exact ⟨e, he, hfault ▸ .fault .here hev⟩

/-- To pass over a container is to read on to its end. -/
theorem leaves_skip {f : Frame} (h : r.Stands depth read rest (f :: outer))
    (he : r.event.isStart = true) : r.Leaves depth outer r.skip.1 r.skip.2 := by
  have hall := leaves_readUntil (show r.Stands depth read rest ([f] ++ outer) from h) (by simp)
    (Nat.lt_succ_self rest.length)
  have hbeyond : r.beyond = readUntil (outer.length + 1) (rest.length + 1) r := by
    rw [beyond, he, if_pos rfl, h.stack, h.cursor, List.length_cons]
  rw [← hbeyond] at hall
  rcases hall with ⟨hnone, hleave⟩ | ⟨e, hsome, hleave⟩
  · rw [skip_of_none hnone]
    generalize r.beyond = r' at hleave ⊢
    cases hleave with
    | out _ onward stands => exact .out _ (onward.skipped _) (stands.skipped _)
  · rw [skip_of_some hsome]
    generalize r.beyond = r' at hleave ⊢
    cases hleave with
    | fault onward event => exact .fault onward event

end Quarry.Json.Reader
