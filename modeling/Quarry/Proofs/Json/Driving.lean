import Quarry.Proofs.Json.Derivations

/-!
All tokens that a reader meets, one after another, up to the end of its text.
-/

namespace Quarry.Json

open Text Reader

/-- A token that begins a value. -/
def Event.isValue (e : Event) : Bool := !e.isEnd && !e.isLast

/-- What a reader shows after a token. -/
abbrev Meeting := Event × Option String

namespace Tree

mutual

/-- The tokens of a value under a name. -/
def events (key : Option String) : Tree → List Meeting
  | .null => [(.null, key)]
  | .bool b => [(.bool b, key)]
  | .number text i => [(.number text i, key)]
  | .string s => [(.string s, key)]
  | .group o ps => (startEvent o, key) :: (eventsOf ps ++ [(endEvent o, none)])

def eventsOf : List (Option String × Tree) → List Meeting
  | [] => []
  | (k, t) :: ps => t.events k ++ eventsOf ps

end

theorem exists_event (t : Tree) (key : Option String) :
    ∃ e es, t.events key = (e, key) :: es ∧ e.isValue = true := by
  cases t with
  | group o ps => exact ⟨_, _, by rw [events], by cases o <;> rfl⟩
  | _ => exact ⟨_, _, by rw [events], rfl⟩

end Tree

theorem Token.events_tree (t : Token) (key : Option String) :
    t.tree.events key = [(t.event, key)] := by
  obtain ⟨text, event, h⟩ := t
  cases h <;> rfl

theorem Passage.steps_eq {o s : Bool} (p : Passage o s) :
    p.steps = (Tree.eventsOf p.parts).length + 1 := by
  induction p with
  | close sp => rfl
  | token l t rest ih =>
    rw [parts, Tree.eventsOf, t.events_tree, steps, ih]
    rfl
  | nested l k inside rest ih1 ih2 =>
    rw [parts, Tree.eventsOf, Tree.events, steps, ih1, ih2]
    simp only [List.length_append, List.length_cons, List.length_nil]
    omega

namespace Reader

/-- Reads on up to the last token. -/
def drive : Nat → Reader → List Meeting
  | 0, _ => []
  | fuel + 1, r =>
    (r.next.event, r.next.key) :: if r.next.event.isLast then [] else drive fuel r.next

variable {r : Reader} {depth fuel : Nat} {read rest : Bytes} {outer : List Frame} {o s : Bool}

theorem drive_next (h : r.next.event.isLast = false) :
    r.drive (fuel + 1) = (r.next.event, r.next.key) :: r.next.drive fuel := by
  rw [drive, h]
  rfl

theorem drive_last (h : r.next.event.isLast = true) :
    r.drive (fuel + 1) = [(r.next.event, r.next.key)] := by
  rw [drive, h]
  rfl

theorem completes_of_drive {es : List Meeting} {key : Option String}
    (h : r.drive fuel = es ++ [(.eof, key)]) : r.completes fuel = true := by
  induction fuel generalizing r es with
  | zero => simp [drive] at h
  | succ fuel ih =>
    rw [completes]
    cases hl : r.next.event.isLast with
    | true =>
      rw [drive_last hl] at h
      have he : r.next.event = .eof := by
        cases es with
        | nil => simpa using congrArg (fun l => l.head?.map Prod.fst) h
        | cons m es => simp at h
      rw [he]
    | false =>
      rw [drive_next hl] at h
      cases es with
      | nil =>
        have he : r.next.event = .eof := (Prod.mk.inj (List.cons.inj h).1).1
        simp [he, Event.isLast] at hl
      | cons m es =>
        have hc := ih (List.cons.inj h).2
        split
        · rfl
        · rename_i he
          simp [he, Event.isLast] at hl
        · exact hc

/-- Nothing follows the last token. -/
theorem drive_add {es : List Meeting} {key : Option String}
    (h : r.drive fuel = es ++ [(.eof, key)]) (extra : Nat) :
    r.drive (fuel + extra) = es ++ [(.eof, key)] := by
  induction fuel generalizing r es with
  | zero => simp [drive] at h
  | succ fuel ih =>
    rw [Nat.add_right_comm]
    cases hl : r.next.event.isLast with
    | true => rw [drive_last hl, ← drive_last hl, h]
    | false =>
      rw [drive_next hl] at h ⊢
      cases es with
      | nil =>
        have he : r.next.event = .eof := (Prod.mk.inj (List.cons.inj h).1).1
        simp [he, Event.isLast] at hl
      | cons m es =>
        obtain ⟨hm, hrest⟩ := List.cons.inj h
        rw [hm, ih hrest]
        rfl

theorem drive_crosses {p : Passage o s} {r' : Reader} (h : Crosses depth p read rest outer r r')
    (fuel : Nat) :
    r.drive (fuel + p.steps) = Tree.eventsOf p.parts ++ (endEvent o, none) :: r'.drive fuel := by
  induction h generalizing fuel with
  | close sp stands event key =>
    rw [Passage.steps, drive_next (event ▸ endEvent_not_last _), event, key]
    rfl
  | token l t tail stands meets onward ih =>
    rw [Passage.steps, ← Nat.add_assoc, drive_next (meets.event ▸ t.event_not_last), ih,
      meets.event, meets.key, Passage.parts, Tree.eventsOf, t.events_tree]
    rfl
  | nested l k inside tail stands meets fits within onward ih1 ih2 =>
    have hfuel : fuel + (inside.steps + tail.steps + 1) =
        fuel + tail.steps + inside.steps + 1 := by omega
    rw [Passage.steps, hfuel, drive_next (meets.event ▸ startEvent_not_last k), ih1, ih2,
      meets.event, meets.key, Passage.parts, Tree.eventsOf, Tree.events]
    simp

theorem drive_eof (sp : Space) (h : r.Stands depth read sp.bytes []) (hf : 0 < fuel) :
    r.drive fuel = [(.eof, none)] := by
  obtain ⟨fuel, rfl⟩ : ∃ n, fuel = n + 1 := ⟨fuel - 1, by omega⟩
  have hnext := next_eof_eq sp h
  rw [drive_last (by rw [hnext]; rfl), hnext]
  rfl

theorem drive_page (p : Page) (hd : p.value.nesting ≤ depth)
    (hf : (p.value.tree.events none).length < fuel) :
    (ofBytes depth p.text).drive fuel = p.value.tree.events none ++ [(.eof, none)] := by
  obtain ⟨before, value, after⟩ := p
  cases value with
  | token t =>
    obtain ⟨hs, hm⟩ := next_first_token depth before t (stops_space after)
    have hevents : (Spelling.token t).tree.events none = [(t.event, none)] := t.events_tree none
    simp only [hevents, List.length_singleton] at hf ⊢
    obtain ⟨fuel, rfl⟩ : ∃ n, fuel = n + 1 := ⟨fuel - 1, by omega⟩
    have hlast : (ofBytes depth (Page.text ⟨before, .token t, after⟩)).next.event.isLast = false :=
      hm.event ▸ t.event_not_last
    rw [drive_next hlast]
    exact congrArg₂ _ (Prod.ext hm.event hm.key) (drive_eof after hs (by omega))
  | nested k inside =>
    have hd : inside.nesting + 1 ≤ depth := hd
    have hf : ((Spelling.nested k inside).tree.events none).length < fuel := hf
    obtain ⟨hs, hm⟩ := next_first_open depth before k (inside.text ++ after.bytes) (by omega)
    obtain ⟨r', hr', hcrosses⟩ := exists_crosses inside hs (by simp only [List.length_nil]; omega)
    have hsteps := inside.steps_eq
    have hlen : ((Spelling.nested k inside).tree.events none).length = inside.steps + 1 := by
      rw [Spelling.tree, Tree.events, hsteps]
      simp
    obtain ⟨f, rfl, hpos⟩ : ∃ f, fuel = f + inside.steps + 1 ∧ 0 < f :=
      ⟨fuel - inside.steps - 1, by omega, by omega⟩
    have htext : Page.text ⟨before, .nested k inside, after⟩ =
        before.bytes ++ openByte k :: (inside.text ++ after.bytes) := by
      simp [Page.text, Spelling.text]
    rw [htext, drive_next (hm.event ▸ startEvent_not_last k), drive_crosses hcrosses,
      drive_eof after hr' hpos, hm.event, hm.key, Spelling.tree, Tree.events]
    simp

theorem drive_empty (sp : Space) (hf : 0 < fuel) :
    ∃ key, (ofBytes depth sp.bytes).drive fuel = [(.eof, key)] := by
  obtain ⟨fuel, rfl⟩ : ∃ n, fuel = n + 1 := ⟨fuel - 1, by omega⟩
  have hnext := @next_empty depth sp
  exact ⟨_, by rw [drive_last (by rw [hnext]; rfl), hnext]⟩

end Reader

end Quarry.Json
