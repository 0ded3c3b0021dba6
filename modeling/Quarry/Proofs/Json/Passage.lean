import Quarry.Proofs.Json.Lead

/-!
A text cut into the leads and tokens of its containers. Every text that a reader completes is one,
and a reader completes each of them that is not nested too deep.
-/

namespace Quarry.Json

open Text Reader

/-- The rest of a container, up to its end. -/
inductive Passage : Bool → Bool → Type
  | close {o s : Bool} (space : Space) : Passage o s
  | token {o s : Bool} (lead : Lead o s) (value : Token) (rest : Passage o true) : Passage o s
  | nested {o s : Bool} (lead : Lead o s) (kind : Bool) (inside : Passage kind false)
      (rest : Passage o true) : Passage o s

namespace Passage

def text : {o s : Bool} → Passage o s → Bytes
  | o, _, close sp => sp.bytes ++ [closeByte o]
  | _, _, token l t rest => l.text ++ (t.text ++ rest.text)
  | _, _, nested l k inside rest => l.text ++ (openByte k :: (inside.text ++ rest.text))

/-- How many containers are opened within one another. -/
def nesting : {o s : Bool} → Passage o s → Nat
  | _, _, close _ => 0
  | _, _, token _ _ rest => rest.nesting
  | _, _, nested _ _ inside rest => max (inside.nesting + 1) rest.nesting

/-- How many times a reader has to read on. -/
def steps : {o s : Bool} → Passage o s → Nat
  | _, _, close _ => 1
  | _, _, token _ _ rest => rest.steps + 1
  | _, _, nested _ _ inside rest => inside.steps + rest.steps + 1

theorem steps_le_length {o s : Bool} (p : Passage o s) : p.steps ≤ p.text.length := by
  induction p with
  | close sp => simp [steps, text]
  | token l t rest ih =>
    obtain ⟨b, bs, hb, -⟩ := t.head
    simp only [steps, text, List.length_append, hb, List.length_cons]
    omega
  | nested l k inside rest ih1 ih2 =>
    simp only [steps, text, List.length_append, List.length_cons]
    omega

theorem stops_space (sp : Space) {b : UInt8} (bs : Bytes)
    (hb : isDigitByte b = false ∧ b ≠ byte '.' ∧ b ≠ byte 'e' ∧ b ≠ byte 'E') :
    Stops (sp.bytes ++ b :: bs) := by
  obtain ⟨ss, hs⟩ := sp
  cases ss with
  | nil => exact stops_cons bs hb
  | cons c cs =>
    refine stops_cons _ ?_
    have hc := hs c (by simp)
    simp only [Cursor.isSpace, Bool.or_eq_true, beq_iff_eq] at hc
    rcases hc with ((rfl | rfl) | rfl) | rfl <;> decide

theorem stops_lead {o : Bool} (l : Lead o true) (bs : Bytes) : Stops (l.text ++ bs) := by
  obtain ⟨sp, comma, label, hc, hl⟩ := l
  obtain ⟨c, rfl⟩ := Option.isSome_iff_exists.1 hc
  simp only [Lead.text, Option.elim_some, List.append_assoc, List.cons_append]
  exact stops_space sp _ (by decide)

/-- What follows a value in a container does not continue a number. -/
theorem stops_text {o : Bool} (p : Passage o true) (rest : Bytes) : Stops (p.text ++ rest) := by
  cases p with
  | close sp =>
    simp only [text, List.append_assoc, List.cons_append, List.nil_append]
    exact stops_space sp _ (by cases o <;> decide)
  | token l t p =>
    simp only [text, List.append_assoc]
    exact stops_lead l _
  | nested l k inside p =>
    simp only [text, List.append_assoc]
    exact stops_lead l _

end Passage

/-- A value as it is written. -/
inductive Spelling
  | token (value : Token)
  | nested (kind : Bool) (inside : Passage kind false)

namespace Spelling

def text : Spelling → Bytes
  | token t => t.text
  | nested k inside => openByte k :: inside.text

def nesting : Spelling → Nat
  | token _ => 0
  | nested _ inside => inside.nesting + 1

end Spelling

/-- A value with the spaces around it. -/
structure Page where
  before : Space
  value : Spelling
  after : Space

def Page.text (p : Page) : Bytes := p.before.bytes ++ (p.value.text ++ p.after.bytes)

/-! ### Failing readers -/

namespace Reader

def Sound (r : Reader) : Prop := r.failure = none ∨ r.event = .error

theorem sound_fail (f : Fault) (r : Reader) : (r.fail f).Sound := .inr rfl

theorem sound_scanned {r : Reader} (h : r.failure = none) (s : Scan Event) :
    (r.scanned s).Sound := by
  obtain ⟨a, stop⟩ := s
  cases a with
  | ok e => exact .inl h
  | error f => exact sound_fail _ _

theorem sound_literal {r : Reader} (h : r.failure = none) (word : String) (e : Event) :
    (r.literal word e).Sound := by
  rw [literal]
  split
  · exact .inl h
  · exact sound_fail _ _

theorem sound_openContainer {r : Reader} (h : r.failure = none) (o : Bool) :
    (r.openContainer o).Sound := by
  rw [openContainer]
  split
  · exact sound_fail _ _
  · exact .inl h

theorem sound_readValue {r : Reader} (h : r.failure = none) : r.readValue.Sound := by
  unfold readValue
  simp only
  repeat' split
  all_goals first
    | exact sound_fail _ _
    | exact sound_openContainer (by exact h) _
    | exact sound_scanned (by exact h) _
    | exact sound_literal (by exact h) _ _

theorem sound_readName {r : Reader} (h : r.failure = none) : r.readName.Sound := by
  unfold readName
  simp only
  repeat' split
  all_goals first
    | exact sound_fail _ _
    | exact .inl h

theorem sound_readComma {r : Reader} (h : r.failure = none) (f : Frame) :
    (r.readComma f).Sound := by
  unfold readComma
  repeat' split
  all_goals first
    | exact sound_fail _ _
    | exact .inl h

theorem sound_andThen {r : Reader} (h : r.Sound) {k : Reader → Reader}
    (hk : r.failure = none → (k r).Sound) : (r.andThen k).Sound := by
  rw [andThen]
  split
  · rename_i e he
    exact .inr (h.resolve_left (by simp [he]))
  · rename_i he
    exact hk he

theorem sound_next {r : Reader} (h : r.failure = none) : r.next.Sound := by
  rw [next, andThen_of_failure h]
  simp only
  split
  · unfold readOutside
    split
    · exact .inl h
    · split
      · exact sound_fail _ _
      · exact sound_readValue (by exact h)
  · unfold readInside
    split
    · exact sound_fail _ _
    · split
      · exact .inl h
      · refine sound_andThen (sound_readComma (by exact h) _) fun hc => ?_
        simp only
        split
        · exact sound_andThen (sound_readName (by exact hc)) sound_readValue
        · exact sound_readValue (by exact hc)

/-- Whether a reader comes to the end of its text within so many tokens. -/
def completes : Nat → Reader → Bool
  | 0, _ => false
  | fuel + 1, r =>
    match r.next.event with
    | .eof => true
    | .error => false
    | _ => completes fuel r.next

theorem failure_of_completes {r : Reader} {fuel : Nat} (h : r.failure = none)
    (hc : r.completes fuel = true) : r.next.failure = none := by
  rcases sound_next h with hs | hs
  · exact hs
  · cases fuel with
    | zero => simp [completes] at hc
    | succ fuel => simp [completes, hs] at hc

theorem completes_step {r : Reader} {fuel : Nat} (hc : r.completes (fuel + 1) = true)
    (h : r.next.event.isLast = false) : r.next.completes fuel = true := by
  rw [completes] at hc
  split at hc
  · rename_i he
    simp [he, Event.isLast] at h
  · simp at hc
  · exact hc

/-! ### Reading outside all containers -/

variable {r : Reader} {depth : Nat} {read rest : Bytes} {outer : List Frame} {o s : Bool}

/-- What the reader is before the first value of a text. -/
def begun (depth : Nat) (input rest : Bytes) (p : Nat) : Reader :=
  (ofBytes depth input).led rest p none []

theorem next_begin (depth : Nat) (sp : Space) {rest : Bytes} (hr : Solid rest) (hne : rest ≠ []) :
    (ofBytes depth (sp.bytes ++ rest)).next =
      (begun depth (sp.bytes ++ rest) rest sp.bytes.length).readValue := by
  have hskip := skipSpace_space sp hr 0
  rw [Nat.zero_add] at hskip
  rw [next, andThen_of_failure rfl]
  simp only [ofBytes, Cursor.start, hskip]
  rw [readOutside, if_neg (by simpa using hne)]
  rfl

theorem stands_begun (depth : Nat) (sp : Space) (t : Token) (rest : Bytes) :
    let r := (begun depth (sp.bytes ++ (t.text ++ rest)) (t.text ++ rest) sp.bytes.length).passed
      rest t.text.length t.event
    r.Stands depth (sp.bytes ++ t.text) rest [] ∧ r.Meets t.event none sp.bytes.length := by
  refine ⟨⟨?_, ?_, rfl, rfl, rfl, fun _ => rfl, Nat.zero_le _⟩, rfl, rfl, rfl⟩
  · simp [passed, finish, begun, led, ofBytes]
  · simp [passed, finish, begun, led, position]

theorem next_first_token (depth : Nat) (sp : Space) (t : Token) {rest : Bytes} (hr : Stops rest) :
    let r := (ofBytes depth (sp.bytes ++ (t.text ++ rest))).next
    r.Stands depth (sp.bytes ++ t.text) rest [] ∧ r.Meets t.event none sp.bytes.length := by
  obtain ⟨b, bs, hb, hv⟩ := t.head
  have hsolid : Solid (t.text ++ rest) := by
    rw [hb]
    exact solid_cons _ (isSpace_of_startsValue hv)
  rw [next_begin depth sp hsolid (by simp [hb]), readValue_token t rfl hr]
  exact stands_begun depth sp t rest

theorem next_first_open (depth : Nat) (sp : Space) (k : Bool) (rest : Bytes) (hd : 0 < depth) :
    let r := (ofBytes depth (sp.bytes ++ openByte k :: rest)).next
    r.Stands depth (sp.bytes ++ [openByte k]) rest [⟨k, false⟩] ∧
      r.Meets (startEvent k) none sp.bytes.length := by
  have hsolid := solid_cons rest (isSpace_of_startsValue (startsValue_openByte k))
  rw [next_begin depth sp hsolid (by simp), readValue_open rfl (by exact hd)]
  refine ⟨⟨?_, ?_, rfl, rfl, rfl, nofun, hd⟩, rfl, rfl, rfl⟩
  · simp [entered, begun, led, ofBytes]
  · simp [entered, begun, led, position]

theorem event_first_deep (sp : Space) (k : Bool) (rest : Bytes) :
    (ofBytes 0 (sp.bytes ++ openByte k :: rest)).next.event = .error := by
  have hsolid := solid_cons rest (isSpace_of_startsValue (startsValue_openByte k))
  rw [next_begin 0 sp hsolid (by simp)]
  exact (readValue_deep rfl (by exact Nat.zero_le _)).1

theorem solid_nil : Solid [] := by simp [Solid]

theorem next_eof_eq (sp : Space) (h : r.Stands depth read sp.bytes []) :
    r.next = emit .eof { r with
      key := none
      eventsRead := r.eventsRead + 1
      cursor := ⟨[], read.length + sp.bytes.length⟩
      rootDone := true } := by
  have hskip := skipSpace_space sp solid_nil read.length
  rw [List.append_nil] at hskip
  rw [next, andThen_of_failure h.failure]
  simp only [h.stack, h.cursor, hskip]
  rfl

theorem next_eof (sp : Space) (h : r.Stands depth read sp.bytes []) : r.next.event = .eof := by
  rw [next_eof_eq sp h]
  rfl

theorem next_empty (sp : Space) : (ofBytes depth sp.bytes).next.event = .eof := by
  have hskip := skipSpace_space sp solid_nil 0
  rw [List.append_nil] at hskip
  rw [next, andThen_of_failure rfl]
  simp only [ofBytes, Cursor.start, hskip]
  rfl

/-- Outside all containers only spaces may follow. -/
theorem space_of_next {bs : Bytes} (h : r.Stands depth read bs []) (hf : r.next.failure = none) :
    ∃ sp : Space, bs = sp.bytes := by
  rcases next_outside_cases h.stack hf with ⟨sp, hrest, -⟩ | ⟨sp, rest, -, hdone, -⟩
  · rw [h.cursor] at hrest
    exact ⟨sp, hrest⟩
  · rw [h.rootDone rfl] at hdone
    cases hdone

theorem space_of_completes {bs : Bytes} {fuel : Nat} (h : r.Stands depth read bs [])
    (hc : r.completes fuel = true) : ∃ sp : Space, bs = sp.bytes :=
  space_of_next h (failure_of_completes h.failure hc)

theorem endEvent_not_last (o : Bool) : (endEvent o).isLast = false := by cases o <;> rfl

theorem startEvent_not_last (o : Bool) : (startEvent o).isLast = false := by cases o <;> rfl

/-- The rest of a container that a reader goes through on its way to the end of the text. -/
theorem passage_of_completes {bs : Bytes} {fuel : Nat}
    (h : r.Stands depth read bs (⟨o, s⟩ :: outer)) (hc : r.completes fuel = true) :
    ∃ (p : Passage o s) (rest : Bytes) (fuel' : Nat) (r' : Reader), bs = p.text ++ rest ∧
      outer.length + 1 + p.nesting ≤ depth ∧ fuel' < fuel ∧
      r'.Stands depth (read ++ p.text) rest outer ∧ r'.completes fuel' = true := by
  induction fuel using Nat.strongRecOn generalizing r read bs o s outer with
  | ind fuel ih =>
    have hf := failure_of_completes h.failure hc
    obtain ⟨fuel, rfl⟩ : ∃ n, fuel = n + 1 := by
      cases fuel with
      | zero => simp [completes] at hc
      | succ n => exact ⟨n, rfl⟩
    rcases next_cases h hf with ⟨sp, rest, rfl, hs, he⟩ | ⟨l, t, rest, rfl, hs, hm⟩ |
      ⟨l, k, rest, rfl, hd, hs, hm⟩
    · have hc' := completes_step hc (by rw [he]; exact endEvent_not_last o)
      exact ⟨.close sp, rest, fuel, r.next, by simp [Passage.text], h.fits, by omega, hs, hc'⟩
    · have hc' := completes_step hc (by rw [hm.event]; exact t.event_not_last)
      obtain ⟨p, rest', fuel', r', rfl, hn, hlt, hs', hcr⟩ := ih fuel (by omega) hs hc'
      refine ⟨.token l t p, rest', fuel', r', by simp [Passage.text], hn, by omega, ?_, hcr⟩
      simpa [Passage.text] using hs'
    · have hc' := completes_step hc (by rw [hm.event]; exact startEvent_not_last k)
      obtain ⟨p, rest1, fuel1, r1, rfl, hn1, hlt1, hs1, hc1⟩ := ih fuel (by omega) hs hc'
      obtain ⟨q, rest2, fuel2, r2, rfl, hn2, hlt2, hs2, hc2⟩ := ih fuel1 (by omega) hs1 hc1
      refine ⟨.nested l k p q, rest2, fuel2, r2, by simp [Passage.text], ?_, by omega, ?_, hc2⟩
      · simp only [Passage.nesting, List.length_cons] at hn1 hn2 ⊢
        omega
      · simpa [Passage.text] using hs2

/-! ### Going through a container -/

theorem Stands.next_close {sp : Space}
    (h : r.Stands depth read ((Passage.close sp : Passage o s).text ++ rest) (⟨o, s⟩ :: outer)) :
    r.next.Stands depth (read ++ (Passage.close sp : Passage o s).text) rest outer ∧
      r.next.event = endEvent o ∧ r.next.key = none := by
  have hs : r.Stands depth read (sp.bytes ++ closeByte o :: rest) (⟨o, s⟩ :: outer) := by
    simpa [Passage.text] using h
  obtain ⟨hstands, hevent⟩ := Reader.next_close sp hs
  refine ⟨hstands, hevent, ?_⟩
  rw [next_close_eq sp hs]
  rfl

theorem Stands.next_token {l : Lead o s} {t : Token} {tail : Passage o true}
    (h : r.Stands depth read ((Passage.token l t tail).text ++ rest) (⟨o, s⟩ :: outer)) :
    r.next.Stands depth (read ++ (l.text ++ t.text)) (tail.text ++ rest) (⟨o, true⟩ :: outer) ∧
      r.next.Meets t.event l.key (read ++ l.text).length :=
  Reader.next_token l t (tail.stops_text rest) (by simpa [Passage.text] using h)

/-- The text of a container that is opened within another, and of what follows it. -/
theorem Stands.inside {l : Lead o s} {k : Bool} {p : Passage k false} {tail : Passage o true}
    (h : r.Stands depth read ((Passage.nested l k p tail).text ++ rest) (⟨o, s⟩ :: outer)) :
    r.Stands depth read (l.text ++ openByte k :: (p.text ++ (tail.text ++ rest)))
      (⟨o, s⟩ :: outer) := by
  simpa [Passage.text] using h

theorem Stands.next_open {l : Lead o s} {k : Bool} {p : Passage k false} {tail : Passage o true}
    (h : r.Stands depth read ((Passage.nested l k p tail).text ++ rest) (⟨o, s⟩ :: outer))
    (hd : outer.length + 1 < depth) :
    r.next.Stands depth (read ++ (l.text ++ [openByte k])) (p.text ++ (tail.text ++ rest))
        (⟨k, false⟩ :: ⟨o, true⟩ :: outer) ∧
      r.next.Meets (startEvent k) l.key (read ++ l.text).length :=
  Reader.next_open l k hd h.inside

/-- A reader that reads on, token after token, to the end of the container it is in. -/
inductive Crosses (depth : Nat) :
    {o s : Bool} → Passage o s → Bytes → Bytes → List Frame → Reader → Reader → Prop
  | close {o s : Bool} {read rest : Bytes} {outer : List Frame} {r : Reader} (sp : Space)
      (stands : r.next.Stands depth (read ++ (Passage.close sp : Passage o s).text) rest outer)
      (event : r.next.event = endEvent o) (key : r.next.key = none) :
      Crosses depth (Passage.close sp : Passage o s) read rest outer r r.next
  | token {o s : Bool} {read rest : Bytes} {outer : List Frame} {r r' : Reader} (l : Lead o s)
      (t : Token) (tail : Passage o true)
      (stands : r.next.Stands depth (read ++ (l.text ++ t.text)) (tail.text ++ rest)
        (⟨o, true⟩ :: outer))
      (meets : r.next.Meets t.event l.key (read ++ l.text).length)
      (onward : Crosses depth tail (read ++ (l.text ++ t.text)) rest outer r.next r') :
      Crosses depth (.token l t tail) read rest outer r r'
  | nested {o s : Bool} {read rest : Bytes} {outer : List Frame} {r middle r' : Reader}
      (l : Lead o s) (k : Bool) (inside : Passage k false) (tail : Passage o true)
      (stands : r.next.Stands depth (read ++ (l.text ++ [openByte k]))
        (inside.text ++ (tail.text ++ rest)) (⟨k, false⟩ :: ⟨o, true⟩ :: outer))
      (meets : r.next.Meets (startEvent k) l.key (read ++ l.text).length)
      (fits : outer.length + 2 + inside.nesting ≤ depth)
      (within : Crosses depth inside (read ++ (l.text ++ [openByte k])) (tail.text ++ rest)
        (⟨o, true⟩ :: outer) r.next middle)
      (onward : Crosses depth tail (read ++ (l.text ++ [openByte k]) ++ inside.text) rest outer
        middle r') :
      Crosses depth (.nested l k inside tail) read rest outer r r'

/-- A container that is not nested too deep is read to its end. -/
theorem exists_crosses (p : Passage o s)
    (h : r.Stands depth read (p.text ++ rest) (⟨o, s⟩ :: outer))
    (hd : outer.length + 1 + p.nesting ≤ depth) :
    ∃ r' : Reader, r'.Stands depth (read ++ p.text) rest outer ∧
      Crosses depth p read rest outer r r' := by
  induction p generalizing r read rest outer with
  | close sp =>
    obtain ⟨hstands, hevent, hkey⟩ := h.next_close
    exact ⟨r.next, hstands, .close sp hstands hevent hkey⟩
  | token l t tail ih =>
    obtain ⟨hstands, hmeets⟩ := h.next_token
    obtain ⟨r', hr', honward⟩ := ih hstands hd
    exact ⟨r', by simpa [Passage.text] using hr', .token l t tail hstands hmeets honward⟩
  | nested l k inside tail ih1 ih2 =>
    simp only [Passage.nesting] at hd
    obtain ⟨hstands, hmeets⟩ := h.next_open (by omega)
    obtain ⟨middle, hmiddle, hwithin⟩ := ih1 hstands (by simp only [List.length_cons]; omega)
    obtain ⟨r', hr', honward⟩ := ih2 hmiddle (by omega)
    exact ⟨r', by simpa [Passage.text] using hr',
      .nested l k inside tail hstands hmeets (by omega) hwithin honward⟩

/-- The first token that is read, unless there is none. -/
theorem next_first_cases {input : Bytes} (hf : (ofBytes depth input).next.failure = none) :
    (∃ sp : Space, input = sp.bytes) ∨
      (∃ (sp : Space) (t : Token) (rest : Bytes), input = sp.bytes ++ (t.text ++ rest) ∧
        (ofBytes depth input).next.Stands depth (sp.bytes ++ t.text) rest [] ∧
        (ofBytes depth input).next.Meets t.event none sp.bytes.length) ∨
      ∃ (sp : Space) (k : Bool) (rest : Bytes), input = sp.bytes ++ openByte k :: rest ∧
        (ofBytes depth input).next.Stands depth (sp.bytes ++ [openByte k]) rest [⟨k, false⟩] ∧
        (ofBytes depth input).next.Meets (startEvent k) none sp.bytes.length := by
  rcases next_outside_cases rfl hf with ⟨sp, hinput, -⟩ | ⟨sp, rest, hinput, -, hnext⟩
  · exact .inl ⟨sp, hinput⟩
  right
  obtain rfl : input = sp.bytes ++ rest := hinput
  rw [hnext] at hf
  rcases readValue_cases hf with ⟨k, rest', hrest, hd, -⟩ | ⟨t, rest', hrest, hval⟩
  · right
    obtain rfl : rest = openByte k :: rest' := hrest
    exact ⟨sp, k, rest', rfl, next_first_open depth sp k rest' hd⟩
  · left
    obtain rfl : rest = t.text ++ rest' := hrest
    have hnext' : (ofBytes depth (sp.bytes ++ (t.text ++ rest'))).next =
        (begun depth (sp.bytes ++ (t.text ++ rest')) (t.text ++ rest') sp.bytes.length).passed
          rest' t.text.length t.event := by
      rw [begun, ← Nat.zero_add sp.bytes.length]
      exact hnext.trans hval
    rw [hnext']
    exact ⟨sp, t, rest', rfl, stands_begun depth sp t rest'⟩

/-- A reader that comes to the end of a text has read spaces alone, or a value between spaces. -/
theorem page_of_completes {input : Bytes} {fuel : Nat}
    (hc : (ofBytes depth input).completes fuel = true) :
    (∃ sp : Space, input = sp.bytes) ∨
      ∃ p : Page, input = p.text ∧ p.value.nesting ≤ depth := by
  have hf := failure_of_completes rfl hc
  obtain ⟨fuel, rfl⟩ : ∃ n, fuel = n + 1 := by
    cases fuel with
    | zero => simp [completes] at hc
    | succ n => exact ⟨n, rfl⟩
  rcases next_first_cases hf with hsp | ⟨sp, t, rest, rfl, hs, hm⟩ | ⟨sp, k, rest, rfl, hs, hm⟩
  · exact .inl hsp
  · have hc' := completes_step hc (by rw [hm.event]; exact t.event_not_last)
    obtain ⟨after, rfl⟩ := space_of_completes hs hc'
    exact .inr ⟨⟨sp, .token t, after⟩, by simp [Page.text, Spelling.text], Nat.zero_le _⟩
  · right
    have hc' := completes_step hc (by rw [hm.event]; exact startEvent_not_last k)
    obtain ⟨p, rest', fuel', r', rfl, hn, -, hs', hc''⟩ := passage_of_completes hs hc'
    obtain ⟨after, rfl⟩ := space_of_completes hs' hc''
    refine ⟨⟨sp, .nested k p, after⟩, by simp [Page.text, Spelling.text], ?_⟩
    simp only [Spelling.nesting, List.length_nil] at hn ⊢
    omega

end Reader

end Quarry.Json
