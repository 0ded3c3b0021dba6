import Quarry.Proofs.Json.Token

/-!
What stands before a value inside a container: spaces, the comma and the name with its colon.
-/

namespace Quarry.Json

open Text Reader

structure Space where
  bytes : Bytes
  blank : ∀ b ∈ bytes, Cursor.isSpace b = true

def Space.none : Space := ⟨[], by simp⟩

/-- The name of a member up to its value. -/
structure Label where
  name : Quoted
  before : Space
  after : Space

def Label.text (l : Label) : Bytes :=
  l.name.text ++ (l.before.bytes ++ byte ':' :: l.after.bytes)

/-- All but the first value of a container are led by a comma, and those of objects by a name. -/
structure Lead (isObject started : Bool) where
  space : Space
  comma : Option Space
  label : Option Label
  comma_isSome : comma.isSome = started
  label_isSome : label.isSome = isObject

namespace Lead

variable {o s : Bool}

def text (l : Lead o s) : Bytes :=
  l.space.bytes ++ ((l.comma.elim [] fun sp => byte ',' :: sp.bytes) ++ l.label.elim [] Label.text)

def key (l : Lead o s) : Option String := l.label.map fun b => b.name.value

theorem key_isSome (l : Lead o s) : l.key.isSome = o := by simp [key, l.label_isSome]

end Lead

/-- No space comes first. -/
def Solid (bs : Bytes) : Prop := ∀ b ∈ bs.head?, Cursor.isSpace b = false

theorem solid_cons {b : UInt8} (bs : Bytes) (h : Cursor.isSpace b = false) : Solid (b :: bs) := by
  simpa [Solid] using h

theorem isSpace_of_startsValue {b : UInt8} (h : startsValue b = true) :
    Cursor.isSpace b = false := by
  simp only [startsValue, Bool.and_eq_true, Bool.not_eq_true'] at h
  exact h.1.1.1.1

theorem skipSpace_space (sp : Space) {rest : Bytes} (h : Solid rest) (p : Nat) :
    Cursor.skipSpace ⟨sp.bytes ++ rest, p⟩ = ⟨rest, p + sp.bytes.length⟩ := by
  obtain ⟨bs, hb⟩ := sp
  have hrest : rest.dropWhile Cursor.isSpace = rest ∧ rest.takeWhile Cursor.isSpace = [] := by
    cases rest with
    | nil => simp
    | cons b rest => simp [h b rfl]
  simp only [Cursor.skipSpace, Cursor.dropWhile, Cursor.mk.injEq]
  rw [List.dropWhile_append_of_pos hb, List.takeWhile_append_of_pos hb, hrest.1, hrest.2]
  simp

theorem skipSpace_cases (c : Cursor) :
    ∃ (sp : Space) (rest : Bytes), c.rest = sp.bytes ++ rest ∧ Solid rest ∧
      c.skipSpace = ⟨rest, c.position + sp.bytes.length⟩ := by
  refine ⟨⟨c.rest.takeWhile Cursor.isSpace, List.all_eq_true.1 List.all_takeWhile⟩, _,
    (List.takeWhile_append_dropWhile ..).symm, ?_, rfl⟩
  intro b hb
  have hne := List.head?_dropWhile_not Cursor.isSpace c.rest
  rw [Option.mem_def] at hb
  rw [hb] at hne
  exact hne

namespace Reader

/-- A sound reader that has read some bytes, has others before it, and is inside some containers. -/
structure Stands (r : Reader) (depth : Nat) (read rest : Bytes) (frames : List Frame) : Prop where
  input : r.input = read ++ rest
  cursor : r.cursor = ⟨rest, read.length⟩
  stack : r.stack = frames
  maxDepth : r.maxDepth = depth
  failure : r.failure = none
  rootDone : frames = [] → r.rootDone = true
  fits : frames.length ≤ depth

theorem startsWith_cons {b c : UInt8} {bs : Bytes} {p : Nat} :
    Cursor.startsWith c ⟨b :: bs, p⟩ = (b == c) := rfl

theorem readName_label {r : Reader} (l : Label) {b : UInt8} {bs : Bytes}
    (hb : Cursor.isSpace b = false) (h : r.cursor.rest = l.text ++ b :: bs) :
    r.readName = { r with
      cursor := ⟨b :: bs, r.position + l.text.length⟩
      key := some l.name.value } := by
  obtain ⟨q, before, after⟩ := l
  obtain ⟨input, ⟨rest, p⟩, stack, maxDepth, rootDone, event, key, start, failure, n, m⟩ := r
  simp only at h
  subst h
  have hstart : Cursor.startsWith (byte '"')
      ⟨Label.text ⟨q, before, after⟩ ++ b :: bs, p⟩ = true := by
    simp [Label.text, Quoted.text, startsWith_cons]
  have hscan := scanString_quoted q (before.bytes ++ byte ':' :: (after.bytes ++ b :: bs)) p
  have htext : Label.text ⟨q, before, after⟩ ++ b :: bs =
      q.text ++ (before.bytes ++ byte ':' :: (after.bytes ++ b :: bs)) := by
    simp [Label.text]
  have hcolon := skipSpace_space before
    (solid_cons (after.bytes ++ b :: bs) (show Cursor.isSpace (byte ':') = false by decide))
    (p + q.text.length)
  have hvalue := skipSpace_space after (solid_cons bs hb)
    (p + q.text.length + before.bytes.length + 1)
  have hlen : p + (Label.text ⟨q, before, after⟩).length =
      p + q.text.length + before.bytes.length + 1 + after.bytes.length := by
    simp only [Label.text, List.length_append, List.length_cons]
    omega
  rw [readName, if_pos hstart]
  simp only [htext, hscan, hcolon, startsWith_cons, beq_self_eq_true, ↓reduceIte, Cursor.next_cons,
    hvalue, position, hlen]

theorem readComma_comma {r : Reader} {o : Bool} (sp : Space) {rest : Bytes} (hr : Solid rest)
    (h : r.cursor.rest = byte ',' :: (sp.bytes ++ rest)) :
    r.readComma ⟨o, true⟩ =
      { r with cursor := ⟨rest, r.position + (sp.bytes.length + 1)⟩ } := by
  have hstart : r.cursor.startsWith (byte ',') = true := by simp [Cursor.startsWith, h]
  have hspace := skipSpace_space sp hr (r.cursor.position + 1)
  simp only [readComma, ↓reduceIte, hstart, next_of_rest h, hspace, position, Reader.mk.injEq,
    Cursor.mk.injEq, true_and, and_true]
  omega

theorem byte_close (o s : Bool) : byte (Frame.close ⟨o, s⟩) = closeByte o := by
  cases o <;> rfl

theorem closeByte_ne {b : UInt8} (h : startsValue b = true) (o : Bool) : b ≠ closeByte o := by
  simp only [startsValue, Bool.and_eq_true, bne_iff_ne] at h
  cases o
  · exact h.1.2
  · exact h.2

theorem andThen_of_failure {r : Reader} (h : r.failure = none) (k : Reader → Reader) :
    r.andThen k = k r := by
  rw [andThen, h]

theorem readInside_parts {r : Reader} {comma : Option Space} {label : Option Label} {b : UInt8}
    {bs : Bytes} (outer : List Frame) (hb : startsValue b = true) (hf : r.failure = none)
    (hk : r.key = none)
    (h : r.cursor.rest = (comma.elim [] fun sp => byte ',' :: sp.bytes) ++
      (label.elim [] Label.text ++ b :: bs)) :
    r.readInside ⟨label.isSome, comma.isSome⟩ outer = readValue { r with
      key := label.map fun l => l.name.value
      cursor := ⟨b :: bs, r.position +
        ((comma.elim [] fun sp => byte ',' :: sp.bytes) ++ label.elim [] Label.text).length⟩
      stack := ⟨label.isSome, true⟩ :: outer } := by
  obtain ⟨input, ⟨rest, p⟩, stack, maxDepth, rootDone, event, key, start, failure, n, m⟩ := r
  simp only at hf hk h
  subst hf hk h
  obtain ⟨c, cs, hc, hspace, hclose⟩ : ∃ c cs, label.elim [] Label.text ++ b :: bs = c :: cs ∧
      Cursor.isSpace c = false ∧ ∀ o, c ≠ closeByte o := by
    cases label with
    | none => exact ⟨b, bs, rfl, isSpace_of_startsValue hb, closeByte_ne hb⟩
    | some lb => exact ⟨_, _, rfl, by decide, by decide⟩
  have hvalue (q : Nat) : (if label.isSome then
      andThen (readName ⟨input, ⟨label.elim [] Label.text ++ b :: bs, q⟩,
        ⟨label.isSome, true⟩ :: outer, maxDepth, rootDone, event, none, start, none, n, m⟩) readValue
      else readValue ⟨input, ⟨label.elim [] Label.text ++ b :: bs, q⟩,
        ⟨label.isSome, true⟩ :: outer, maxDepth, rootDone, event, none, start, none, n, m⟩) =
      readValue ⟨input, ⟨b :: bs, q + (label.elim [] Label.text).length⟩,
        ⟨label.isSome, true⟩ :: outer, maxDepth, rootDone, event,
          label.map fun l => l.name.value, start, none, n, m⟩ := by
    cases label with
    | none => rfl
    | some lb =>
      rw [Option.isSome_some, if_pos rfl, readName_label lb (isSpace_of_startsValue hb) rfl]
      rfl
  cases comma with
  | none =>
    rw [readInside, if_neg (by simp), if_neg (by simp [hc, startsWith_cons, byte_close, hclose])]
    simp only [readComma, Option.isSome_none, Bool.false_eq_true, ↓reduceIte]
    rw [andThen_of_failure rfl]
    exact hvalue p
  | some sp =>
    have hne : ∀ o, byte ',' ≠ closeByte o := by decide
    rw [readInside, if_neg (by simp), if_neg (by simp [startsWith_cons, byte_close, hne]),
      Option.isSome_some, readComma_comma sp (hc ▸ solid_cons cs hspace) rfl,
      andThen_of_failure rfl]
    refine (hvalue (p + (sp.bytes.length + 1))).trans ?_
    rw [List.length_append, Nat.add_assoc]
    rfl

/-- Reading on inside a container goes past the lead and reads the value after it. -/
theorem next_lead {r : Reader} {depth : Nat} {read bs : Bytes} {outer : List Frame} {o s : Bool}
    (l : Lead o s) {b : UInt8} (hb : startsValue b = true)
    (h : r.Stands depth read (l.text ++ b :: bs) (⟨o, s⟩ :: outer)) :
    r.next = readValue { r with
      key := l.key
      eventsRead := r.eventsRead + 1
      cursor := ⟨b :: bs, (read ++ l.text).length⟩
      stack := ⟨o, true⟩ :: outer } := by
  obtain ⟨space, comma, label, rfl, rfl⟩ := l
  have hsolid : Solid ((comma.elim [] fun sp => byte ',' :: sp.bytes) ++
      (label.elim [] Label.text ++ b :: bs)) := by
    cases comma with
    | some sp => exact solid_cons _ (by decide)
    | none =>
      cases label with
      | none => exact solid_cons bs (isSpace_of_startsValue hb)
      | some lb => exact solid_cons _ (by decide)
  have hspace := skipSpace_space space hsolid read.length
  rw [next, andThen_of_failure h.failure]
  simp only [h.stack, h.cursor, Lead.text, List.append_assoc, hspace]
  refine (readInside_parts outer hb (by exact h.failure) rfl rfl).trans ?_
  simp only [position, Lead.key, List.length_append, Nat.add_assoc]

/-! ### What a reader meets next inside a container -/

structure Meets (r : Reader) (e : Event) (key : Option String) (start : Nat) : Prop where
  event : r.event = e
  key : r.key = key
  valueStart : r.valueStart = start

def endEvent (isObject : Bool) : Event := if isObject then .objectEnd else .arrayEnd

variable {r : Reader} {depth : Nat} {read rest : Bytes} {outer : List Frame} {o s : Bool}

theorem next_close_eq (sp : Space)
    (h : r.Stands depth read (sp.bytes ++ closeByte o :: rest) (⟨o, s⟩ :: outer)) :
    r.next = finish (endEvent o) { r with
      key := none
      eventsRead := r.eventsRead + 1
      cursor := ⟨rest, read.length + sp.bytes.length + 1⟩
      stack := outer } := by
  have hspace := skipSpace_space sp (solid_cons rest (show Cursor.isSpace (closeByte o) = false by
    cases o <;> decide)) read.length
  rw [next, andThen_of_failure h.failure]
  simp only [h.stack, h.cursor, hspace]
  rw [readInside, if_neg (by simp), if_pos (by simp [startsWith_cons, byte_close]),
    Cursor.next_cons]
  cases o <;> rfl

theorem next_close (sp : Space)
    (h : r.Stands depth read (sp.bytes ++ closeByte o :: rest) (⟨o, s⟩ :: outer)) :
    r.next.Stands depth (read ++ (sp.bytes ++ [closeByte o])) rest outer ∧
      r.next.event = endEvent o := by
  rw [next_close_eq sp h]
  refine ⟨⟨?_, ?_, rfl, h.maxDepth, h.failure, ?_, Nat.le_of_succ_le h.fits⟩, rfl⟩
  · simp [finish, h.input]
  · simp [finish, Nat.add_assoc]
  · intro ho
    simp [finish, ho]

/-- What the reader is when it has passed over the lead of a value. -/
def led (r : Reader) (rest : Bytes) (p : Nat) (key : Option String) (frames : List Frame) : Reader :=
  { r with
    key := key
    eventsRead := r.eventsRead + 1
    cursor := ⟨rest, p⟩
    stack := frames }

theorem stands_passed (l : Lead o s) (t : Token) {p : Nat}
    (h : r.Stands depth read (l.text ++ (t.text ++ rest)) (⟨o, s⟩ :: outer))
    (hp : p = (read ++ l.text).length) :
    let r' := (r.led (t.text ++ rest) p l.key (⟨o, true⟩ :: outer)).passed rest t.text.length t.event
    r'.Stands depth (read ++ (l.text ++ t.text)) rest (⟨o, true⟩ :: outer) ∧
      r'.Meets t.event l.key (read ++ l.text).length := by
  subst hp
  refine ⟨⟨?_, ?_, rfl, h.maxDepth, h.failure, nofun, h.fits⟩, rfl, rfl, rfl⟩
  · simp [passed, finish, led, h.input]
  · simp [passed, finish, led, position, Nat.add_assoc]

theorem stands_entered (l : Lead o s) (k : Bool) {p : Nat} (hd : outer.length + 1 < depth)
    (h : r.Stands depth read (l.text ++ openByte k :: rest) (⟨o, s⟩ :: outer))
    (hp : p = (read ++ l.text).length) :
    let r' := (r.led (openByte k :: rest) p l.key (⟨o, true⟩ :: outer)).entered rest k
    r'.Stands depth (read ++ (l.text ++ [openByte k])) rest (⟨k, false⟩ :: ⟨o, true⟩ :: outer) ∧
      r'.Meets (startEvent k) l.key (read ++ l.text).length := by
  subst hp
  refine ⟨⟨?_, ?_, rfl, h.maxDepth, h.failure, nofun, hd⟩, rfl, rfl, rfl⟩
  · simp [entered, led, h.input]
  · simp [entered, led, position, Nat.add_assoc]

theorem next_token (l : Lead o s) (t : Token) (hr : Stops rest)
    (h : r.Stands depth read (l.text ++ (t.text ++ rest)) (⟨o, s⟩ :: outer)) :
    r.next.Stands depth (read ++ (l.text ++ t.text)) rest (⟨o, true⟩ :: outer) ∧
      r.next.Meets t.event l.key (read ++ l.text).length := by
  obtain ⟨b, bs, hb, hv⟩ := t.head
  have hs : r.Stands depth read (l.text ++ b :: (bs ++ rest)) (⟨o, s⟩ :: outer) := by
    simpa [hb] using h
  have hnext : r.next = (r.led (t.text ++ rest) (read ++ l.text).length l.key
      (⟨o, true⟩ :: outer)).passed rest t.text.length t.event := by
    rw [next_lead l hv hs]
    refine Eq.trans ?_ (readValue_token t rfl hr)
    rw [hb]
    rfl
  rw [hnext]
  exact stands_passed l t h rfl

theorem startsValue_openByte (k : Bool) : startsValue (openByte k) = true := by
  cases k <;> decide

theorem next_open (l : Lead o s) (k : Bool) (hd : outer.length + 1 < depth)
    (h : r.Stands depth read (l.text ++ openByte k :: rest) (⟨o, s⟩ :: outer)) :
    r.next.Stands depth (read ++ (l.text ++ [openByte k])) rest
        (⟨k, false⟩ :: ⟨o, true⟩ :: outer) ∧
      r.next.Meets (startEvent k) l.key (read ++ l.text).length := by
  have hnext : r.next = (r.led (openByte k :: rest) (read ++ l.text).length l.key
      (⟨o, true⟩ :: outer)).entered rest k := by
    rw [next_lead l (startsValue_openByte k) h]
    refine readValue_open rfl ?_
    simpa [h.maxDepth] using hd
  rw [hnext]
  exact stands_entered l k hd h rfl

theorem readName_cases {r : Reader} (h : r.readName.failure = none) :
    ∃ (l : Label) (rest : Bytes), r.cursor.rest = l.text ++ rest ∧ r.readName = { r with
      cursor := ⟨rest, r.position + l.text.length⟩
      key := some l.name.value } := by
  rw [readName] at h ⊢
  split at h
  · rename_i hq
    rw [if_pos hq]
    split at h
    · exact absurd h (failure_fail _ _)
    · rename_i name stop hscan
      obtain ⟨q, rfl, hrest, hpos⟩ := quoted_of_scanString hq hscan
      obtain ⟨before, rest, hbefore, -, hskip⟩ := skipSpace_cases stop
      simp only [hskip] at h
      split at h
      · rename_i hcolon
        obtain ⟨bs, rfl⟩ := startsWith_eq_true hcolon
        obtain ⟨after, rest, hafter, -, hskip'⟩ :=
          skipSpace_cases ⟨bs, stop.position + before.bytes.length + 1⟩
        simp only at hafter
        refine ⟨⟨q, before, after⟩, rest, ?_, ?_⟩
        · rw [hrest, hbefore, hafter]
          simp [Label.text]
        · have hlen : r.position + (Label.text ⟨q, before, after⟩).length =
              stop.position + before.bytes.length + 1 + after.bytes.length := by
            simp only [hpos, position, Label.text, List.length_append, List.length_cons]
            omega
          simp only [hskip, hcolon, ↓reduceIte, Cursor.next_cons, hskip', hlen]
      · exact absurd h (failure_fail _ _)
  · exact absurd h (failure_fail _ _)

theorem readComma_cases {r : Reader} (f : Frame) (h : (r.readComma f).failure = none) :
    ∃ (comma : Option Space) (rest : Bytes), comma.isSome = f.started ∧
      r.cursor.rest = (comma.elim [] fun sp => byte ',' :: sp.bytes) ++ rest ∧
      r.readComma f = { r with
        cursor := ⟨rest, r.position + (comma.elim [] fun sp => byte ',' :: sp.bytes).length⟩ } := by
  rw [readComma] at h ⊢
  split at h
  · rename_i hs
    rw [if_pos hs]
    split at h
    · rename_i hc
      obtain ⟨bs, hbs⟩ := startsWith_eq_true hc
      obtain ⟨sp, rest, hsp, -, hskip⟩ := skipSpace_cases ⟨bs, r.cursor.position + 1⟩
      simp only at hsp
      refine ⟨some sp, rest, by simp [hs], by simp [hbs, hsp], ?_⟩
      rw [if_pos hc, next_of_rest hbs, hskip]
      simp only [Option.elim_some, List.length_cons, position, Nat.add_assoc,
        Nat.add_comm 1 sp.bytes.length]
    · exact absurd h (failure_fail _ _)
  · rename_i hs
    rw [if_neg hs]
    exact ⟨none, r.cursor.rest, by simpa using hs, rfl, rfl⟩

theorem failure_of_andThen {r : Reader} {k : Reader → Reader}
    (h : (r.andThen k).failure = none) : r.failure = none ∧ (k r).failure = none := by
  rw [andThen] at h
  split at h
  · rename_i e he
    simp [he] at h
  · rename_i he
    exact ⟨he, h⟩

/-- A reader that does not fail inside a container meets its end or goes past the lead of a value. -/
theorem next_inside_cases (hs : r.stack = ⟨o, s⟩ :: outer) (hf : r.next.failure = none) :
    (∃ (sp : Space) (rest : Bytes), r.cursor.rest = sp.bytes ++ closeByte o :: rest ∧
      r.next = finish (endEvent o) { r with
        key := none
        eventsRead := r.eventsRead + 1
        cursor := ⟨rest, r.position + sp.bytes.length + 1⟩
        stack := outer }) ∨
    ∃ (l : Lead o s) (rest : Bytes), r.cursor.rest = l.text ++ rest ∧
      r.next =
        (r.led rest (r.position + l.text.length) l.key (⟨o, true⟩ :: outer)).readValue := by
  obtain ⟨hnone, -⟩ := failure_of_andThen hf
  obtain ⟨sp, rest, hsp, -, hskip⟩ := skipSpace_cases r.cursor
  have hnext : r.next = readInside ⟨o, s⟩ outer { r with
      key := none
      eventsRead := r.eventsRead + 1
      cursor := ⟨rest, r.position + sp.bytes.length⟩ } := by
    rw [next, andThen_of_failure hnone]
    simp only [hs, hskip, position]
  rw [hnext] at hf ⊢
  rw [readInside] at hf ⊢
  split at hf
  · exact absurd hf (failure_fail _ _)
  rename_i hne
  rw [if_neg hne]
  split at hf
  · rename_i hc
    obtain ⟨rest', hrest⟩ := startsWith_eq_true hc
    rw [if_pos hc, next_of_rest hrest]
    simp only [byte_close] at hrest
    left
    refine ⟨sp, rest', by rw [hsp, hrest], ?_⟩
    cases o <;> rfl
  rename_i hc
  rw [if_neg hc]
  right
  obtain ⟨hcomma, hf⟩ := failure_of_andThen hf
  rw [andThen_of_failure hcomma]
  obtain ⟨comma, rest1, hsome, hrest1, hread1⟩ := readComma_cases _ hcomma
  simp only at hsome hrest1
  rw [hread1] at hf ⊢
  cases o with
  | false =>
    refine ⟨⟨sp, comma, none, hsome, rfl⟩, rest1, ?_, ?_⟩
    · simp [hsp, hrest1, Lead.text]
    · simp [led, Lead.text, Lead.key, position, Nat.add_assoc]
  | true =>
    simp only [↓reduceIte] at hf ⊢
    obtain ⟨hname, -⟩ := failure_of_andThen hf
    rw [andThen_of_failure hname]
    obtain ⟨label, rest2, hrest2, hread2⟩ := readName_cases hname
    simp only at hrest2
    refine ⟨⟨sp, comma, some label, hsome, rfl⟩, rest2, ?_, ?_⟩
    · simp [hsp, hrest1, hrest2, Lead.text]
    · rw [hread2]
      simp [led, Lead.text, Lead.key, position, Nat.add_assoc]

/-- A reader that does not fail outside all containers comes to the end of the text or to the one
value that it has not read yet. -/
theorem next_outside_cases (hs : r.stack = []) (hf : r.next.failure = none) :
    (∃ sp : Space, r.cursor.rest = sp.bytes ∧ r.next = emit .eof { r with
      key := none
      eventsRead := r.eventsRead + 1
      cursor := ⟨[], r.position + sp.bytes.length⟩
      rootDone := true }) ∨
    ∃ (sp : Space) (rest : Bytes), r.cursor.rest = sp.bytes ++ rest ∧ r.rootDone = false ∧
      r.next = (r.led rest (r.position + sp.bytes.length) none []).readValue := by
  obtain ⟨hnone, -⟩ := failure_of_andThen hf
  obtain ⟨sp, rest, hsp, -, hskip⟩ := skipSpace_cases r.cursor
  rw [next, andThen_of_failure hnone] at hf ⊢
  simp only [hs, hskip, readOutside] at hf ⊢
  cases rest with
  | nil =>
    left
    exact ⟨sp, by simpa using hsp, by simp [position]⟩
  | cons b rest =>
    right
    simp only [List.isEmpty_cons, Bool.false_eq_true, ↓reduceIte] at hf ⊢
    split at hf
    · exact absurd hf (failure_fail _ _)
    · rename_i hdone
      rw [if_neg hdone]
      exact ⟨sp, b :: rest, hsp, by simpa using hdone, rfl⟩

/-- The three things a sound reader can meet next inside a container. -/
theorem next_cases {bs : Bytes} (h : r.Stands depth read bs (⟨o, s⟩ :: outer))
    (hf : r.next.failure = none) :
    (∃ (sp : Space) (rest : Bytes), bs = sp.bytes ++ closeByte o :: rest ∧
      r.next.Stands depth (read ++ (sp.bytes ++ [closeByte o])) rest outer ∧
      r.next.event = endEvent o) ∨
    (∃ (l : Lead o s) (t : Token) (rest : Bytes), bs = l.text ++ (t.text ++ rest) ∧
      r.next.Stands depth (read ++ (l.text ++ t.text)) rest (⟨o, true⟩ :: outer) ∧
      r.next.Meets t.event l.key (read ++ l.text).length) ∨
    ∃ (l : Lead o s) (k : Bool) (rest : Bytes), bs = l.text ++ openByte k :: rest ∧
      outer.length + 1 < depth ∧
      r.next.Stands depth (read ++ (l.text ++ [openByte k])) rest
        (⟨k, false⟩ :: ⟨o, true⟩ :: outer) ∧
      r.next.Meets (startEvent k) l.key (read ++ l.text).length := by
  have hrest : r.cursor.rest = bs := by rw [h.cursor]
  have hposition : r.position = read.length := by rw [position, h.cursor]
  rcases next_inside_cases h.stack hf with ⟨sp, rest, hbs, -⟩ | ⟨l, rest, hbs, hnext⟩
  · obtain rfl := hrest.symm.trans hbs
    exact .inl ⟨sp, rest, rfl, next_close sp h⟩
  right
  obtain rfl := hrest.symm.trans hbs
  rw [hposition, ← List.length_append] at hnext
  rw [hnext] at hf
  rcases readValue_cases hf with ⟨k, rest', hrest, hdepth, hval⟩ | ⟨t, rest', hrest, hval⟩
  · right
    have hrest : rest = openByte k :: rest' := hrest
    have hd : outer.length + 1 < depth := by simpa [led, h.maxDepth] using hdepth
    subst hrest
    exact ⟨l, k, rest', rfl, hd, next_open l k hd h⟩
  · left
    have hrest : rest = t.text ++ rest' := hrest
    subst hrest
    rw [hnext, hval]
    exact ⟨l, t, rest', rfl, stands_passed l t h rfl⟩

end Reader

end Quarry.Json
