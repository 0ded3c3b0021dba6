import Quarry.Proofs.Document.Reading
import Quarry.Proofs.Json.Escapes
import Quarry.Proofs.Json.Figures

/-!
A JSON value as it is printed is a spelling of it.
-/

namespace Quarry

open Json Json.Reader Text

namespace Json

/-- What the text of a number is read as; what is not finite is printed as null. -/
def Number.atom : Number → Atom
  | .int n => Building.numberAtom (toString n) true
  | .float x => if x.isFinite then Building.numberAtom (numberLayout.finite x) false else .null

end Json

mutual

def Content.ofJson : Value → Content
  | .null => .atom .null
  | .bool b => .atom (.bool b)
  | .number n => .atom n.atom
  | .string s => .atom (.string s)
  | .array vs => .array (Content.ofJsonItems vs)
  | .object ms => .group true (Content.ofJsonMembers ms)

def Content.ofJsonItems : List Value → List Content
  | [] => []
  | v :: vs => Content.ofJson v :: Content.ofJsonItems vs

def Content.ofJsonMembers : List (String × Value) → List (String × Content)
  | [] => []
  | (k, v) :: ms => (k, Content.ofJson v) :: Content.ofJsonMembers ms

end

namespace Json

/-- No object repeats a name. -/
inductive Value.Distinct : Value → Prop
  | null : Distinct .null
  | bool (b : Bool) : Distinct (.bool b)
  | number (n : Number) : Distinct (.number n)
  | string (s : String) : Distinct (.string s)
  | array {items : List Value} (all : ∀ v ∈ items, Distinct v) : Distinct (.array items)
  | object {ms : List (String × Value)} (nodup : (names ms).Nodup) (all : ∀ m ∈ ms, Distinct m.2) :
      Distinct (.object ms)

theorem ofJsonItems_eq_map (vs : List Value) :
    Content.ofJsonItems vs = vs.map Content.ofJson := by
  induction vs with
  | nil => rfl
  | cons v vs ih => simp [Content.ofJsonItems, ih]

theorem ofJsonMembers_eq_map (ms : List (String × Value)) :
    Content.ofJsonMembers ms = ms.map fun m => (m.1, Content.ofJson m.2) := by
  induction ms with
  | nil => rfl
  | cons m ms ih => simp [Content.ofJsonMembers, ih]

theorem Value.Distinct.valid {v : Value} (h : v.Distinct) : (Content.ofJson v).Valid := by
  induction h with
  | null => exact .atom _
  | bool b => exact .atom _
  | number n => exact .atom _
  | string s => exact .atom _
  | array all ih =>
    rw [Content.ofJson, ofJsonItems_eq_map]
    apply Content.Valid.array
    intro c hc
    obtain ⟨v, hv, rfl⟩ := List.mem_map.1 hc
    exact ih v hv
  | object nodup all ih =>
    rw [Content.ofJson, ofJsonMembers_eq_map]
    refine .group (by rwa [names_map]) nofun ?_
    intro m hm
    obtain ⟨n, hn, rfl⟩ := List.mem_map.1 hm
    exact ih n hn

/-! ### Containers without spaces -/

/-- The lead of a value without spaces; elements have no name. -/
def Lead.compact (o s : Bool) (q : Quoted) : Lead o s where
  space := Space.none
  comma := if s then some Space.none else none
  label := if o then some ⟨q, Space.none, Space.none⟩ else none
  comma_isSome := by cases s <;> rfl
  label_isSome := by cases o <;> rfl

theorem Lead.text_compact (o s : Bool) (q : Quoted) :
    (Lead.compact o s q).text =
      (if s then [byte ','] else []) ++ if o then q.text ++ [byte ':'] else [] := by
  cases o <;> cases s <;> simp [compact, text, Label.text, Space.none]

theorem Lead.name_compact (o s : Bool) (q : Quoted) (i : Nat) :
    (Lead.compact o s q).name i = if o then q.value else toString i := by
  cases o <;> rfl

namespace Passage

/-- A value before the rest of a container. -/
def cons {o s : Bool} (l : Lead o s) (v : Spelling) (rest : Passage o true) : Passage o s :=
  match v with
  | .token t => .token l t rest
  | .nested k inside => .nested l k inside rest

variable {o s : Bool} (l : Lead o s) (v : Spelling) (rest : Passage o true)

theorem text_cons : (cons l v rest).text = l.text ++ (v.text ++ rest.text) := by
  cases v <;> simp [cons, text, Spelling.text]

theorem members_cons (i : Nat) :
    (cons l v rest).members i = (l.name i, v.content) :: rest.members (i + 1) := by
  cases v <;> rfl

end Passage

/-! ### Values -/

theorem exists_token_number {cs : List Char} {b : Bool} (h : Written cs b) :
    ∃ v : Spelling, v.text = encoded cs ∧
      v.content = .atom (Building.numberAtom (String.ofList cs) b) := by
  have hchars : (cs.map byte).map charOfByte = cs := by
    rw [List.map_map]
    exact (List.map_congr_left fun c hc => charOfByte_byte (h.ascii c hc)).trans (List.map_id cs)
  have hspells : Spells (cs.map byte) (.number (String.ofList cs) b) := by
    have hs := Spells.number h.figure
    rwa [hchars] at hs
  exact ⟨.token ⟨_, _, hspells⟩, (encoded_ascii h.ascii).symm, rfl⟩

theorem exists_spelling_number (n : Number) :
    ∃ v : Spelling, v.text = encoded n.text.toList ∧ v.content = .atom n.atom := by
  cases n with
  | int z =>
    have h := exists_token_number (written_int z)
    rwa [String.ofList_toList] at h
  | float x =>
    rw [Number.text, Number.atom]
    split
    · have h := exists_token_number (written_finite numberLayout x)
      rwa [String.ofList_toList] at h
    · exact ⟨.token ⟨_, _, .null⟩, by decide, rfl⟩

theorem exists_spelling_string (s : String) :
    ∃ v : Spelling, v.text = encoded (Printer.string s) ∧ v.content = .atom (.string s) :=
  ⟨.token ⟨_, _, .string (escaping_printer.quoted s)⟩, text_quoted_printer s, rfl⟩

theorem utf8EncodeChar_comma : String.utf8EncodeChar ',' = [byte ','] := rfl

theorem utf8EncodeChar_colon : String.utf8EncodeChar ':' = [byte ':'] := rfl

mutual

/-- The printed text of a value spells the value. -/
theorem exists_spelling : (v : Value) →
    ∃ q : Spelling, q.text = encoded (Printer.value v) ∧ q.content = Content.ofJson v
  | .null => ⟨.token ⟨_, _, .null⟩, by decide, rfl⟩
  | .bool true => ⟨.token ⟨_, _, .true⟩, by decide, rfl⟩
  | .bool false => ⟨.token ⟨_, _, .false⟩, by decide, rfl⟩
  | .number n => exists_spelling_number n
  | .string s => exists_spelling_string s
  | .array [] => ⟨.nested false (.close Space.none), by decide, rfl⟩
  | .array (v :: vs) => by
    obtain ⟨q, hq, hqc⟩ := exists_spelling v
    obtain ⟨p, hp, hpc⟩ := exists_passage_items vs
    refine ⟨.nested false (.cons (.compact false false (escaping_printer.quoted "")) q p), ?_, ?_⟩
    · rw [Spelling.text, Passage.text_cons, Lead.text_compact, hq, hp, Printer.value,
        List.cons_append, encoded_cons, encoded_append]
      rfl
    · rw [Spelling.content, Passage.members_cons, hqc, hpc, Lead.name_compact]
      rfl
  | .object [] => ⟨.nested true (.close Space.none), by decide, rfl⟩
  | .object ((k, v) :: ms) => by
    obtain ⟨q, hq, hqc⟩ := exists_spelling v
    obtain ⟨p, hp, hpc⟩ := exists_passage_members ms
    refine ⟨.nested true (.cons (.compact true false (escaping_printer.quoted k)) q p), ?_, ?_⟩
    · have hopen : String.utf8EncodeChar '\x7b' = [openByte true] := rfl
      rw [Spelling.text, Passage.text_cons, Lead.text_compact, hq, hp, text_quoted_printer,
        Printer.value]
      simp [encoded_append, encoded_cons, hopen, utf8EncodeChar_colon]
    · rw [Spelling.content, Passage.members_cons, hqc, hpc, Lead.name_compact]
      rfl

theorem exists_passage_items : (vs : List Value) →
    ∃ p : Passage false true, p.text = encoded (Printer.items vs) ∧
      ∀ i, p.members i = numbered i (Content.ofJsonItems vs)
  | [] => ⟨.close Space.none, by decide, fun _ => rfl⟩
  | v :: vs => by
    obtain ⟨q, hq, hqc⟩ := exists_spelling v
    obtain ⟨p, hp, hpc⟩ := exists_passage_items vs
    refine ⟨.cons (.compact false true (escaping_printer.quoted "")) q p, ?_, fun i => ?_⟩
    · rw [Passage.text_cons, Lead.text_compact, hq, hp, Printer.items]
      simp [encoded_append, encoded_cons, utf8EncodeChar_comma]
    · rw [Passage.members_cons, hqc, hpc, Lead.name_compact]
      rfl

theorem exists_passage_members : (ms : List (String × Value)) →
    ∃ p : Passage true true, p.text = encoded (Printer.members ms) ∧
      ∀ i, p.members i = Content.ofJsonMembers ms
  | [] => ⟨.close Space.none, by decide, fun _ => rfl⟩
  | (k, v) :: ms => by
    obtain ⟨q, hq, hqc⟩ := exists_spelling v
    obtain ⟨p, hp, hpc⟩ := exists_passage_members ms
    refine ⟨.cons (.compact true true (escaping_printer.quoted k)) q p, ?_, fun i => ?_⟩
    · rw [Passage.text_cons, Lead.text_compact, hq, hp, text_quoted_printer, Printer.members]
      simp [encoded_append, encoded_cons, utf8EncodeChar_comma, utf8EncodeChar_colon]
    · rw [Passage.members_cons, hqc, hpc, Lead.name_compact]
      rfl

end

/-- The text of a value holds it, in compact form. -/
theorem spelling_text (v : Value) :
    ∃ q : Spelling, q.text = bytes v.text ∧ q.content = Content.ofJson v := by
  obtain ⟨q, hq, hc⟩ := exists_spelling v
  exact ⟨q, by rw [hq, Value.text, bytes_ofList], hc⟩

end Json

end Quarry
