import Quarry.Proofs.Document.Printing
import Quarry.Proofs.Json.Grammar
import Quarry.Proofs.Json.Utf8

/-!
The texts of the grammar, with a plus sign allowed in escapes, are those that are cut into the
pieces a reader meets.
-/

namespace Quarry.Json

open Text Reader

/-! ### Hexadecimal digits -/

theorem hexValue?_digits : ∀ v < 16, hexValue? (byte (Nat.digitChar v)) = some v ∧
    hexValue? (byte (Nat.digitChar v).toUpper) = some v := by
  decide

set_option maxRecDepth 3000 in
theorem hexValue?_bytes : ∀ n < 256, (hexValue? (UInt8.ofNat n)).all
    (fun v => decide (v < 16 ∧ (UInt8.ofNat n = byte (Nat.digitChar v) ∨
      UInt8.ofNat n = byte (Nat.digitChar v).toUpper))) := by
  decide

theorem hexValue?_eq_some_iff {b : UInt8} {v : Nat} : hexValue? b = some v ↔ Hex b v := by
  constructor
  · intro h
    have hb := hexValue?_bytes b.toNat b.toNat_lt
    rw [UInt8.ofNat_toNat, h, Option.all_some, decide_eq_true_eq] at hb
    obtain ⟨hv, rfl | rfl⟩ := hb
    · exact .lower hv
    · exact .upper hv
  · rintro (hv | hv)
    · exact (hexValue?_digits v hv).1
    · exact (hexValue?_digits v hv).2

theorem Hex.lt {b : UInt8} {v : Nat} (h : Hex b v) : v < 16 := by
  cases h <;> assumption

theorem not_hex_plus {v : Nat} : ¬Hex (byte '+') v := by
  rw [← hexValue?_eq_some_iff]
  simp [show hexValue? (byte '+') = none by decide]

theorem hexNumber?_cons_cons {bs : Bytes} {b : UInt8} {m n : Nat} :
    List.foldlM (fun n b => (hexValue? b).map (16 * n + ·)) m (b :: bs) = some n ↔
      ∃ v, Hex b v ∧
        List.foldlM (fun n b => (hexValue? b).map (16 * n + ·)) (16 * m + v) bs = some n := by
  rw [List.foldlM_cons]
  constructor
  · intro h
    obtain ⟨k, hk, h⟩ := Option.bind_eq_some_iff.1 h
    obtain ⟨v, hv, rfl⟩ := Option.map_eq_some_iff.1 hk
    exact ⟨v, hexValue?_eq_some_iff.1 hv, h⟩
  · rintro ⟨v, hv, h⟩
    rw [hexValue?_eq_some_iff.2 hv]
    exact h

theorem hexNumber?_four {a b c d : UInt8} {n : Nat} :
    hexNumber? [a, b, c, d] = some n ↔ Hex4 [a, b, c, d] n := by
  simp only [hexNumber?, hexNumber?_cons_cons, List.foldlM_nil, pure, Option.some.injEq]
  constructor
  · rintro ⟨w, hw, x, hx, y, hy, z, hz, rfl⟩
    convert Hex4.make hw hx hy hz using 1
    omega
  · intro h
    cases h with
    | make hw hx hy hz => exact ⟨_, hw, _, hx, _, hy, _, hz, by omega⟩

theorem hexNumber?_three {b c d : UInt8} {n : Nat} :
    hexNumber? [b, c, d] = some n ↔
      ∃ x y z, Hex b x ∧ Hex c y ∧ Hex d z ∧ n = 256 * x + 16 * y + z := by
  simp only [hexNumber?, hexNumber?_cons_cons, List.foldlM_nil, pure, Option.some.injEq]
  constructor
  · rintro ⟨x, hx, y, hy, z, hz, rfl⟩
    exact ⟨x, y, z, hx, hy, hz, by omega⟩
  · rintro ⟨x, y, z, hx, hy, hz, rfl⟩
    exact ⟨x, hx, y, hy, z, hz, by omega⟩

theorem hex4?_eq_some_iff {a b c d : UInt8} {n : Nat} :
    hex4? a b c d = some n ↔ SignedHex4 [a, b, c, d] n := by
  rw [hex4?]
  split
  · rename_i ha
    subst ha
    rw [hexNumber?_three]
    constructor
    · rintro ⟨x, y, z, hx, hy, hz, rfl⟩
      exact .plus hx hy hz
    · intro h
      cases h with
      | plain h =>
        cases h with
        | make hw _ _ _ => exact absurd hw not_hex_plus
      | plus hx hy hz => exact ⟨_, _, _, hx, hy, hz, rfl⟩
  · rename_i ha
    rw [hexNumber?_four]
    refine ⟨.plain, fun h => ?_⟩
    cases h with
    | plain h => exact h
    | plus _ _ _ => exact absurd rfl ha

theorem SignedHex4.exists_four {q : Bytes} {n : Nat} (h : SignedHex4 q n) :
    ∃ a b c d, q = [a, b, c, d] ∧ hex4? a b c d = some n := by
  have hq : ∃ a b c d, q = [a, b, c, d] := by
    cases h with
    | plain h =>
      cases h with
      | make => exact ⟨_, _, _, _, rfl⟩
    | plus => exact ⟨_, _, _, _, rfl⟩
  obtain ⟨a, b, c, d, rfl⟩ := hq
  exact ⟨a, b, c, d, rfl, hex4?_eq_some_iff.2 h⟩

theorem SignedHex4.lt {q : Bytes} {n : Nat} (h : SignedHex4 q n) : n < 0x10000 := by
  cases h with
  | plain h =>
    cases h with
    | make ha hb hc hd =>
      have := ha.lt
      have := hb.lt
      have := hc.lt
      have := hd.lt
      omega
  | plus hb hc hd =>
    have := hb.lt
    have := hc.lt
    have := hd.lt
    omega

/-- A plus sign where an escape has its first digit is what the two notations differ in. -/
theorem covers_of_no_plus {bs : Bytes} (h : ¬unicodeMark ++ [byte '+'] <:+: bs) :
    Covers SignedHex4 Hex4 bs := by
  intro q n hq hi
  cases hq with
  | plain h => exact h
  | @plus b c d x y z hb hc hd =>
    refine absurd (List.IsInfix.trans ?_ hi) h
    exact ⟨[], [b, c, d], rfl⟩

theorem covers_plain (bs : Bytes) : Covers Hex4 SignedHex4 bs := fun _ _ h _ => .plain h

/-! ### Strings -/

theorem toNat_ofNat {n : Nat} (h : n < 0xD800 ∨ 0xDFFF < n ∧ n < 0x110000) :
    (Char.ofNat n).toNat = n := by
  have hv : n.isValidChar := h
  rw [Char.ofNat, dif_pos hv]
  rfl

theorem escapes_simple : ∀ p ∈ escapes, simpleEscape? (byte p.1) = some p.2 := by decide

theorem exists_escape {e : UInt8} {c : Char} (h : simpleEscape? e = some c) :
    ∃ d, e = byte d ∧ (d, c) ∈ escapes := by
  simp only [simpleEscape?] at h
  repeat' split at h
  all_goals first
    | (subst e; exact ⟨_, rfl, by rw [← Option.some.inj h]; decide⟩)
    | simp at h

theorem Letter.glyphs {c : Char} {t : Bytes} (h : Letter SignedHex4 c t) :
    Glyphs t (encoded [c]) := by
  cases h with
  | plain hq hs hlow =>
    have hg := glyphs_encoded hq hs (by omega)
    simpa [encoded] using hg
  | @simple e _ h =>
    rw [encoded_singleton]
    exact (Glyph.simple (escapes_simple _ h)).single
  | unicode h =>
    obtain ⟨a, b, c', d, rfl, hn⟩ := h.exists_four
    have hvalid : c.toNat < 0xD800 ∨ 0xDFFF < c.toNat ∧ c.toNat < 0x110000 := c.valid
    have hg := (Glyph.unicode hn (by simp [isHighSurrogate]; omega)
      (by simp [isLowSurrogate]; omega)).single
    rwa [Char.ofNat_toNat, ← encoded_singleton] at hg
  | @pair _ _ _ high low h h' hh hl hn =>
    obtain ⟨a, b, c', d, rfl, hhigh⟩ := h.exists_four
    obtain ⟨e, f, g, i, rfl, hlow⟩ := h'.exists_four
    have hc : ofSurrogates high low = c := by
      rw [ofSurrogates, ← hn, Char.ofNat_toNat]
    have hg := (Glyph.pair hhigh (by simp [isHighSurrogate]; omega) hlow
      (by simp [isLowSurrogate]; omega)).single
    rwa [hc, ← encoded_singleton] at hg

theorem Letters.glyphs {cs : List Char} {t : Bytes} (h : Letters SignedHex4 cs t) :
    Glyphs t (encoded cs) := by
  induction h with
  | nil => exact .nil
  | cons h _ ih =>
    have hg := h.glyphs.append ih
    rwa [← encoded_append] at hg

/-- A glyph is a byte that stands for itself, or an escape. -/
theorem Glyph.cases_letter {t u : Bytes} (h : Glyph t u) :
    (∃ b, t = [b] ∧ u = [b] ∧ b ≠ byte '"' ∧ b ≠ byte '\\' ∧ ¬b < 0x20) ∨
      ∃ c, u = String.utf8EncodeChar c ∧ Letter SignedHex4 c t := by
  cases h with
  | plain hq hs hc => exact .inl ⟨_, rfl, rfl, hq, hs, hc⟩
  | simple he =>
    obtain ⟨d, rfl, hd⟩ := exists_escape he
    exact .inr ⟨_, bytes_toString _, .simple hd⟩
  | unicode hn hh hl =>
    refine .inr ⟨_, bytes_toString _, .unicode ?_⟩
    have hcode := hex4?_eq_some_iff.1 hn
    have hlt := hcode.lt
    simp only [isHighSurrogate, isLowSurrogate, Bool.and_eq_false_iff, decide_eq_false_iff_not]
      at hh hl
    rwa [toNat_ofNat (by omega)]
  | pair hn hh hm hl =>
    simp only [isHighSurrogate, isLowSurrogate, Bool.and_eq_true, decide_eq_true_eq] at hh hl
    refine .inr ⟨_, bytes_toString _, .pair (hex4?_eq_some_iff.1 hn) (hex4?_eq_some_iff.1 hm) hh hl
      ?_⟩
    rw [ofSurrogates, toNat_ofNat (by omega)]

theorem letter_of_first {c : Char} {b : UInt8} {bs : Bytes}
    (hc : String.utf8EncodeChar c = b :: bs) (hq : b ≠ byte '"') (hs : b ≠ byte '\\')
    (hlow : ¬b < 0x20) : Letter SignedHex4 c (b :: bs) := by
  have hfirst {d : Char} (hd : d.toNat < 128) (h : c = d) : b = byte d := by
    rw [h, utf8EncodeChar_ascii hd] at hc
    exact (List.cons.inj hc).1.symm
  rw [← hc]
  refine .plain (fun h => hq (hfirst (by decide) h)) (fun h => hs (hfirst (by decide) h)) ?_
  by_contra hlt
  have hb := hfirst (d := c) (by omega) rfl
  apply hlow
  rw [hb, UInt8.lt_iff_toNat_lt, toNat_byte (by omega)]
  exact Nat.lt_of_not_le hlt

/-- What stands for characters is made of letters. -/
theorem Glyphs.letters {t : Bytes} {cs : List Char} (h : Glyphs t (encoded cs)) :
    Letters SignedHex4 cs t := by
  obtain ⟨ts, rfl, hall⟩ := h.exists_forall₂ (R := Letter SignedHex4)
    (fun {t u} hglyph => by
      rcases hglyph.cases_letter with ⟨b, rfl, rfl, hq, hs, hlow⟩ | ⟨c, rfl, hletter⟩
      · exact .inl ⟨b, rfl, rfl, fun c bs hc => letter_of_first hc hq hs hlow⟩
      · exact .inr ⟨c, rfl, hletter⟩)
    (by simp) (List.nil_append (encoded cs)).symm
  rw [List.nil_append]
  clear h
  induction hall with
  | nil => exact .nil
  | cons hletter _ ih => exact .cons hletter ih

theorem stringText_iff {s : String} {t : Bytes} :
    StringText SignedHex4 s t ↔ ∃ q : Quoted, q.text = t ∧ q.value = s := by
  constructor
  · rintro ⟨inner, h, rfl⟩
    exact ⟨⟨inner, s, by rw [bytes_eq]; exact h.glyphs⟩, rfl, rfl⟩
  · rintro ⟨q, rfl, rfl⟩
    exact ⟨q.inner, (bytes_eq q.value ▸ q.spells).letters, rfl⟩

/-! ### Values -/

/-- A token as a tree. -/
def Token.tree (t : Token) : Tree :=
  match t.event with
  | .bool b => .bool b
  | .number text i => .number text i
  | .string s => .string s
  | _ => .null

/-- The members or elements up to the end of a container. -/
def Passage.parts : {o s : Bool} → Passage o s → List (Option String × Tree)
  | _, _, .close _ => []
  | _, _, .token l t rest => (l.key, t.tree) :: rest.parts
  | _, _, .nested l k inside rest => (l.key, .group k inside.parts) :: rest.parts

def Spelling.tree : Spelling → Tree
  | .token t => t.tree
  | .nested k inside => .group k inside.parts

theorem Passage.parts_cons {o s : Bool} (l : Lead o s) (v : Spelling) (rest : Passage o true) :
    (cons l v rest).parts = (l.key, v.tree) :: rest.parts := by
  cases v <;> rfl

theorem Token.nesting_tree (t : Token) : t.tree.nesting = 0 := by
  obtain ⟨text, event, h⟩ := t
  cases h <;> rfl

theorem Passage.nestingOf_parts {o s : Bool} (p : Passage o s) :
    Tree.nesting.nestingOf p.parts = p.nesting := by
  induction p with
  | close sp => rfl
  | token l t rest ih =>
    rw [parts, Tree.nesting.nestingOf, t.nesting_tree, ih, nesting, Nat.zero_max]
  | nested l k inside rest ih1 ih2 =>
    rw [parts, Tree.nesting.nestingOf, Tree.nesting, ih1, ih2, nesting]

theorem Spelling.nesting_tree (v : Spelling) : v.tree.nesting = v.nesting := by
  cases v with
  | token t => exact t.nesting_tree
  | nested k inside => rw [tree, Tree.nesting, inside.nestingOf_parts, nesting]

def Blank.space {ws : Bytes} (h : Blank ws) : Space := ⟨ws, h⟩

/-- What stands before a member or element: nothing before the first, a comma before others. -/
inductive Opening : Bool → Bytes → Prop
  | first : Opening false []
  | later {ws : Bytes} (h : Blank ws) : Opening true (ws ++ [byte ','])

theorem exists_label {o : Bool} {k : Option String} {name : Bytes}
    (h : NameText SignedHex4 o k name) :
    ∃ label : Option Label, label.isSome = o ∧ label.elim [] Label.text = name ∧
      label.map (fun l => l.name.value) = k := by
  cases h with
  | element => exact ⟨none, rfl, rfl, rfl⟩
  | member h hb ha =>
    obtain ⟨q, rfl, rfl⟩ := stringText_iff.1 h
    exact ⟨some ⟨q, hb.space, ha.space⟩, rfl, rfl, rfl⟩

theorem nameText_label {o : Bool} (label : Option Label) (h : label.isSome = o) :
    NameText SignedHex4 o (label.map fun l => l.name.value) (label.elim [] Label.text) := by
  subst h
  cases label with
  | none => exact .element
  | some l => exact .member (stringText_iff.2 ⟨l.name, rfl, rfl⟩) l.before.blank l.after.blank

theorem exists_lead {o s : Bool} {k : Option String} {opening before name : Bytes}
    (ho : Opening s opening) (hb : Blank before) (hn : NameText SignedHex4 o k name) :
    ∃ l : Lead o s, l.text = opening ++ (before ++ name) ∧ l.key = k := by
  obtain ⟨label, hlabel, rfl, rfl⟩ := exists_label hn
  cases ho with
  | first => exact ⟨⟨hb.space, none, label, rfl, hlabel⟩, rfl, rfl⟩
  | later h =>
    exact ⟨⟨h.space, some hb.space, label, rfl, hlabel⟩, by simp [Lead.text, Blank.space], rfl⟩

theorem Lead.cases_opening {o s : Bool} (l : Lead o s) :
    ∃ opening before name, Opening s opening ∧ Blank before ∧ NameText SignedHex4 o l.key name ∧
      l.text = opening ++ (before ++ name) := by
  obtain ⟨space, comma, label, rfl, hl⟩ := l
  have hn := nameText_label label hl
  cases comma with
  | none => exact ⟨_, space.bytes, _, .first, space.blank, hn, rfl⟩
  | some sp =>
    exact ⟨_, sp.bytes, _, .later space.blank, sp.blank, hn, by simp [Lead.text]⟩

mutual

theorem ValueText.exists_spelling {v : Tree} {t : Bytes} (h : ValueText SignedHex4 v t) :
    ∃ w : Spelling, w.text = t ∧ w.tree = v := by
  cases h with
  | null => exact ⟨.token ⟨_, _, .null⟩, rfl, rfl⟩
  | true => exact ⟨.token ⟨_, _, .true⟩, rfl, rfl⟩
  | false => exact ⟨.token ⟨_, _, .false⟩, rfl, rfl⟩
  | number h => exact ⟨.token ⟨_, _, .number h⟩, rfl, rfl⟩
  | string h =>
    obtain ⟨q, rfl, rfl⟩ := stringText_iff.1 h
    exact ⟨.token ⟨_, _, .string q⟩, rfl, rfl⟩
  | empty o h => exact ⟨.nested o (.close h.space), rfl, rfl⟩
  | @group o ps t h =>
    obtain ⟨p, hp, rfl⟩ := h.exists_passage .first
    exact ⟨.nested o p, by rw [Spelling.text, hp]; rfl, rfl⟩

theorem PartsText.exists_passage {o s : Bool} {ps : List (Option String × Tree)}
    {t opening : Bytes} (h : PartsText SignedHex4 o ps t) (ho : Opening s opening) :
    ∃ p : Passage o s, p.text = opening ++ (t ++ [closeByte o]) ∧ p.parts = ps := by
  cases h with
  | last hb hn h ha =>
    obtain ⟨l, hl, rfl⟩ := exists_lead ho hb hn
    obtain ⟨w, rfl, rfl⟩ := h.exists_spelling
    refine ⟨.cons l w (.close ha.space), ?_, Passage.parts_cons l w _⟩
    simp [Passage.text_cons, Passage.text, hl, Blank.space]
  | cons hb hn h ha hs =>
    obtain ⟨l, hl, rfl⟩ := exists_lead ho hb hn
    obtain ⟨w, rfl, rfl⟩ := h.exists_spelling
    obtain ⟨p, hp, rfl⟩ := hs.exists_passage (.later ha)
    refine ⟨.cons l w p, ?_, Passage.parts_cons l w p⟩
    simp [Passage.text_cons, hl, hp]

end

theorem Token.valueText (t : Token) : ValueText SignedHex4 t.tree t.text := by
  obtain ⟨text, event, h⟩ := t
  cases h with
  | string q => exact .string (stringText_iff.2 ⟨q, rfl, rfl⟩)
  | number h => exact .number h
  | true => exact .true
  | false => exact .false
  | null => exact .null

/-- What is left of a container is its end, or holds further parts. -/
inductive Remains (code : Bytes → Nat → Prop) (o s : Bool) :
    List (Option String × Tree) → Bytes → Prop
  | close {ws : Bytes} (h : Blank ws) : Remains code o s [] (ws ++ [closeByte o])
  | parts {ps : List (Option String × Tree)} {opening t : Bytes} (ho : Opening s opening)
      (h : PartsText code o ps t) : Remains code o s ps (opening ++ (t ++ [closeByte o]))

section

variable {code : Bytes → Nat → Prop} {o s : Bool} {ps : List (Option String × Tree)}

theorem Remains.cons {k : Option String} {v : Tree} {opening before name t ts : Bytes}
    (ho : Opening s opening) (hb : Blank before) (hn : NameText code o k name)
    (hv : ValueText code v t) (h : Remains code o true ps ts) :
    Remains code o s ((k, v) :: ps) (opening ++ (before ++ (name ++ (t ++ ts)))) := by
  cases h with
  | close ha =>
    have hp := Remains.parts ho (.last hb hn hv ha)
    simpa using hp
  | parts ho' h =>
    cases ho' with
    | later ha =>
      have hp := Remains.parts ho (.cons hb hn hv ha h)
      simpa using hp

theorem Remains.valueText {t : Bytes} (h : Remains code o false ps t) :
    ValueText code (.group o ps) (openByte o :: t) := by
  cases h with
  | close h => exact .empty o h
  | parts ho h =>
    cases ho with
    | first => exact .group h

end

theorem Remains.lead {o s : Bool} {ps : List (Option String × Tree)} (l : Lead o s) {v : Tree}
    {t ts : Bytes} (hv : ValueText SignedHex4 v t) (h : Remains SignedHex4 o true ps ts) :
    Remains SignedHex4 o s ((l.key, v) :: ps) (l.text ++ (t ++ ts)) := by
  obtain ⟨opening, before, name, ho, hb, hn, hl⟩ := l.cases_opening
  have hcons := Remains.cons ho hb hn hv h
  simpa [hl] using hcons

theorem Passage.remains {o s : Bool} (p : Passage o s) :
    Remains SignedHex4 o s p.parts p.text := by
  induction p with
  | close sp => exact .close sp.blank
  | token l t rest ih => exact .lead l t.valueText ih
  | nested l k inside rest ih1 ih2 =>
    have h := Remains.lead l ih1.valueText ih2
    simpa [text, parts] using h

theorem Spelling.valueText (v : Spelling) : ValueText SignedHex4 v.tree v.text := by
  cases v with
  | token t => exact t.valueText
  | nested k inside => exact inside.remains.valueText

/-- The texts of the grammar are the values between spaces. -/
theorem documentText_iff {v : Tree} {bs : Bytes} :
    DocumentText SignedHex4 v bs ↔ ∃ p : Page, p.text = bs ∧ p.value.tree = v := by
  constructor
  · rintro ⟨before, t, after, hb, h, ha, rfl⟩
    obtain ⟨w, rfl, rfl⟩ := h.exists_spelling
    exact ⟨⟨hb.space, w, ha.space⟩, rfl, rfl⟩
  · rintro ⟨⟨before, w, after⟩, rfl, rfl⟩
    exact ⟨_, _, _, before.blank, w.valueText, after.blank, rfl⟩

end Quarry.Json
