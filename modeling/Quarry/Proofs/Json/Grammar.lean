import Quarry.Proofs.Json.Numbers

/-!
The grammar of JSON texts over bytes, with the tree that a text stands for. What the four characters
of a `\u` escape stand for is left open, so that a more generous notation shares the rules.
-/

namespace Quarry.Json

open Text

/-- A value with its parts in the order in which they are written; a number keeps its spelling. -/
inductive Tree where
  | null
  | bool (b : Bool)
  | number (text : String) (isInteger : Bool)
  | string (s : String)
  | group (isObject : Bool) (parts : List (Option String × Tree))

namespace Tree

/-- How many containers are opened within one another. -/
def nesting : Tree → Nat
  | .group _ ps => nestingOf ps + 1
  | _ => 0
where
  nestingOf : List (Option String × Tree) → Nat
    | [] => 0
    | (_, t) :: ps => max t.nesting (nestingOf ps)

end Tree

/-! ### Characters -/

inductive Hex : UInt8 → Nat → Prop
  | lower {v : Nat} (h : v < 16) : Hex (byte (Nat.digitChar v)) v
  | upper {v : Nat} (h : v < 16) : Hex (byte (Nat.digitChar v).toUpper) v

inductive Hex4 : Bytes → Nat → Prop
  | make {a b c d : UInt8} {w x y z : Nat} (ha : Hex a w) (hb : Hex b x) (hc : Hex c y)
      (hd : Hex d z) : Hex4 [a, b, c, d] (4096 * w + 256 * x + 16 * y + z)

/-- Four hexadecimal digits, the first of which may be a plus sign instead. -/
inductive SignedHex4 : Bytes → Nat → Prop
  | plain {q : Bytes} {n : Nat} (h : Hex4 q n) : SignedHex4 q n
  | plus {b c d : UInt8} {x y z : Nat} (hb : Hex b x) (hc : Hex c y) (hd : Hex d z) :
      SignedHex4 [byte '+', b, c, d] (256 * x + 16 * y + z)

def escapes : List (Char × Char) :=
  [('"', '"'), ('\\', '\\'), ('/', '/'), ('b', '\x08'), ('f', '\x0c'), ('n', '\n'), ('r', '\r'),
    ('t', '\t')]

def unicodeMark : Bytes := [byte '\\', byte 'u']

section

variable (code : Bytes → Nat → Prop)

/-- A character of a string. Surrogates are no characters, so they only come in pairs. -/
inductive Letter : Char → Bytes → Prop
  | plain {c : Char} (hq : c ≠ '"') (hs : c ≠ '\\') (hc : 0x20 ≤ c.toNat) :
      Letter c (String.utf8EncodeChar c)
  | simple {e c : Char} (h : (e, c) ∈ escapes) : Letter c [byte '\\', byte e]
  | unicode {c : Char} {q : Bytes} (h : code q c.toNat) : Letter c (unicodeMark ++ q)
  | pair {c : Char} {q q' : Bytes} {high low : Nat} (h : code q high) (h' : code q' low)
      (hh : 0xD800 ≤ high ∧ high < 0xDC00) (hl : 0xDC00 ≤ low ∧ low < 0xE000)
      (hc : c.toNat = 0x10000 + (high - 0xD800) * 0x400 + (low - 0xDC00)) :
      Letter c (unicodeMark ++ q ++ (unicodeMark ++ q'))

inductive Letters : List Char → Bytes → Prop
  | nil : Letters [] []
  | cons {c : Char} {cs : List Char} {t ts : Bytes} (h : Letter code c t) (hs : Letters cs ts) :
      Letters (c :: cs) (t ++ ts)

def StringText (s : String) (bs : Bytes) : Prop :=
  ∃ inner, Letters code s.toList inner ∧ bs = byte '"' :: inner ++ [byte '"']

/-! ### Values -/

def Blank (bs : Bytes) : Prop := ∀ b ∈ bs, Cursor.isSpace b = true

instance (bs : Bytes) : Decidable (Blank bs) :=
  inferInstanceAs (Decidable (∀ b ∈ bs, Cursor.isSpace b = true))

def bracket (isObject : Bool) (inner : Bytes) : Bytes :=
  (if isObject then byte '\x7b' else byte '[') :: inner ++
    [if isObject then byte '\x7d' else byte ']']

/-- The members of objects have names, the elements of arrays have none. -/
inductive NameText : Bool → Option String → Bytes → Prop
  | element : NameText false none []
  | member {s : String} {name before after : Bytes} (h : StringText code s name)
      (hb : Blank before) (ha : Blank after) :
      NameText true (some s) (name ++ (before ++ byte ':' :: after))

mutual

inductive ValueText : Tree → Bytes → Prop
  | null : ValueText .null (bytes "null")
  | true : ValueText (.bool true) (bytes "true")
  | false : ValueText (.bool false) (bytes "false")
  | number {t : Bytes} {i : Bool} (h : Figure t i) :
      ValueText (.number (String.ofList (t.map charOfByte)) i) t
  | string {s : String} {t : Bytes} (h : StringText code s t) : ValueText (.string s) t
  | empty (o : Bool) {ws : Bytes} (h : Blank ws) : ValueText (.group o []) (bracket o ws)
  | group {o : Bool} {ps : List (Option String × Tree)} {t : Bytes} (h : PartsText o ps t) :
      ValueText (.group o ps) (bracket o t)

/-- What stands in a container that is not empty. -/
inductive PartsText : Bool → List (Option String × Tree) → Bytes → Prop
  | last {o : Bool} {k : Option String} {v : Tree} {before name t after : Bytes}
      (hb : Blank before) (hn : NameText code o k name) (h : ValueText v t) (ha : Blank after) :
      PartsText o [(k, v)] (before ++ (name ++ (t ++ after)))
  | cons {o : Bool} {k : Option String} {v : Tree} {ps : List (Option String × Tree)}
      {before name t after ts : Bytes} (hb : Blank before) (hn : NameText code o k name)
      (h : ValueText v t) (ha : Blank after) (hs : PartsText o ps ts) :
      PartsText o ((k, v) :: ps) (before ++ (name ++ (t ++ (after ++ byte ',' :: ts))))

end

/-- One value with spaces around it. -/
def DocumentText (v : Tree) (bs : Bytes) : Prop :=
  ∃ before t after, Blank before ∧ ValueText code v t ∧ Blank after ∧ bs = before ++ (t ++ after)

end

/-! ### Two notations of escapes -/

section

variable {code code' : Bytes → Nat → Prop}

/-- Only the escapes that occur in a text matter. -/
def Covers (code code' : Bytes → Nat → Prop) (bs : Bytes) : Prop :=
  ∀ q n, code q n → unicodeMark ++ q <:+: bs → code' q n

theorem Covers.within {bs t : Bytes} (h : Covers code code' bs) (ht : t <:+: bs) :
    Covers code code' t := fun q n hq hi => h q n hq (hi.trans ht)

theorem infix_left (a b : Bytes) : a <:+: a ++ b := (List.prefix_append a b).isInfix

theorem infix_right (a b : Bytes) : b <:+: a ++ b := (List.suffix_append a b).isInfix

theorem Covers.left {a b : Bytes} (h : Covers code code' (a ++ b)) : Covers code code' a :=
  h.within (infix_left a b)

theorem Covers.right {a b : Bytes} (h : Covers code code' (a ++ b)) : Covers code code' b :=
  h.within (infix_right a b)

theorem Covers.bracket {o : Bool} {t : Bytes} (h : Covers code code' (bracket o t)) :
    Covers code code' t := by
  refine h.within ⟨[if o then byte '\x7b' else byte '['], [if o then byte '\x7d' else byte ']'], ?_⟩
  rfl

theorem Letter.mono {c : Char} {t : Bytes} (h : Letter code c t) (hc : Covers code code' t) :
    Letter code' c t := by
  cases h with
  | plain hq hs hlow => exact .plain hq hs hlow
  | simple h => exact .simple h
  | unicode h => exact .unicode (hc _ _ h (List.infix_refl _))
  | pair h h' hh hl hn =>
    exact .pair (hc.left _ _ h (List.infix_refl _)) (hc.right _ _ h' (List.infix_refl _)) hh hl hn

theorem Letters.mono {cs : List Char} {t : Bytes} (h : Letters code cs t)
    (hc : Covers code code' t) : Letters code' cs t := by
  induction h with
  | nil => exact .nil
  | cons h _ ih => exact .cons (h.mono hc.left) (ih hc.right)

theorem StringText.mono {s : String} {t : Bytes} (h : StringText code s t)
    (hc : Covers code code' t) : StringText code' s t := by
  obtain ⟨inner, h, rfl⟩ := h
  exact ⟨inner, h.mono (hc.within ⟨[byte '"'], [byte '"'], rfl⟩), rfl⟩

theorem NameText.mono {o : Bool} {k : Option String} {t : Bytes} (h : NameText code o k t)
    (hc : Covers code code' t) : NameText code' o k t := by
  cases h with
  | element => exact .element
  | member h hb ha => exact .member (h.mono hc.left) hb ha

mutual

theorem ValueText.mono {v : Tree} {t : Bytes} (h : ValueText code v t)
    (hc : Covers code code' t) : ValueText code' v t := by
  cases h with
  | null => exact .null
  | true => exact .true
  | false => exact .false
  | number h => exact .number h
  | string h => exact .string (h.mono hc)
  | empty o h => exact .empty o h
  | group h => exact .group (h.mono hc.bracket)

theorem PartsText.mono {o : Bool} {ps : List (Option String × Tree)} {t : Bytes}
    (h : PartsText code o ps t) (hc : Covers code code' t) : PartsText code' o ps t := by
  cases h with
  | last hb hn h ha => exact .last hb (hn.mono hc.right.left) (h.mono hc.right.right.left) ha
  | cons hb hn h ha hs =>
    have htail := hc.right.right.right.right
    refine .cons hb (hn.mono hc.right.left) (h.mono hc.right.right.left) ha (hs.mono ?_)
    exact htail.within ⟨[byte ','], [], by simp⟩

end

theorem DocumentText.mono {v : Tree} {t : Bytes} (h : DocumentText code v t)
    (hc : Covers code code' t) : DocumentText code' v t := by
  obtain ⟨before, t, after, hb, h, ha, rfl⟩ := h
  exact ⟨before, t, after, hb, h.mono hc.right.left, ha, rfl⟩

end

end Quarry.Json
