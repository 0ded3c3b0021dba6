import Quarry.Proofs.Json.Figures
import Quarry.Sql

/-!
How SQL falls into tokens. A text of whole tokens is read the same wherever it stands, as long as
a blank, a comma or a parenthesis comes after it.
-/

namespace Quarry.Sql

inductive Token where
  /-- A keyword or a name, with its quotes and its points. -/
  | word (text : String)
  | number (text : String)
  | string (value : String)
  | sign (text : String)
deriving Repr, DecidableEq

namespace Lexer

/-- What is being read; characters are in reverse. -/
inductive State where
  | gap
  | word (read : List Char)
  | quotedName (close : Char) (read : List Char)
  | number (read : List Char)
  | string (read : List Char)
  /-- The apostrophe just read ends the literal, unless another one follows. -/
  | apostrophe (read : List Char)
  | sign (c : Char)

def isBlank (c : Char) : Bool := [' ', '\t', '\n', '\r'].contains c

def isWordStart (c : Char) : Bool := c.isAlpha || c == '_' || 128 ≤ c.toNat

def isWordChar (c : Char) : Bool := isWordStart c || c.isDigit || c == '$' || c == '.'

/-- The end of a name that is in quotes. -/
def close? (c : Char) : Option Char :=
  match c with
  | '"' => some '"'
  | '`' => some '`'
  | '[' => some ']'
  | _ => none

def isPair (c d : Char) : Bool :=
  [('<', '='), ('<', '>'), ('>', '='), ('=', '='), ('!', '='), ('|', '|'), ('<', '<'), ('>', '>'),
    ('-', '>')].contains (c, d)

def isComment (c d : Char) : Bool := [('-', '-'), ('/', '*')].contains (c, d)

/-- A sign that belongs to the exponent before it. -/
def isExponentSign (c : Char) (read : List Char) : Bool :=
  (c == '+' || c == '-') && (read.head? == some 'e' || read.head? == some 'E')

def start (c : Char) : State :=
  if isBlank c then .gap
  else if isWordStart c then .word [c]
  else if c.isDigit then .number [c]
  else if c = '\'' then .string []
  else
    match close? c with
    | some close => .quotedName close [c]
    | none => .sign c

/-- The token that is complete where nothing more belongs to it. -/
def State.finish : State → Option (List Token)
  | .gap => some []
  | .word read => some [.word (String.ofList read.reverse)]
  | .quotedName _ _ => none
  | .number read => some [.number (String.ofList read.reverse)]
  | .string _ => none
  | .apostrophe read => some [.string (String.ofList read.reverse)]
  | .sign c => some [.sign (String.singleton c)]

/-- What is complete before a character, and what is being read behind it. -/
def State.next (s : State) (c : Char) : Option (List Token × State) :=
  match s with
  | .gap => some ([], start c)
  | .word read =>
    if isWordChar c then some ([], .word (c :: read))
    else
      match close? c with
      | some close => some ([], .quotedName close (c :: read))
      | none => some ([.word (String.ofList read.reverse)], start c)
  | .quotedName close read =>
    some ([], if c = close then .word (c :: read) else .quotedName close (c :: read))
  | .number read =>
    if isWordChar c || isExponentSign c read then some ([], .number (c :: read))
    else some ([.number (String.ofList read.reverse)], start c)
  | .string read => some ([], if c = '\'' then .apostrophe read else .string (c :: read))
  | .apostrophe read =>
    if c = '\'' then some ([], .string (c :: read))
    else some ([.string (String.ofList read.reverse)], start c)
  | .sign b =>
    if isComment b c then none
    else if isPair b c then some ([.sign (String.ofList [b, c])], .gap)
    else some ([.sign (String.singleton b)], start c)

def tokens (s : State) : List Char → Option (List Token)
  | [] => s.finish
  | c :: cs => (s.next c).bind fun (ts, s') => (tokens s' cs).map (ts ++ ·)

end Lexer

/-- The tokens of a text, unless a literal, a quoted name or a comment is left open. -/
def lex (text : String) : Option (List Token) := Lexer.tokens .gap text.toList

namespace Lexer

theorem tokens_cons (s : State) (c : Char) (cs : List Char) : tokens s (c :: cs) =
    (s.next c).bind fun p => (tokens p.2 cs).map (p.1 ++ ·) := rfl

/-- A character that completes nothing. -/
theorem tokens_onward {s r : State} {c : Char} (h : s.next c = some ([], r)) (cs : List Char) :
    tokens s (c :: cs) = tokens r cs := by
  rw [tokens_cons, h, Option.bind_some]
  simp

/-! ### Texts one behind another -/

/-- No token goes on into these characters. -/
def Apart (cs : List Char) : Prop := ∀ c ∈ cs.head?, c ∈ [' ', ',', '(', ')']

theorem apart_cons {c : Char} (hc : c ∈ [' ', ',', '(', ')']) (cs : List Char) :
    Apart (c :: cs) := by
  rintro d hd
  obtain rfl := Option.mem_some.1 hd
  exact hc

theorem next_apart {s : State} {ts : List Token} {c : Char} (hs : s.finish = some ts)
    (hc : c ∈ [' ', ',', '(', ')']) : s.next c = some (ts, start c) := by
  have hsign (b : Char) : isComment b c = false ∧ isPair b c = false := by
    simp only [List.mem_cons, List.not_mem_nil, or_false] at hc
    rcases hc with rfl | rfl | rfl | rfl <;> simp [isComment, isPair]
  cases s with
  | sign b =>
    cases hs
    rw [State.next, (hsign b).1, (hsign b).2, if_neg Bool.false_ne_true, if_neg Bool.false_ne_true]
  | quotedName close read => cases hs
  | string read => cases hs
  | _ =>
    cases hs
    simp only [List.mem_cons, List.not_mem_nil, or_false] at hc
    rcases hc with rfl | rfl | rfl | rfl <;> rfl

theorem tokens_apart {s : State} {ts : List Token} {cs : List Char} (hs : s.finish = some ts)
    (hcs : Apart cs) : tokens s cs = (tokens .gap cs).map (ts ++ ·) := by
  cases cs with
  | nil =>
    rw [tokens, tokens, hs]
    simp [State.finish]
  | cons c cs =>
    rw [tokens_cons, next_apart hs (hcs c rfl), tokens_onward (s := .gap) rfl, Option.bind_some]

theorem tokens_append {s : State} {ts : List Token} {cs rest : List Char}
    (h : tokens s cs = some ts) (hrest : Apart rest) :
    tokens s (cs ++ rest) = (tokens .gap rest).map (ts ++ ·) := by
  induction cs generalizing s ts with
  | nil => exact tokens_apart h hrest
  | cons c cs ih =>
    rw [tokens_cons] at h
    obtain ⟨⟨ds, s'⟩, hnext, h⟩ := Option.bind_eq_some_iff.1 h
    obtain ⟨es, hes, rfl⟩ := Option.map_eq_some_iff.1 h
    rw [List.cons_append, tokens_cons, hnext, Option.bind_some, ih hes, Option.map_map]
    simp only [Function.comp_def, List.append_assoc]

theorem tokens_blank (cs : List Char) : tokens .gap (' ' :: cs) = tokens .gap cs :=
  tokens_onward rfl cs

/-- A sign that does not go on into the character after it. -/
theorem tokens_sign {c : Char} {cs : List Char} (hstart : start c = .sign c)
    (hc : ∀ d ∈ cs.head?, isComment c d = false ∧ isPair c d = false) :
    tokens .gap (c :: cs) = (tokens .gap cs).map (.sign (String.singleton c) :: ·) := by
  rw [tokens_onward (s := .gap) (r := .sign c) (by rw [State.next, hstart])]
  cases cs with
  | nil => rfl
  | cons d cs =>
    obtain ⟨hcomment, hpair⟩ := hc d rfl
    rw [tokens_cons, State.next, hcomment, hpair, if_neg Bool.false_ne_true,
      if_neg Bool.false_ne_true, tokens_onward (s := .gap) rfl]
    rfl

theorem tokens_open (cs : List Char) :
    tokens .gap ('(' :: cs) = (tokens .gap cs).map (.sign "(" :: ·) :=
  tokens_sign rfl fun _ _ => ⟨by simp [isComment], by simp [isPair]⟩

theorem tokens_minus {cs : List Char} (h : ∀ c ∈ cs.head?, c ≠ '-' ∧ c ≠ '>') :
    tokens .gap ('-' :: cs) = (tokens .gap cs).map (.sign "-" :: ·) := by
  refine tokens_sign rfl fun c hc => ?_
  obtain ⟨hminus, hgreater⟩ := h c hc
  exact ⟨by simp [isComment, hminus], by simp [isPair, hgreater]⟩

/-! ### Single tokens -/

theorem tokens_word {read cs : List Char} (h : ∀ c ∈ cs, isWordChar c = true) :
    tokens (.word read) cs = some [.word (String.ofList (read.reverse ++ cs))] := by
  induction cs generalizing read with
  | nil => rw [tokens, State.finish, List.append_nil]
  | cons c cs ih =>
    obtain ⟨hc, hcs⟩ := List.forall_mem_cons.1 h
    rw [tokens_onward (by rw [State.next, if_pos hc]), ih hcs, List.reverse_cons,
      List.append_assoc, List.singleton_append]

theorem tokens_number {read cs : List Char} (h : ∀ c ∈ cs, isWordChar c = true)
    (rest : List Char) :
    tokens (.number read) (cs ++ rest) = tokens (.number (cs.reverse ++ read)) rest := by
  induction cs generalizing read with
  | nil => rfl
  | cons c cs ih =>
    obtain ⟨hc, hcs⟩ := List.forall_mem_cons.1 h
    rw [List.cons_append, tokens_onward (by rw [State.next, hc, Bool.true_or, if_pos rfl]), ih hcs,
      List.reverse_cons, List.append_assoc, List.singleton_append]

theorem isWordChar_digits {cs : List Char} (h : Json.IsDigits cs) : ∀ c ∈ cs, isWordChar c = true := by
  intro c hc
  rw [isWordChar, h c hc]
  simp

theorem tokens_exponent {read es : List Char} {b : Bool} (h : Json.LetterDigits es b) :
    tokens (.number read) es = some [.number (String.ofList (read.reverse ++ es))] := by
  cases h with
  | none => rw [List.append_nil, tokens, State.finish]
  | @some e sign ds he hs h hne =>
    have hds (read : List Char) : tokens (.number read) ds =
        some [.number (String.ofList (read.reverse ++ ds))] := by
      have hrest : tokens (.number read) (ds ++ []) = tokens (.number (ds.reverse ++ read)) [] :=
        tokens_number (isWordChar_digits h) []
      rwa [List.append_nil, tokens, State.finish, List.reverse_append, List.reverse_reverse] at hrest
    have hletter : State.next (.number read) e = some ([], .number (e :: read)) := by
      rcases he with rfl | rfl <;> rfl
    rw [tokens_onward hletter]
    rcases hs with rfl | hs
    · rw [List.nil_append, hds]
      simp
    · have hsign (s : Char) (hs : s = '+' ∨ s = '-') : State.next (.number (e :: read)) s =
          some ([], .number (s :: e :: read)) := by
        rcases he with rfl | rfl <;> rcases hs with rfl | rfl <;> rfl
      rcases hs with rfl | rfl
      · rw [List.singleton_append, tokens_onward (hsign _ (.inl rfl)), hds]
        simp
      · rw [List.singleton_append, tokens_onward (hsign _ (.inr rfl)), hds]
        simp

theorem start_digit {c : Char} (h : c.isDigit = true) : start c = .number [c] := by
  have hn := Json.isDigit_iff.1 h
  have hblank : isBlank c = false := by
    simp only [isBlank, List.contains_eq_mem, decide_eq_false_iff_not, List.mem_cons,
      List.not_mem_nil, or_false, not_or]
    refine ⟨?_, ?_, ?_, ?_⟩ <;> rintro rfl <;> revert h <;> decide
  have hword : isWordStart c = false := by
    have hval : c.val.toNat = c.toNat := rfl
    have hbounds : 'A'.val.toNat = 65 ∧ 'Z'.val.toNat = 90 ∧ 'a'.val.toNat = 97 ∧
        'z'.val.toNat = 122 ∧ '_'.toNat = 95 := ⟨rfl, rfl, rfl, rfl, rfl⟩
    have hletter : c.isAlpha = (decide ('A'.val ≤ c.val ∧ c.val ≤ 'Z'.val) ||
        (decide ('a'.val ≤ c.val) && decide (c.val ≤ 'z'.val))) := rfl
    rw [← Bool.not_eq_true]
    intro hstart
    simp only [isWordStart, hletter, Bool.or_eq_true, Bool.and_eq_true, decide_eq_true_eq,
      UInt32.le_iff_toNat_le, hval, beq_iff_eq] at hstart
    rcases hstart with (halpha | rfl) | hlarge
    · omega
    · omega
    · omega
  rw [start, hblank, hword, h, if_neg Bool.false_ne_true, if_neg Bool.false_ne_true, if_pos rfl]

theorem lex_unsigned {cs : List Char} {b : Bool} (h : Json.Unsigned cs b) :
    lex (String.ofList cs) = some [.number (String.ofList cs)] := by
  obtain ⟨ws, fs, es, hasFrac, hasExp, rfl, ⟨hws, hne, -⟩, hfs, hes, -⟩ := h.chars
  obtain ⟨w, ws, rfl⟩ := List.exists_cons_of_ne_nil hne
  obtain ⟨hw, hws⟩ := List.forall_mem_cons.1 hws
  have hpoint : ∀ c ∈ fs, isWordChar c = true := by
    cases hfs with
    | none => exact List.forall_mem_nil _
    | some hds _ => exact List.forall_mem_cons.2 ⟨rfl, isWordChar_digits hds⟩
  rw [lex, String.toList_ofList, List.cons_append,
    tokens_onward (s := .gap) (r := .number [w]) (by rw [State.next, start_digit hw]),
    tokens_number (isWordChar_digits hws), tokens_number hpoint, tokens_exponent hes]
  simp

/-- Between apostrophes a text is kept when each of its apostrophes is doubled. -/
theorem tokens_string (read cs : List Char) :
    tokens (.string read)
        ((cs.flatMap fun d => if d = '\'' then ['\'', '\''] else [d]) ++ ['\'']) =
      some [.string (String.ofList (read.reverse ++ cs))] := by
  induction cs generalizing read with
  | nil =>
    rw [List.append_nil]
    rfl
  | cons d cs ih =>
    have hmore := ih (d :: read)
    rw [List.reverse_cons, List.append_assoc, List.singleton_append] at hmore
    rw [List.flatMap_cons, List.append_assoc, ← hmore]
    by_cases hd : d = '\''
    · rw [if_pos hd, hd, List.cons_append, List.singleton_append,
        tokens_onward (r := .apostrophe read) rfl, tokens_onward rfl]
    · rw [if_neg hd, List.singleton_append,
        tokens_onward (by rw [State.next, if_neg hd])]

theorem toList_guarded (c mark : Char) (s : String) :
    (guarded c mark s).toList = s.toList.flatMap fun d => if d = c then [mark, c] else [d] := by
  rw [guarded, String.toList_join, List.flatMap_map]
  apply congrArg (s.toList.flatMap ·)
  funext d
  split
  · exact String.toList_ofList
  · exact String.toList_singleton d

theorem lex_quote (s : String) : lex (quote s) = some [.string s] := by
  have h := tokens_string [] s.toList
  rw [List.reverse_nil, List.nil_append, String.ofList_toList] at h
  rw [lex, quote, String.toList_append, String.toList_append, toList_guarded]
  exact (tokens_onward rfl _).trans h

/-- A word that begins with a letter. -/
theorem tokens_gap_word {c : Char} {cs : List Char} (hstart : start c = .word [c])
    (hcs : ∀ d ∈ cs, isWordChar d = true) :
    tokens .gap (c :: cs) = some [.word (String.ofList (c :: cs))] := by
  rw [tokens_onward (s := .gap) (r := .word [c]) (by rw [State.next, hstart]), tokens_word hcs]
  rfl

end Lexer

open Lexer

theorem lex_append {a b : String} {ts us : List Token} (ha : lex a = some ts)
    (hb : lex b = some us) (hapart : Apart b.toList) : lex (a ++ b) = some (ts ++ us) := by
  rw [lex, String.toList_append, tokens_append ha hapart]
  exact congrArg (Option.map (ts ++ ·)) hb

theorem apart_blank (s : String) : Apart (" " ++ s).toList := by
  rw [String.toList_append]
  exact apart_cons (c := ' ') (by decide) _

theorem apart_open (s : String) : Apart ("(" ++ s).toList := by
  rw [String.toList_append]
  exact apart_cons (c := '(') (by decide) _

theorem apart_comma : Apart ",".toList := apart_cons (c := ',') (by decide) _

theorem apart_close : Apart ")".toList := apart_cons (c := ')') (by decide) _

theorem lex_blank {s : String} {ts : List Token} (h : lex s = some ts) :
    lex (" " ++ s) = some ts := by
  rw [lex, String.toList_append]
  exact (tokens_blank s.toList).trans h

theorem lex_open {s : String} {ts : List Token} (h : lex s = some ts) :
    lex ("(" ++ s) = some (.sign "(" :: ts) := by
  rw [lex, String.toList_append]
  exact (tokens_open s.toList).trans (congrArg (Option.map (.sign "(" :: ·)) h)

theorem lex_minus {s : String} {ts : List Token} (h : lex s = some ts)
    (hs : ∀ c ∈ s.toList.head?, c ≠ '-' ∧ c ≠ '>') : lex ("-" ++ s) = some (.sign "-" :: ts) := by
  rw [lex, String.toList_append]
  exact (tokens_minus hs).trans (congrArg (Option.map (.sign "-" :: ·)) h)

theorem toList_row (scope : Scope) : (row scope).toList = 'j' :: Nat.toDigits 10 scope.length := by
  have hrow : row scope = "j" ++ toString scope.length := rfl
  rw [hrow, String.toList_append, Numeral.toList_toString]
  rfl

theorem lex_row (scope : Scope) : lex (row scope) = some [.word (row scope)] := by
  have hdigits := isWordChar_digits (Json.isDigits_toDigits scope.length)
  rw [lex, toList_row, tokens_gap_word rfl hdigits, ← toList_row, String.ofList_toList]

theorem lex_row_value (scope : Scope) :
    lex (row scope ++ ".value") = some [.word (row scope ++ ".value")] := by
  have htext : (row scope ++ ".value").toList =
      'j' :: (Nat.toDigits 10 scope.length ++ ['.', 'v', 'a', 'l', 'u', 'e']) := by
    rw [String.toList_append, toList_row]
    rfl
  have hchars : ∀ c ∈ Nat.toDigits 10 scope.length ++ ['.', 'v', 'a', 'l', 'u', 'e'],
      isWordChar c = true :=
    List.forall_mem_append.2 ⟨isWordChar_digits (Json.isDigits_toDigits scope.length),
      List.all_eq_true.1 rfl⟩
  rw [lex, htext, tokens_gap_word rfl hchars, ← htext, String.ofList_toList]

end Quarry.Sql
