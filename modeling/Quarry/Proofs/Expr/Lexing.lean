import Quarry.Expr.Printer
import Quarry.Proofs.Expr.Soundness

/-!
The tokens of a text, one after another.
-/

namespace Quarry.Expr

namespace Lexer

open Quarry.Expr.Parser (marks)

/-! ### Characters -/

/-- The characters with which marks and strings begin. -/
def punctuation : List Char :=
  ['.', ',', '+', '-', '*', '/', '%', '(', ')', '[', ']', '!', '<', '>', '=', '&', '|', '"', '\'']

/-- Where neither letters nor digits stand: the blanks, and what lies between the letters and digits
with the lowest codes. -/
def gaps : List (Nat × Nat) :=
  Text.blanks ++ [(0x21, 0x2F), (0x3A, 0x40), (0x5B, 0x5E), (0x7B, 0x7E)]

/-- The tables keep clear of the gaps, and the table of letters of the ten digits. -/
theorem clear_tables :
    ((Text.alphabetic ++ Text.numeric).all fun r =>
      gaps.all fun g => r.2.blt g.1 || g.2.blt r.1) = true ∧
      (Text.alphabetic.all fun r => r.2.blt 0x30 || Nat.blt 0x39 r.1) = true := by
  decide +kernel

theorem isAlphanumeric_gap {c : Char} (h : Text.inRanges gaps c = true) :
    Text.isAlphanumeric c = false := by
  obtain ⟨g, hg, hlow, hhigh⟩ := (Text.inRanges_iff _ c).1 h
  have hclear : ∀ r ∈ Text.alphabetic ++ Text.numeric, ¬ (r.1 ≤ c.toNat ∧ c.toNat ≤ r.2) := by
    intro r hr hc
    have hrg := List.all_eq_true.1 (List.all_eq_true.1 clear_tables.1 r hr) g hg
    rw [Bool.or_eq_true, Nat.blt_eq, Nat.blt_eq] at hrg
    omega
  rw [Text.isAlphanumeric, Text.isAlphabetic, Bool.or_eq_false_iff]
  constructor
  · rw [← Bool.not_eq_true, Text.inRanges_iff]
    rintro ⟨r, hr, hc⟩
    exact hclear r (List.mem_append_left _ hr) hc
  · rw [← Bool.not_eq_true, Text.inRanges_iff]
    rintro ⟨r, hr, hc⟩
    exact hclear r (List.mem_append_right _ hr) hc

theorem isWordChar_gap {c : Char} (h : Text.inRanges gaps c = true) : isWordChar c = false := by
  have hne : (c == '_') = false := by
    rw [beq_eq_false_iff_ne]
    rintro rfl
    exact absurd h (by decide)
  rw [isWordChar, hne, isAlphanumeric_gap h, Bool.or_self]

theorem isWordChar_punctuation {c : Char} (h : c ∈ punctuation) : isWordChar c = false := by
  have hall : punctuation.all (Text.inRanges gaps) = true := by decide +kernel
  exact isWordChar_gap (List.all_eq_true.1 hall c h)

theorem isBlank_punctuation {c : Char} (h : c ∈ punctuation) : Text.isBlank c = false := by
  have hall : punctuation.all (fun c => !Text.isBlank c) = true := by decide +kernel
  have hc := List.all_eq_true.1 hall c h
  rwa [Bool.not_eq_true'] at hc

theorem isWordChar_of_isWordStart {c : Char} (h : isWordStart c = true) : isWordChar c = true := by
  simp only [isWordStart, Bool.or_eq_true] at h
  simp only [isWordChar, Text.isAlphanumeric, Bool.or_eq_true]
  exact h.imp_right .inl

theorem code_of_isDigit {c : Char} (h : c.isDigit = true) : 0x30 ≤ c.toNat ∧ c.toNat ≤ 0x39 := by
  simp only [Char.isDigit, Bool.and_eq_true, decide_eq_true_eq] at h
  exact h

theorem isWordChar_of_isDigit {c : Char} (h : c.isDigit = true) : isWordChar c = true := by
  have hnumeric : Text.inRanges Text.numeric c = true :=
    (Text.inRanges_iff _ c).2 ⟨(0x30, 0x39), List.mem_cons_self, code_of_isDigit h⟩
  rw [isWordChar, Text.isAlphanumeric, hnumeric, Bool.or_true, Bool.or_true]

theorem not_isWordStart_of_isDigit {c : Char} (h : c.isDigit = true) : isWordStart c = false := by
  have hcode := code_of_isDigit h
  rw [isWordStart, Bool.or_eq_false_iff]
  constructor
  · rw [beq_eq_false_iff_ne]
    rintro rfl
    exact absurd h (by decide)
  · rw [← Bool.not_eq_true, Text.isAlphabetic, Text.inRanges_iff]
    rintro ⟨r, hr, hlow, hhigh⟩
    have hclear := List.all_eq_true.1 clear_tables.2 r hr
    rw [Bool.or_eq_true, Nat.blt_eq, Nat.blt_eq] at hclear
    omega

theorem not_isBlank_of_isWordChar {c : Char} (h : isWordChar c = true) :
    Text.isBlank c = false := by
  rw [← Bool.not_eq_true]
  intro hblank
  have hgap : Text.inRanges gaps c = true := by
    rw [gaps, Text.inRanges, List.any_append, Bool.or_eq_true]
    exact .inl hblank
  rw [isWordChar_gap hgap] at h
  cases h

theorem not_punctuation {c : Char} (h : isWordChar c = true) : c ∉ punctuation := by
  intro hc
  simp [isWordChar_punctuation hc] at h

/-! ### Marks and their characters -/

def singles : List (Char × Token) :=
  [('.', .dot), (',', .comma), ('+', .plus), ('-', .minus), ('*', .star), ('/', .slash),
    ('%', .percent), ('(', .openParen), (')', .closeParen), ('[', .openBracket),
    (']', .closeBracket), ('!', .bang), ('<', .less), ('>', .greater)]

def pairs : List ((Char × Char) × Token) :=
  [(('=', '='), .equal), (('=', '>'), .arrow), (('!', '='), .notEqual), (('<', '='), .lessOrEqual),
    (('>', '='), .greaterOrEqual), (('&', '&'), .and), (('|', '|'), .or)]

theorem mem_singles {c : Char} {t : Token} (h : single? c = some t) : (c, t) ∈ singles := by
  rw [single?.eq_def] at h
  split at h <;> cases h <;> simp [singles]

theorem mem_pairs {c d : Char} {t : Token} (h : pair? c d = some t) : ((c, d), t) ∈ pairs := by
  rw [pair?.eq_def] at h
  split at h <;> cases h <;> simp [pairs]

theorem singles_punctuation : ∀ p ∈ singles, p.1 ∈ punctuation := by simp [singles, punctuation]

theorem pairs_punctuation : ∀ p ∈ pairs, p.1.1 ∈ punctuation := by simp [pairs, punctuation]

theorem single?_of_not_punctuation {c : Char} (h : c ∉ punctuation) : single? c = none := by
  rw [Option.eq_none_iff_forall_ne_some]
  exact fun t ht => h (singles_punctuation _ (mem_singles ht))

theorem pair?_of_not_punctuation {c : Char} (h : c ∉ punctuation) (d : Char) :
    pair? c d = none := by
  rw [Option.eq_none_iff_forall_ne_some]
  exact fun t ht => h (pairs_punctuation _ (mem_pairs ht))

theorem pair?_bang {d : Char} (h : d ≠ '=') : pair? '!' d = none := by
  rw [Option.eq_none_iff_forall_ne_some]
  intro t ht
  have hmem := mem_pairs ht
  simp [pairs, h] at hmem

theorem mark?_of_not_punctuation {c : Char} (h : c ∉ punctuation) (cs : List Char) (p : Nat) :
    mark? c cs p = none := by
  have hpair : cs.head?.bind (pair? c) = none := by
    cases cs with
    | nil => rfl
    | cons d cs => exact pair?_of_not_punctuation h d
  rw [mark?, hpair, single?_of_not_punctuation h]
  rfl

/-- What begins with no mark and no quote is a word or a number. -/
theorem tokenAt_of_not_punctuation {c : Char} (h : c ∉ punctuation) (cs : List Char) (p : Nat) :
    tokenAt c cs p =
      if isWordStart c then
        .ok (Lexer.word (String.ofList ((c :: cs).takeWhile isWordChar)),
          ⟨(c :: cs).dropWhile isWordChar, p + ((c :: cs).takeWhile isWordChar).length⟩)
      else if c.isDigit then number (c :: cs) p
      else fail (.unexpectedCharacter c) p := by
  have heq : c ≠ '=' := fun he => h (he ▸ by decide)
  have hquote : ¬(c = '"' ∨ c = '\'') := by
    rintro (rfl | rfl)
    · exact h (by decide)
    · exact h (by decide)
  rw [tokenAt, mark?_of_not_punctuation h]
  dsimp only
  rw [if_neg heq, if_neg hquote]

/-! ### Texts and their tokens -/

/-- The whole text has these tokens, the last of which is the end. -/
def Lexes (cs : List Char) (ts : List Token) : Prop :=
  ∀ fuel p, cs.length < fuel → ∃ L, tokens fuel cs p = (L, none) ∧ marks L = ts

theorem Lexes.nil : Lexes [] [.eof] := by
  intro fuel p hf
  obtain ⟨fuel, rfl⟩ : ∃ k, fuel = k + 1 := ⟨fuel - 1, by omega⟩
  exact ⟨[⟨.eof, p⟩], rfl, rfl⟩

theorem Lexes.blank {cs : List Char} {ts : List Token} (h : Lexes cs ts) :
    Lexes (' ' :: cs) ts := by
  intro fuel p hf
  obtain ⟨fuel, rfl⟩ : ∃ k, fuel = k + 1 := ⟨fuel - 1, by omega⟩
  obtain ⟨L, hL, hm⟩ := h (fuel + 1) (p + 1) (Nat.lt_of_succ_lt hf)
  refine ⟨L, ?_, hm⟩
  rw [← hL, tokens, tokens, skipBlanks, if_pos (by decide)]

/-- A token at the head of a text, which takes at least one character. -/
theorem Lexes.token {c : Char} {cs rest : List Char} {t : Token} {ts : List Token}
    (hc : Text.isBlank c = false) (ht : ∀ p, ∃ p', tokenAt c cs p = .ok (t, ⟨rest, p'⟩))
    (hlen : rest.length ≤ cs.length) (h : Lexes rest ts) : Lexes (c :: cs) (t :: ts) := by
  intro fuel p hf
  obtain ⟨fuel, rfl⟩ : ∃ k, fuel = k + 1 := ⟨fuel - 1, by omega⟩
  obtain ⟨p', hp⟩ := ht p
  obtain ⟨L, hL, hm⟩ := h fuel p' (by simp only [List.length_cons] at hf; omega)
  refine ⟨⟨t, p⟩ :: L, ?_, congrArg (t :: ·) hm⟩
  rw [tokens, skipBlanks, hc, if_neg Bool.false_ne_true]
  dsimp only
  rw [hp]
  dsimp only
  rw [hL]

/-! ### Marks -/

theorem Lexes.single {c : Char} {cs : List Char} {t : Token} {ts : List Token}
    (hc : c ∈ punctuation) (ht : single? c = some t) (hpair : cs.head?.bind (pair? c) = none)
    (h : Lexes cs ts) : Lexes (c :: cs) (t :: ts) := by
  refine Lexes.token (isBlank_punctuation hc) (fun p => ⟨p + 1, ?_⟩) (Nat.le_refl _) h
  rw [tokenAt, mark?, hpair, ht]
  rfl

theorem Lexes.pair {c d : Char} {cs : List Char} {t : Token} {ts : List Token}
    (hc : c ∈ punctuation) (ht : pair? c d = some t) (h : Lexes cs ts) :
    Lexes (c :: d :: cs) (t :: ts) := by
  refine Lexes.token (isBlank_punctuation hc) (fun p => ⟨p + 2, ?_⟩) (Nat.le_succ _) h
  rw [tokenAt, mark?, List.head?_cons, Option.bind_some, ht]
  rfl

theorem Lexes.openParen {cs : List Char} {ts : List Token} (h : Lexes cs ts) :
    Lexes ('(' :: cs) (.openParen :: ts) :=
  .single (by decide) rfl (by cases cs <;> rfl) h

theorem Lexes.closeParen {cs : List Char} {ts : List Token} (h : Lexes cs ts) :
    Lexes (')' :: cs) (.closeParen :: ts) :=
  .single (by decide) rfl (by cases cs <;> rfl) h

theorem Lexes.dot {cs : List Char} {ts : List Token} (h : Lexes cs ts) :
    Lexes ('.' :: cs) (.dot :: ts) :=
  .single (by decide) rfl (by cases cs <;> rfl) h

theorem Lexes.minus {cs : List Char} {ts : List Token} (h : Lexes cs ts) :
    Lexes ('-' :: cs) (.minus :: ts) :=
  .single (by decide) rfl (by cases cs <;> rfl) h

theorem Lexes.bang {d : Char} {cs : List Char} {ts : List Token} (hd : d ≠ '=')
    (h : Lexes (d :: cs) ts) : Lexes ('!' :: d :: cs) (.bang :: ts) :=
  .single (by decide) rfl (pair?_bang hd) h

/-! ### Words -/

/-- The characters of a word. -/
def IsWord (cs : List Char) : Prop :=
  ∃ c ds, cs = c :: ds ∧ isWordStart c = true ∧ ∀ d ∈ ds, isWordChar d = true

/-- No further character of a word follows. -/
def Ends (cs : List Char) : Prop := ∀ c, cs.head? = some c → isWordChar c = false

theorem span_word {cs rest : List Char} (h : ∀ d ∈ cs, isWordChar d = true) (hr : Ends rest) :
    (cs ++ rest).takeWhile isWordChar = cs ∧ (cs ++ rest).dropWhile isWordChar = rest := by
  have hrest : rest.takeWhile isWordChar = [] ∧ rest.dropWhile isWordChar = rest := by
    cases rest with
    | nil => exact ⟨rfl, rfl⟩
    | cons c rest =>
      have hc := hr c rfl
      exact ⟨List.takeWhile_cons_of_neg (by simp [hc]), List.dropWhile_cons_of_neg (by simp [hc])⟩
  rw [List.takeWhile_append_of_pos h, List.dropWhile_append_of_pos h, hrest.1, hrest.2,
    List.append_nil]
  exact ⟨rfl, rfl⟩

theorem Lexes.word {cs rest : List Char} {ts : List Token} (hw : IsWord cs) (hr : Ends rest)
    (h : Lexes rest ts) : Lexes (cs ++ rest) (Lexer.word (String.ofList cs) :: ts) := by
  obtain ⟨c, ds, rfl, hc, hds⟩ := hw
  have hword := isWordChar_of_isWordStart hc
  obtain ⟨htake, hdrop⟩ := span_word (List.forall_mem_cons.2 ⟨hword, hds⟩) hr
  rw [List.cons_append] at htake hdrop ⊢
  refine Lexes.token (not_isBlank_of_isWordChar hword) (fun p => ⟨p + (c :: ds).length, ?_⟩)
    (by simp) h
  rw [tokenAt_of_not_punctuation (not_punctuation hword), if_pos hc, htake, hdrop]

/-- Names that are no words of their own. -/
def Proper (x : String) : Prop := IsWord x.toList ∧ Lexer.word x = .identifier x

/-! ### Strings -/

/-- An escaped character is read as itself. -/
theorem stringChars_escaped (c : Char) (cs : List Char) (p : Nat) (read : List Char) :
    ∃ p', stringChars '\'' ((Expr.escapeChar c).toList ++ cs) p read =
      stringChars '\'' cs p' (c :: read) := by
  rw [Expr.escapeChar]
  by_cases hq : c = '\''
  · subst hq
    exact ⟨p + 2, rfl⟩
  by_cases hs : c = '\\'
  · subst hs
    exact ⟨p + 2, rfl⟩
  by_cases hn : c = '\n'
  · subst hn
    exact ⟨p + 2, rfl⟩
  by_cases ht : c = '\t'
  · subst ht
    exact ⟨p + 2, rfl⟩
  by_cases hr : c = '\r'
  · subst hr
    exact ⟨p + 2, rfl⟩
  refine ⟨p + 1, ?_⟩
  rw [if_neg hq, if_neg hs, if_neg hn, if_neg ht, if_neg hr, Char.toString, String.toList_singleton,
    List.singleton_append, stringChars.eq_def]
  dsimp only
  rw [if_neg hq, if_neg hs]

theorem stringChars_flatMap (ds cs : List Char) (p : Nat) (read : List Char) :
    ∃ p', stringChars '\'' (ds.flatMap (fun c => (Expr.escapeChar c).toList) ++ '\'' :: cs) p read =
      .ok (String.ofList (read.reverse ++ ds), ⟨cs, p'⟩) := by
  induction ds generalizing p read with
  | nil =>
    refine ⟨p + 1, ?_⟩
    rw [List.flatMap_nil, List.nil_append, List.append_nil, stringChars.eq_def]
    rfl
  | cons d ds ih =>
    obtain ⟨p1, h1⟩ := stringChars_escaped d
      (ds.flatMap (fun c => (Expr.escapeChar c).toList) ++ '\'' :: cs) p read
    obtain ⟨p2, h2⟩ := ih p1 (d :: read)
    refine ⟨p2, ?_⟩
    rw [List.flatMap_cons, List.append_assoc, h1, h2, List.reverse_cons, List.append_assoc]
    rfl

theorem toList_quoted (s : String) : (Expr.quoted s).toList =
    '\'' :: (s.toList.flatMap (fun c => (Expr.escapeChar c).toList) ++ ['\'']) := by
  simp [Expr.quoted, String.toList_join, List.flatMap_map]

theorem Lexes.string {s : String} {rest : List Char} {ts : List Token} (h : Lexes rest ts) :
    Lexes ((Expr.quoted s).toList ++ rest) (.string s :: ts) := by
  rw [toList_quoted, List.cons_append, List.append_assoc, List.singleton_append]
  refine Lexes.token (isBlank_punctuation (by decide)) (fun p => ?_) ?_ h
  · obtain ⟨p', hp⟩ := stringChars_flatMap s.toList rest (p + 1) []
    refine ⟨p', ?_⟩
    have hmark (cs : List Char) : mark? '\'' cs p = none := by
      cases cs <;> rfl
    rw [tokenAt, hmark]
    dsimp only
    rw [if_neg (by decide), if_pos (by decide), hp]
    simp [Except.map]
  · rw [List.length_append, List.length_cons]
    omega

end Lexer

end Quarry.Expr
