import Quarry.Proofs.Expr.Completeness
import Quarry.Proofs.Expr.Scanned

/-!
Texts that are put together from texts, with the tokens of them and what is derived from these.
-/

namespace Quarry.Expr

open Lexer

/-! ### Levels -/

theorem Derives.loosen {n m : Nat} {e : Expr} {ts rest : List Token} (h : Derives n e ts rest)
    (hm : m ≤ n) (hn : n ≤ 8) : Derives m e ts rest := by
  induction n with
  | zero => rwa [Nat.le_zero.1 hm]
  | succ n ih =>
    rcases Nat.lt_or_eq_of_le hm with hlt | rfl
    · exact ih (.single (by omega) h) (Nat.le_of_lt_succ hlt) (Nat.le_of_succ_le hn)
    · exact h

theorem Terms.snoc {n : Nat} {l e r : Expr} {t : Token} {op : BinaryOp}
    {ts us mid rest : List Token} (h : Terms n l e ts us) (hus : us = t :: mid)
    (hop : (n, t, op) ∈ chains) (hr : Derives (n + 1) r mid rest) :
    Terms n l (.binary op e r) ts rest := by
  match h with
  | .nil => exact hus ▸ .cons hop hr .nil
  | .cons hop' h hs => exact .cons hop' h (hs.snoc hus hop hr)

theorem Calls.snoc {e r r' : Expr} {ts us mid rest : List Token} (h : Calls e r ts us)
    (hus : us = .dot :: mid) (hm : Method r r' mid rest) : Calls e r' ts rest := by
  match h with
  | .nil => exact hus ▸ .cons hm .nil
  | .cons h hs => exact .cons h (hs.snoc hus hm)

theorem Derives.cases_chain {n : Nat} {e : Expr} {ts rest : List Token} (h : Derives n e ts rest)
    (hn : n = 4 ∨ n = 5) : ∃ l mid, Derives (n + 1) l ts mid ∧ Terms n l e mid rest := by
  cases h with
  | single _ h => exact ⟨_, _, h, .nil⟩
  | chain _ h hs => exact ⟨_, _, h, hs⟩
  | connect hk _ _ _ =>
    simp only [connectives, List.mem_cons, Prod.mk.injEq, List.not_mem_nil, or_false] at hk
    omega
  | _ => omega

theorem Derives.cases_calls {e : Expr} {ts rest : List Token} (h : Derives 7 e ts rest) :
    ∃ e' mid, Derives 8 e' ts mid ∧ Calls e' e mid rest := by
  cases h with
  | single _ h => exact ⟨_, _, h, .nil⟩
  | calls h hs => exact ⟨_, _, h, hs⟩
  | connect hk _ _ _ =>
    simp only [connectives, List.mem_cons, Prod.mk.injEq, List.not_mem_nil, or_false] at hk
    omega
  | chain hn _ _ => omega

theorem chains_level {n : Nat} {t : Token} {op : BinaryOp} (h : (n, t, op) ∈ chains) :
    n = 4 ∨ n = 5 := by
  simp only [chains, List.mem_cons, Prod.mk.injEq, List.not_mem_nil, or_false] at h
  omega

/-- What stands to the left of an operator may be a chain of its level. -/
theorem Derives.term {n : Nat} {l r : Expr} {t : Token} {op : BinaryOp} {ts mid rest : List Token}
    (h : Derives n l ts (t :: mid)) (hop : (n, t, op) ∈ chains) (hr : Derives (n + 1) r mid rest) :
    Derives n (.binary op l r) ts rest := by
  obtain ⟨l', mid', hl, hs⟩ := h.cases_chain (chains_level hop)
  exact .chain (chains_level hop) hl (hs.snoc rfl hop hr)

theorem Derives.call {e r : Expr} {ts mid rest : List Token} (h : Derives 7 e ts (.dot :: mid))
    (hm : Method e r mid rest) : Derives 7 r ts rest := by
  obtain ⟨e', mid', he, hs⟩ := h.cases_calls
  exact .calls he (hs.snoc rfl hm)

/-! ### What may follow an expression -/

/-- Tokens that neither make a call of a name before them nor go on with a field. -/
structure Clear (ts : List Token) : Prop where
  head : ts.head? ≠ some .openParen
  step : ∀ s mid, ¬Step s ts mid

theorem Clear.cons {t : Token} (h : Parser.level t < 7) (ts : List Token) : Clear (t :: ts) where
  head := by
    rintro ⟨⟩
    exact absurd h (by decide)
  step := by
    intro s mid hs
    cases hs with
    | member _ => exact absurd h (by decide)
    | index _ => exact absurd h (by decide)
    | every => exact absurd h (by decide)

theorem Clear.call (x : String) (ts : List Token) :
    Clear (.dot :: .identifier x :: .openParen :: ts) where
  head := by simp
  step := by
    intro s mid h
    cases h with
    | member h => exact h rfl

/-! ### Texts -/

/-- A text with its tokens, whatever text follows that is no part of the last of them. -/
structure Spells (cs : List Char) (ts : List Token) : Prop where
  lexes : ∀ {rest us}, Parted rest → Lexes rest us → Lexes (cs ++ rest) (ts ++ us)
  head : ∃ c ds, cs = c :: ds ∧ c ≠ '='

/-- A text that is no part of a token before it. -/
structure Trails (cs : List Char) (ts : List Token) : Prop where
  parted : ∀ {rest}, Parted rest → Parted (cs ++ rest)
  lexes : ∀ {rest us}, Parted rest → Lexes rest us → Lexes (cs ++ rest) (ts ++ us)

section

variable {cs ds : List Char} {ts us : List Token}

theorem Trails.nil : Trails [] [] := ⟨id, fun _ h => h⟩

theorem Trails.append (h : Trails cs ts) (h' : Trails ds us) : Trails (cs ++ ds) (ts ++ us) where
  parted hr := by
    rw [List.append_assoc]
    exact h.parted (h'.parted hr)
  lexes hr hus := by
    rw [List.append_assoc, List.append_assoc]
    exact h.lexes (h'.parted hr) (h'.lexes hr hus)

theorem Spells.append (h : Spells cs ts) (h' : Trails ds us) : Spells (cs ++ ds) (ts ++ us) where
  lexes hr hus := by
    rw [List.append_assoc, List.append_assoc]
    exact h.lexes (h'.parted hr) (h'.lexes hr hus)
  head := by
    obtain ⟨c, cs, rfl, hc⟩ := h.head
    exact ⟨c, _, rfl, hc⟩

theorem Spells.word (h : IsWord cs) : Spells cs [Lexer.word (String.ofList cs)] where
  lexes hr hus := .word h hr.ends hus
  head := by
    obtain ⟨c, ds, rfl, hc, -⟩ := h
    refine ⟨c, ds, rfl, ?_⟩
    rintro rfl
    exact not_punctuation (isWordChar_of_isWordStart hc) (by decide)

theorem Spells.name {x : String} (h : Proper x) : Spells x.toList [.identifier x] := by
  have hx := Spells.word h.1
  rwa [String.ofList_toList, h.2] at hx

theorem Trails.member {x : String} (h : Proper x) :
    Trails ('.' :: x.toList) [.dot, .identifier x] where
  parted _ := by
    obtain ⟨c, ds, hx, hc, -⟩ := h.1
    rw [hx]
    refine parted_dot ?_ _
    rw [← Bool.not_eq_true]
    exact fun hd => by simp [not_isWordStart_of_isDigit hd] at hc
  lexes hr hus := ((Spells.name h).lexes hr hus).dot

/-- A text in parentheses. -/
theorem Trails.enclosed (h : Spells cs ts) :
    Trails ('(' :: (cs ++ [')'])) (.openParen :: (ts ++ [.closeParen])) where
  parted _ := parted_cons (.inl (by decide)) (by decide) _
  lexes _ hus := by
    have hclose := h.lexes (parted_closeParen _) hus.closeParen
    simpa using hclose.openParen

theorem Trails.empty : Trails ['(', ')'] [.openParen, .closeParen] where
  parted _ := parted_cons (.inl (by decide)) (by decide) _
  lexes _ hus := hus.closeParen.openParen

end

/-! ### Marks between blanks -/

def Mark (s : String) (t : Token) : Prop :=
  (∃ c ∈ punctuation, s.toList = [c] ∧ single? c = some t ∧ pair? c ' ' = none) ∨
    ∃ c ∈ punctuation, ∃ d, s.toList = [c, d] ∧ pair? c d = some t

theorem Trails.mark {s : String} {t : Token} {cs : List Char} {ts : List Token} (h : Mark s t)
    (hs : Spells cs ts) : Trails (' ' :: (s.toList ++ ' ' :: cs)) (t :: ts) where
  parted _ := parted_blank _
  lexes {rest us} hr hus := by
    have hcs := (hs.lexes hr hus).blank
    have hmark : Lexes (s.toList ++ ' ' :: (cs ++ rest)) (t :: (ts ++ us)) := by
      obtain ⟨c, hc, htext, hone, htwo⟩ | ⟨c, hc, d, htext, htwo⟩ := h
      · rw [htext]
        exact .single hc hone htwo hcs
      · rw [htext]
        exact .pair hc htwo hcs
    simpa using hmark.blank

theorem mark_comparison {t : Token} {op : BinaryOp} (h : (t, op) ∈ comparisons) :
    Mark op.symbol t := by
  simp only [comparisons, List.mem_cons, Prod.mk.injEq, List.not_mem_nil, or_false] at h
  rcases h with ⟨rfl, rfl⟩ | ⟨rfl, rfl⟩ | ⟨rfl, rfl⟩ | ⟨rfl, rfl⟩ | ⟨rfl, rfl⟩ | ⟨rfl, rfl⟩
  · exact .inr ⟨'=', by decide, '=', rfl, rfl⟩
  · exact .inr ⟨'!', by decide, '=', rfl, rfl⟩
  · exact .inl ⟨'<', by decide, rfl, rfl, rfl⟩
  · exact .inl ⟨'>', by decide, rfl, rfl, rfl⟩
  · exact .inr ⟨'<', by decide, '=', rfl, rfl⟩
  · exact .inr ⟨'>', by decide, '=', rfl, rfl⟩

theorem mark_chain {n : Nat} {t : Token} {op : BinaryOp} (h : (n, t, op) ∈ chains) :
    Mark op.symbol t := by
  simp only [chains, List.mem_cons, Prod.mk.injEq, List.not_mem_nil, or_false] at h
  rcases h with ⟨-, rfl, rfl⟩ | ⟨-, rfl, rfl⟩ | ⟨-, rfl, rfl⟩ | ⟨-, rfl, rfl⟩ | ⟨-, rfl, rfl⟩
  · exact .inl ⟨'+', by decide, rfl, rfl, rfl⟩
  · exact .inl ⟨'-', by decide, rfl, rfl, rfl⟩
  · exact .inl ⟨'*', by decide, rfl, rfl, rfl⟩
  · exact .inl ⟨'/', by decide, rfl, rfl, rfl⟩
  · exact .inl ⟨'%', by decide, rfl, rfl, rfl⟩

theorem mark_connective {n : Nat} {t : Token} {k : Connective} (h : (n, t, k) ∈ connectives) :
    Mark k.symbol t := by
  simp only [connectives, List.mem_cons, Prod.mk.injEq, List.not_mem_nil, or_false] at h
  rcases h with ⟨-, rfl, rfl⟩ | ⟨-, rfl, rfl⟩
  · exact .inr ⟨'|', by decide, '|', rfl, rfl⟩
  · exact .inr ⟨'&', by decide, '&', rfl, rfl⟩

theorem mark_arrow : Mark "=>" .arrow := .inr ⟨'=', by decide, '>', rfl, rfl⟩

/-! ### Texts of expressions -/

/-- A text of an expression of a level. -/
def Prints (n : Nat) (e : Expr) (cs : List Char) : Prop :=
  ∃ ts, Spells cs ts ∧ ∀ rest, Clear rest → Derives n e (ts ++ rest) rest

section

variable {n : Nat} {e l r : Expr} {cs ds : List Char}

theorem Prints.loosen {m : Nat} (h : Prints n e cs) (hm : m ≤ n) (hn : n ≤ 8) : Prints m e cs := by
  obtain ⟨ts, hs, hd⟩ := h
  exact ⟨ts, hs, fun rest hr => (hd rest hr).loosen hm hn⟩

/-- Only the end stands after the whole of a text. -/
theorem Prints.whole (h : Prints 1 e cs) : ∃ ts, Lexes cs ts ∧ Derives 1 e ts [.eof] := by
  obtain ⟨ts, hs, hd⟩ := h
  refine ⟨ts ++ [.eof], ?_, hd _ (.cons (by decide) [])⟩
  have hlex := hs.lexes parted_nil .nil
  rwa [List.append_nil] at hlex

theorem Prints.constant {t : Token} {a : Atom} (h : Constant t a) (hs : Spells cs [t]) :
    Prints 8 (.literal a) cs :=
  ⟨[t], hs, fun _ _ => .constant h⟩

theorem Prints.parens (h : Prints 1 e cs) : Prints 8 e ('(' :: (cs ++ [')'])) := by
  obtain ⟨ts, hs, hd⟩ := h
  refine ⟨_, ⟨(Trails.enclosed hs).lexes, _, _, rfl, by decide⟩, fun rest _ => ?_⟩
  simpa using Derives.group (hd _ (.cons (by decide) rest))

theorem Prints.inParens {s : String} {least k : Nat} (h : Prints (min 7 k) e s.toList)
    (hk : 1 ≤ k) : Prints (min 7 least) e (Expr.inParens least k s).toList := by
  rw [Expr.inParens]
  split
  · have hp := (h.loosen (m := 1) (by omega) (by omega)).parens.loosen (m := min 7 least)
      (by omega) (Nat.le_refl 8)
    simpa using hp
  · exact h.loosen (by omega) (by omega)

/-! ### Operators -/

theorem Prints.not (h : Prints 6 e cs) : Prints 6 (.not e) ('!' :: cs) := by
  obtain ⟨ts, hs, hd⟩ := h
  refine ⟨.bang :: ts, ⟨fun hr hus => ?_, _, _, rfl, by decide⟩, fun rest hr => .not (hd rest hr)⟩
  obtain ⟨c, ds, rfl, hc⟩ := hs.head
  exact .bang hc (hs.lexes hr hus)

theorem Prints.minus (h : Prints 6 e cs)
    (he : ∀ n, e = .literal (.long n) → Int64.minValue < n) :
    Prints 6 (Parser.negated e) ('-' :: cs) := by
  obtain ⟨ts, hs, hd⟩ := h
  refine ⟨.minus :: ts, ⟨fun hr hus => ?_, _, _, rfl, by decide⟩, fun rest hr => ?_⟩
  · exact .minus (hs.lexes hr hus)
  · exact Parser.derives_negated (hd rest hr) he

theorem Prints.compare {t : Token} {op : BinaryOp} (hop : (t, op) ∈ comparisons)
    (hl : Prints 4 l cs) (hr : Prints 4 r ds) :
    Prints 3 (.binary op l r) (cs ++ ' ' :: (op.symbol.toList ++ ' ' :: ds)) := by
  obtain ⟨ts, hs, hd⟩ := hl
  obtain ⟨us, hus, hd'⟩ := hr
  refine ⟨_, hs.append (.mark (mark_comparison hop) hus), fun rest hrest => ?_⟩
  have ht : Parser.level t < 7 := by simp [(Parser.comparisonOp?_of_mem hop).2]
  rw [List.append_assoc, List.cons_append]
  exact .compare hop (hd _ (.cons ht _)) (hd' rest hrest)

theorem Prints.chain {t : Token} {op : BinaryOp} (hop : (n, t, op) ∈ chains)
    (hl : Prints n l cs) (hr : Prints (n + 1) r ds) :
    Prints n (.binary op l r) (cs ++ ' ' :: (op.symbol.toList ++ ' ' :: ds)) := by
  obtain ⟨ts, hs, hd⟩ := hl
  obtain ⟨us, hus, hd'⟩ := hr
  refine ⟨_, hs.append (.mark (mark_chain hop) hus), fun rest hrest => ?_⟩
  have ht : Parser.level t < 7 := by
    have hlevel := Parser.level_of_mem_chains hop
    have hn := chains_level hop
    omega
  rw [List.append_assoc, List.cons_append]
  exact (hd _ (.cons ht _)).term hop (hd' rest hrest)

/-! ### Calls -/

theorem Prints.apply {x : String} (hx : Proper x) (h : Prints 1 e cs)
    (hr : ∀ {ts rest}, Arguments [e] ts rest →
      Derives 8 r (.identifier x :: .openParen :: ts) rest) :
    Prints 8 r (x.toList ++ '(' :: (cs ++ [')'])) := by
  obtain ⟨ts, hs, hd⟩ := h
  refine ⟨_, (Spells.name hx).append (.enclosed hs), fun rest _ => ?_⟩
  simpa using hr (.last (hd _ (.cons (by decide) rest)))

theorem Prints.call {x : String} {us : List Token} (h : Prints 7 e cs) (hx : Proper x)
    (hs : Trails ds (.openParen :: us))
    (hm : ∀ rest, Method e r (.identifier x :: .openParen :: (us ++ rest)) rest) :
    Prints 7 r (cs ++ '.' :: (x.toList ++ ds)) := by
  obtain ⟨ts, hts, hd⟩ := h
  refine ⟨_, hts.append ((Trails.member hx).append hs), fun rest _ => ?_⟩
  rw [List.append_assoc]
  exact (hd _ (.call x _)).call (hm rest)

/-- Calls with an expression in their parentheses. -/
theorem Prints.callOn {x : String} (h : Prints 7 e cs) (hx : Proper x) (hl : Prints 1 l ds)
    (hm : ∀ {ts rest}, Derives 1 l ts (.closeParen :: rest) →
      Method e r (.identifier x :: .openParen :: ts) rest) :
    Prints 7 r (cs ++ '.' :: (x.toList ++ '(' :: (ds ++ [')']))) := by
  obtain ⟨us, hus, hd⟩ := hl
  refine h.call hx (.enclosed hus) fun rest => ?_
  simpa using hm (hd _ (.cons (by decide) rest))

theorem Prints.callEach {x arg : String} (h : Prints 7 e cs) (hx : Proper x) (harg : Proper arg)
    (hl : Prints 1 l ds)
    (hm : ∀ {ts rest}, Derives 1 l ts (.closeParen :: rest) →
      Method e r (.identifier x :: .openParen :: .identifier arg :: .arrow :: ts) rest) :
    Prints 7 r (cs ++ '.' :: (x.toList ++
      '(' :: (arg.toList ++ ' ' :: ("=>".toList ++ ' ' :: ds) ++ [')']))) := by
  obtain ⟨us, hus, hd⟩ := hl
  refine h.call hx (.enclosed ((Spells.name harg).append (.mark mark_arrow hus))) fun rest => ?_
  simpa using hm (hd _ (.cons (by decide) rest))

end

/-! ### Fields -/

theorem Steps.head {s : String} {ts rest : List Token} (h : Steps s ts rest)
    (hr : rest.head? ≠ some .openParen) : ts.head? ≠ some .openParen := by
  cases h with
  | done _ => exact hr
  | cons h _ => cases h <;> simp

/-- The index of an element, of which the number is a token of its own. -/
theorem Trails.index {n : Int64} (hn : 0 ≤ n) :
    Trails ("[" ++ toString n.toInt ++ "]").toList
      [.openBracket, .integer n, .closeBracket] := by
  obtain ⟨m, hm⟩ := Int.eq_ofNat_of_zero_le (Int64.le_iff_toInt_le.1 hn)
  have htext : ("[" ++ toString n.toInt ++ "]").toList = '[' :: (Nat.toDigits 10 m ++ [']']) := by
    rw [String.toList_append, String.toList_append, hm, ← Int.ofNat_eq_natCast,
      Numeral.toList_toString_ofNat]
    rfl
  rw [htext]
  refine ⟨fun _ => parted_cons (.inl (by decide)) (by decide) _, fun {rest us} _ hus => ?_⟩
  have hclose : Lexes (']' :: rest) (.closeBracket :: us) :=
    .single (by decide) rfl (by cases rest <;> rfl) hus
  have hint := Lexes.integer hm (parted_cons (.inl (by decide)) (by decide) rest) hclose
  have hopen : Lexes ('[' :: (Nat.toDigits 10 m ++ ']' :: rest))
      (.openBracket :: .integer n :: .closeBracket :: us) :=
    .single (by decide) rfl (by cases Nat.toDigits 10 m ++ ']' :: rest <;> rfl) hint
  simpa using hopen

theorem Trails.every : Trails "[*]".toList [.openBracket, .star, .closeBracket] where
  parted _ := parted_cons (c := '[') (.inl (by decide)) (by decide) _
  lexes {rest us} _ hus := by
    have hclose : Lexes (']' :: rest) (.closeBracket :: us) :=
      .single (by decide) rfl (by cases rest <;> rfl) hus
    have hstar : Lexes ('*' :: ']' :: rest) (.star :: .closeBracket :: us) :=
      .single (by decide) rfl rfl hclose
    exact .single (c := '[') (by decide) rfl rfl hstar

theorem StepsText.trails {s : String} (h : StepsText Proper s) :
    ∃ ts, Trails s.toList ts ∧ ∀ rest, Clear rest → Steps s (ts ++ rest) rest := by
  induction h with
  | nil => exact ⟨[], .nil, fun rest hr => .done hr.step⟩
  | @member x s hx _ ih =>
    obtain ⟨ts, hs, hd⟩ := ih
    refine ⟨[.dot, .identifier x] ++ ts, ?_, fun rest hr => ?_⟩
    · simpa using (Trails.member hx).append hs
    · have hsteps := hd rest hr
      exact .cons (.member (hsteps.head hr.head)) hsteps
  | @index n s hn _ ih =>
    obtain ⟨ts, hs, hd⟩ := ih
    refine ⟨[.openBracket, .integer n, .closeBracket] ++ ts, ?_, fun rest hr => ?_⟩
    · rw [String.toList_append]
      exact (Trails.index hn).append hs
    · exact .cons (.index hn) (hd rest hr)
  | @every s _ ih =>
    obtain ⟨ts, hs, hd⟩ := ih
    refine ⟨[.openBracket, .star, .closeBracket] ++ ts, ?_, fun rest hr => ?_⟩
    · rw [String.toList_append]
      exact Trails.every.append hs
    · exact .cons .every (hd rest hr)

theorem Prints.field {x s : String} (hx : Proper x) (hs : StepsText Proper s) :
    Prints 8 (.field (x ++ s) none) (x ++ s).toList := by
  obtain ⟨ts, hts, hd⟩ := hs.trails
  rw [String.toList_append]
  exact ⟨_, (Spells.name hx).append hts, fun rest hr => .field (hd rest hr)⟩

end Quarry.Expr
