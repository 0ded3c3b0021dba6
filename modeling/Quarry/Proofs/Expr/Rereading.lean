import Quarry.Proofs.Expr.Literals

/-!
The text of an expression is read as the expression, but for two kinds of numbers.
-/

namespace Quarry.Expr

open Lexer

/-! ### What a text is read as -/

mutual

/-- The expression that the text of an expression is read as. -/
def reread : Expr → Expr
  | .field name _ => .field name none
  | .literal (.double x) => rereadDouble x
  | .literal a => .literal a
  | .unary .negate e => Parser.negated e.reread
  | .unary op e => .unary op e.reread
  | .binary op l r => .binary op l.reread r.reread
  | .aggregate op f x b => .aggregate op f.reread x b.reread
  | .count f => .count f.reread
  | .connect k es => .connect k (rereadAll es)
  | .not e => .not e.reread
  | .quantifier q f x b => .quantifier q f.reread x b.reread

def rereadAll : List Expr → List Expr
  | [] => []
  | e :: es => e.reread :: rereadAll es

end

mutual

/-- An expression and all that it is made of. -/
def nodes : Expr → List Expr
  | .field name path => [.field name path]
  | .literal a => [.literal a]
  | .unary op e => .unary op e :: e.nodes
  | .binary op l r => .binary op l r :: (l.nodes ++ r.nodes)
  | .aggregate op f x b => .aggregate op f x b :: (f.nodes ++ b.nodes)
  | .count f => .count f :: f.nodes
  | .connect k es => .connect k es :: nodesAll es
  | .not e => .not e :: e.nodes
  | .quantifier q f x b => .quantifier q f x b :: (f.nodes ++ b.nodes)

def nodesAll : List Expr → List Expr
  | [] => []
  | e :: es => e.nodes ++ nodesAll es

end

theorem nodesAll_eq (es : List Expr) : nodesAll es = es.flatMap nodes := by
  induction es with
  | nil => rfl
  | cons e es ih => rw [nodesAll, ih, List.flatMap_cons]

theorem rereadAll_eq (es : List Expr) : rereadAll es = es.map reread := by
  induction es with
  | nil => rfl
  | cons e es ih => rw [rereadAll, ih, List.map_cons]

/-- Neither a minus sign before a number nor a number that is not finite. -/
def Exact : Expr → Prop
  | .unary .negate e => isNumber e = false
  | .literal (.double x) => x.isFinite = true
  | _ => True

theorem negated_eq_iff {a b : Expr} :
    Parser.negated a = .unary .negate b ↔ isNumber a = false ∧ a = b := by
  rcases Parser.negated_cases a with ⟨n, rfl⟩ | ⟨x, rfl⟩ | ⟨hnum, heq⟩
  · simp [isNumber, Parser.negated]
  · simp [isNumber, Parser.negated]
  · simp [hnum, heq]

theorem reread_unary {op : UnaryOp} (h : op ≠ .negate) (e : Expr) :
    reread (.unary op e) = .unary op e.reread := by
  cases op with
  | negate => exact absurd rfl h
  | _ => rfl

theorem exact_unary {op : UnaryOp} (h : op ≠ .negate) (e : Expr) : Exact (.unary op e) := by
  cases op with
  | negate => exact absurd rfl h
  | _ => trivial

variable {N : String → Prop}

theorem reread_eq_iff {e : Expr} (h : Formed N e) : e.reread = e ↔ ∀ a ∈ e.nodes, Exact a := by
  induction h with
  | field _ _ => simp [reread, nodes, Exact]
  | @literal a _ =>
    rw [nodes, List.forall_mem_singleton]
    cases a with
    | double x => exact rereadDouble_eq_iff
    | _ => simp [reread, Exact]
  | @unary op e _ ih =>
    rw [nodes, List.forall_mem_cons]
    by_cases hop : op = .negate
    · subst hop
      rw [reread, negated_eq_iff, Exact, ← ih]
      exact and_congr_left fun he => by rw [he]
    · rw [reread_unary hop, ← ih]
      simp [exact_unary hop]
  | binary _ _ ihl ihr => simp [reread, nodes, Exact, ihl, ihr, or_imp, forall_and]
  | aggregate _ _ _ _ ih ihb => simp [reread, nodes, Exact, ih, ihb, or_imp, forall_and]
  | count _ _ ih => simp [reread, nodes, Exact, ih]
  | @connect k es _ _ ih =>
    rw [reread, nodes, List.forall_mem_cons, nodesAll_eq, rereadAll_eq]
    have hmap : es.map reread = es ↔ ∀ e ∈ es, e.reread = e := by
      simpa using List.map_inj_left (l := es) (f := reread) (g := id)
    simp only [connect.injEq, true_and, hmap, Exact, List.mem_flatMap]
    constructor
    · rintro h a ⟨e, he, ha⟩
      exact (ih e he).1 (h e he) a ha
    · intro h e he
      exact (ih e he).2 fun a ha => h a ⟨e, he, ha⟩
  | not _ ih => simp [reread, nodes, Exact, ih]
  | quantifier _ _ _ _ ih ihb => simp [reread, nodes, Exact, ih, ihb, or_imp, forall_and]

theorem isField_reread {e : Expr} (h : e.isField = true) : e.reread.isField = true := by
  cases e with
  | field => rfl
  | _ => cases h

/-- The least integer is never read. -/
theorem reread_long {e : Expr} (h : Formed N e) :
    ∀ n, e.reread = .literal (.long n) → Int64.minValue < n := by
  induction h with
  | @literal a ha =>
    cases a with
    | long n =>
      rintro _ ⟨⟩
      exact ha n rfl
    | double x => exact fun n hn => absurd hn (rereadDouble_ne_long x n)
    | _ => exact fun n hn => by cases hn
  | @unary op e _ ih =>
    intro n hn
    by_cases hop : op = .negate
    · subst hop
      rw [reread] at hn
      rcases Parser.negated_cases e.reread with ⟨m, hm⟩ | ⟨x, hx⟩ | ⟨-, heq⟩
      · rw [hm] at hn
        cases hn
        exact minValue_lt_of_toInt (toInt_neg (ih m hm))
      · rw [hx] at hn
        cases hn
      · rw [heq] at hn
        cases hn
    · rw [reread_unary hop] at hn
      cases hn
  | _ => exact fun n hn => by cases hn

/-! ### The text of an expression -/

theorem precedence_pos (e : Expr) : 1 ≤ e.precedence := by
  rw [precedence.eq_def]
  split
  · decide
  · decide
  · decide
  · decide
  · rename_i op _ _
    cases op <;> decide
  · decide
  · decide
  · split <;> decide
  · decide

theorem binary_kinds (op : BinaryOp) : op.isMethod = true ∨
    (op.isMethod = false ∧ op.precedence = 3 ∧ ∃ t, (t, op) ∈ comparisons) ∨
    (op.isMethod = false ∧ op.precedence ≠ 3 ∧ ∃ t, (op.precedence, t, op) ∈ chains) := by
  cases op <;> simp [BinaryOp.isMethod, BinaryOp.isComparison, BinaryOp.precedence, comparisons,
    chains]

theorem mem_connectives (k : Connective) : ∃ t, (k.precedence, t, k) ∈ connectives := by
  cases k <;> simp [Connective.precedence, connectives]

section

variable (e l r f b : Expr) (x : String)

theorem text_literal (a : Atom) : (Expr.literal a).text = atomText a := rfl

theorem text_negate : (Expr.unary .negate e).text = "-" ++ inParens 7 e.precedence e.text := rfl

theorem text_length :
    (Expr.unary .length e).text = inParens 8 e.precedence e.text ++ ".Length()" := rfl

theorem text_function {op : UnaryOp} (hneg : op ≠ .negate) (hlen : op ≠ .length) :
    (Expr.unary op e).text = op.name ++ "(" ++ e.text ++ ")" := by
  cases op with
  | negate => exact absurd rfl hneg
  | length => exact absurd rfl hlen
  | _ => rfl

theorem text_binary (op : BinaryOp) : (Expr.binary op l r).text =
    if op.isMethod = true then
      inParens 8 l.precedence l.text ++ "." ++ op.symbol ++ "(" ++ r.text ++ ")"
    else
      inParens (if op.precedence = 3 then 4 else op.precedence) l.precedence l.text ++ " " ++
        op.symbol ++ " " ++ inParens (op.precedence + 1) r.precedence r.text := rfl

theorem text_aggregate (op : AggregateOp) : (Expr.aggregate op f x b).text =
    f.text ++ "." ++ op.name ++ "(" ++ x ++ " => " ++ b.text ++ ")" := rfl

theorem text_count : (Expr.count f).text = f.text ++ ".Count()" := rfl

theorem text_connect_single (k : Connective) :
    (Expr.connect k [e]).text = k.name ++ "(" ++ e.text ++ ")" := rfl

theorem text_connect (k : Connective) (e' : Expr) (es : List Expr) :
    (Expr.connect k (e :: e' :: es)).text =
      inParens (k.precedence + 1) e.precedence e.text ++ textAfter k (e' :: es) := rfl

theorem textAfter_cons (k : Connective) (es : List Expr) : textAfter k (e :: es) =
    " " ++ k.symbol ++ " " ++ inParens (k.precedence + 1) e.precedence e.text ++
      textAfter k es := rfl

theorem text_not : (Expr.not e).text = "!" ++ inParens 7 e.precedence e.text := rfl

theorem text_quantifier (q : Quantifier) : (Expr.quantifier q f x b).text =
    f.text ++ "." ++ q.name ++ "(" ++ x ++ " => " ++ b.text ++ ")" := rfl

end

theorem precedence_function {op : UnaryOp} (hneg : op ≠ .negate) (e : Expr) :
    (Expr.unary op e).precedence = 8 := by
  cases op with
  | negate => exact absurd rfl hneg
  | _ => rfl

theorem mem_functions {op : UnaryOp} (hlen : op ≠ .length) : op ∈ functions := by
  cases op with
  | length => exact absurd rfl hlen
  | _ => decide

theorem toList_infix (a s b : String) : (a ++ " " ++ s ++ " " ++ b).toList =
    a.toList ++ ' ' :: (s.toList ++ ' ' :: b.toList) := by
  simp

theorem toList_call (a x b : String) : (a ++ "." ++ x ++ "(" ++ b ++ ")").toList =
    a.toList ++ '.' :: (x.toList ++ '(' :: (b.toList ++ [')'])) := by
  simp

theorem toList_callEach (a x y b : String) :
    (a ++ "." ++ x ++ "(" ++ y ++ " => " ++ b ++ ")").toList = a.toList ++ '.' :: (x.toList ++
      '(' :: (y.toList ++ ' ' :: ("=>".toList ++ ' ' :: b.toList) ++ [')'])) := by
  simp

theorem toList_apply (x a : String) :
    (x ++ "(" ++ a ++ ")").toList = x.toList ++ '(' :: (a.toList ++ [')']) := by
  simp

section

variable {e l r f b : Expr}

/-- The text of a part reads as an expression of some level. -/
def PrintsText (e : Expr) : Prop := Prints (min 7 e.precedence) e.reread e.text.toList

theorem PrintsText.least (h : PrintsText e) (n : Nat) :
    Prints (min 7 n) e.reread (Expr.inParens n e.precedence e.text).toList :=
  h.inParens (precedence_pos e)

theorem PrintsText.operand {n : Nat} (h : PrintsText e) (hn : n ≤ 7) :
    Prints n e.reread (Expr.inParens n e.precedence e.text).toList := by
  have hp := h.least n
  rwa [Nat.min_eq_right hn] at hp

theorem PrintsText.whole (h : PrintsText e) : Prints 1 e.reread e.text.toList := by
  have hpos := precedence_pos e
  exact h.loosen (by omega) (by omega)

theorem PrintsText.of_field (h : PrintsText e) (he : e.isField = true) :
    Prints 7 e.reread e.text.toList := by
  cases e with
  | field => exact h
  | _ => cases he

theorem printsText_unary {op : UnaryOp} (h : PrintsText e)
    (hlong : ∀ n, e.reread = .literal (.long n) → Int64.minValue < n) :
    PrintsText (.unary op e) := by
  by_cases hneg : op = .negate
  · subst hneg
    have hp := ((h.operand (Nat.le_refl 7)).loosen (m := 6) (by decide) (by decide)).minus hlong
    rw [PrintsText, text_negate, String.toList_append, reread]
    exact hp
  by_cases hlen : op = .length
  · subst hlen
    have hp := (h.least 8).call (proper_of_mem (by decide)) .empty fun _ => .length
    rw [PrintsText, text_length, String.toList_append]
    exact hp
  rw [PrintsText, text_function e hneg hlen, toList_apply, reread_unary hneg,
    precedence_function hneg]
  have hop := mem_functions hlen
  exact (h.whole.apply (proper_function hop) (.function hop)).loosen (by decide) (by decide)

theorem printsText_binary {op : BinaryOp} (hl : PrintsText l) (hr : PrintsText r) :
    PrintsText (.binary op l r) := by
  rw [PrintsText, text_binary, reread, precedence]
  rcases binary_kinds op with hop | ⟨hmethod, hp, t, ht⟩ | ⟨hmethod, hp, t, ht⟩
  · have hlevel : op.precedence = 7 := by cases op <;> first | rfl | cases hop
    rw [if_pos hop, toList_call, hlevel]
    exact (hl.least 8).callOn (proper_method hop) hr.whole fun h => .test hop (.last h)
  · rw [if_neg (by simp [hmethod]), toList_infix, if_pos hp, hp]
    exact .compare ht (hl.operand (by decide)) (hr.operand (by decide))
  · have hlevel := chains_level ht
    rw [if_neg (by simp [hmethod]), toList_infix, if_neg hp, Nat.min_eq_right (by omega)]
    exact .chain ht (hl.operand (by omega)) (hr.operand (by omega))

theorem printsText_count (h : PrintsText f) (hf : f.isField = true) : PrintsText (.count f) := by
  have hp := (h.of_field hf).call (proper_of_mem (by decide)) .empty
    fun _ => .count (isField_reread hf)
  rw [PrintsText, text_count, String.toList_append]
  exact hp

theorem printsText_aggregate {op : AggregateOp} {x : String} (h : PrintsText f)
    (hf : f.isField = true) (hx : Proper x) (hb : PrintsText b) :
    PrintsText (.aggregate op f x b) := by
  rw [PrintsText, text_aggregate, toList_callEach]
  exact (h.of_field hf).callEach (proper_aggregate op) hx hb.whole
    (.aggregate op (isField_reread hf))

theorem printsText_quantifier {q : Quantifier} {x : String} (h : PrintsText f)
    (hf : f.isField = true) (hx : Proper x) (hb : PrintsText b) :
    PrintsText (.quantifier q f x b) := by
  rw [PrintsText, text_quantifier, toList_callEach]
  exact (h.of_field hf).callEach (proper_quantifier q) hx hb.whole
    (.quantifier q (isField_reread hf))

/-- The further operands of a connective, each after the mark of the connective. -/
theorem exists_operands {k : Connective} {t : Token} (ht : (k.precedence, t, k) ∈ connectives)
    (es : List Expr) (h : ∀ e ∈ es, PrintsText e) :
    ∃ ts, Trails (textAfter k es).toList ts ∧ ∀ rest, Clear rest →
      Clear (ts ++ rest) ∧ Operands k.precedence t (rereadAll es) (ts ++ rest) rest := by
  have hlevel : Parser.level t = k.precedence := Parser.level_of_mem_connectives ht
  have hle : k.precedence ≤ 2 := by cases k <;> decide
  induction es with
  | nil => exact ⟨[], .nil, fun rest hr => ⟨hr, .nil⟩⟩
  | cons e es ih =>
    obtain ⟨he, hes⟩ := List.forall_mem_cons.1 h
    obtain ⟨us, hus, hops⟩ := ih hes
    obtain ⟨ts, hts, hd⟩ := he.operand (n := k.precedence + 1) (by omega)
    refine ⟨t :: ts ++ us, ?_, fun rest hr => ?_⟩
    · have htrails := (Trails.mark (mark_connective ht) hts).append hus
      rw [textAfter_cons]
      simpa using htrails
    · obtain ⟨hclear, hrest⟩ := hops rest hr
      rw [List.append_assoc]
      exact ⟨.cons (by omega) _, .cons (hd _ hclear) hrest⟩

theorem printsText_connect {k : Connective} {es : List Expr} (hne : es ≠ [])
    (h : ∀ e ∈ es, PrintsText e) : PrintsText (.connect k es) := by
  obtain ⟨t, ht⟩ := mem_connectives k
  match es with
  | [e] =>
    have he := h e List.mem_cons_self
    have hp := he.whole.apply (r := .connect k [e.reread]) (proper_connective k)
      fun h => .connective h (List.cons_ne_nil _ _)
    rw [PrintsText, text_connect_single, toList_apply]
    exact hp.loosen (m := 7) (by decide) (by decide)
  | e :: e' :: es =>
    obtain ⟨he, hes⟩ := List.forall_mem_cons.1 h
    obtain ⟨us, hus, hops⟩ := exists_operands ht (e' :: es) hes
    have hle : k.precedence ≤ 2 := by cases k <;> decide
    have hlevel : (Expr.connect k (e :: e' :: es)).precedence = k.precedence := by
      cases k <;> rfl
    obtain ⟨ts, hts, hd⟩ := he.operand (n := k.precedence + 1) (by omega)
    rw [PrintsText, text_connect, hlevel, Nat.min_eq_right (by omega), String.toList_append]
    refine ⟨_, hts.append hus, fun rest hr => ?_⟩
    obtain ⟨hclear, hrest⟩ := hops rest hr
    rw [List.append_assoc]
    exact .connect ht (hd _ hclear) hrest (List.cons_ne_nil _ _)

theorem printsText_not (h : PrintsText e) : PrintsText (.not e) := by
  have hp := ((h.operand (Nat.le_refl 7)).loosen (m := 6) (by decide) (by decide)).not
  rw [PrintsText, text_not, String.toList_append]
  exact hp

end

theorem printsText_literal {a : Atom} (hlong : ∀ n, a = .long n → Int64.minValue < n)
    (hread : ∀ x, a = .double x → x.isFinite = true → ReadsBack x) :
    PrintsText (.literal a) := by
  have hlevel : (Expr.literal a).precedence = if a.isNegative then 6 else 8 := rfl
  rw [PrintsText, text_literal, hlevel]
  suffices hp : Prints (if a.isNegative then 6 else 8) (reread (.literal a)) (atomText a).toList by
    exact hp.loosen (Nat.min_le_right _ _) (literal_le a)
  cases a with
  | null => exact prints_null
  | bool b => exact prints_bool b
  | string s => exact prints_string s
  | long n => exact prints_long (hlong n rfl)
  | double x =>
    by_cases hx : x.isFinite = true
    · rw [reread, rereadDouble_eq_iff.2 hx]
      exact prints_finite hx (hread x rfl hx)
    · exact prints_infinite (by simpa using hx)

/-- Every finite number among the parts of an expression is read back from its text. -/
def Legible (e : Expr) : Prop :=
  ∀ x, .literal (.double x) ∈ e.nodes → x.isFinite = true → ReadsBack x

theorem Formed.printsText {e : Expr} (h : Formed Proper e) (hread : Legible e) :
    PrintsText e := by
  induction h with
  | field hx hs => exact (Prints.field hx hs).loosen (m := 7) (by decide) (by decide)
  | literal ha => exact printsText_literal ha fun x hx => hread x (by simp [nodes, hx])
  | unary h ih =>
    exact printsText_unary (ih fun x hx => hread x (List.mem_cons_of_mem _ hx)) (reread_long h)
  | binary _ _ ihl ihr =>
    exact printsText_binary (ihl fun x hx => hread x (by simp [nodes, hx]))
      (ihr fun x hx => hread x (by simp [nodes, hx]))
  | aggregate _ he hx _ ih ihb =>
    exact printsText_aggregate (ih fun x hx => hread x (by simp [nodes, hx])) he hx
      (ihb fun x hx => hread x (by simp [nodes, hx]))
  | count _ he ih => exact printsText_count (ih fun x hx => hread x (by simp [nodes, hx])) he
  | connect hne _ ih =>
    refine printsText_connect hne fun e he => ih e he fun x hx => hread x ?_
    rw [nodes, nodesAll_eq]
    exact List.mem_cons_of_mem _ (List.mem_flatMap.2 ⟨e, he, hx⟩)
  | not _ ih => exact printsText_not (ih fun x hx => hread x (by simp [nodes, hx]))
  | quantifier _ he hx _ ih ihb =>
    exact printsText_quantifier (ih fun x hx => hread x (by simp [nodes, hx])) he hx
      (ihb fun x hx => hread x (by simp [nodes, hx]))

/-! ### Parsing -/

theorem tokenize_eq_ok {s : String} {L : List Located} :
    tokenize s = .ok L ↔ tokens (s.length + 1) s.toList 0 = (L, none) := by
  rw [tokenize, scan]
  split <;> simp_all

theorem ended_of_genuine {ts : List Token} (h : ∀ t ∈ ts, Genuine t) :
    Parser.Ended (ts ++ [.eof]) := by
  induction ts with
  | nil => exact .eof
  | cons t ts ih =>
    obtain ⟨⟨hne, hfine⟩, hts⟩ := List.forall_mem_cons.1 h
    refine .cons hne (fun n hn => ?_) (ih hts)
    subst hn
    exact hfine

theorem ended_of_tokenize {s : String} {L : List Located} (h : tokenize s = .ok L) :
    Parser.Ended (Parser.marks L) ∧ ∀ t ∈ Parser.marks L, Fine Proper t := by
  obtain ⟨ts, hts, hgenuine⟩ := genuine_tokens (tokenize_eq_ok.1 h)
  have hend : Parser.Ended (Parser.marks L) := hts ▸ ended_of_genuine hgenuine
  refine ⟨hend, ?_⟩
  rw [hts, List.forall_mem_append, List.forall_mem_singleton]
  exact ⟨fun t ht => (hgenuine t ht).2, trivial⟩

theorem formed_of_parse {s : String} {e : Expr} (h : parse s = .ok e) : Formed Proper e := by
  obtain ⟨L, hL, hwhole⟩ := Parser.bind_eq_ok.1 h
  obtain ⟨hend, hfine⟩ := ended_of_tokenize hL
  exact (Parser.whole_sound hend hwhole).formed hfine

theorem Prints.parse {s : String} {e : Expr} (h : Prints 1 e s.toList) : parse s = .ok e := by
  obtain ⟨ts, hlex, hd⟩ := h.whole
  obtain ⟨L, hL, hm⟩ := hlex (s.length + 1) 0
    (Nat.lt_succ_of_le (Nat.le_of_eq String.length_toList))
  exact Parser.bind_eq_ok.2 ⟨L, tokenize_eq_ok.2 hL, Parser.whole_reads (hm ▸ hd)⟩

/-- Every text of a parsed expression is read, though not always as that expression. -/
theorem parse_text {s : String} {e : Expr} (h : parse s = .ok e) (hread : Legible e) :
    parse e.text = .ok e.reread :=
  ((formed_of_parse h).printsText hread).whole.parse

theorem exact_iff {es : List Expr} : (∀ a ∈ es, Exact a) ↔
    (∀ a, .unary .negate a ∈ es → isNumber a = false) ∧
      ∀ x, .literal (.double x) ∈ es → x.isFinite = true := by
  constructor
  · exact fun h => ⟨fun a ha => h _ ha, fun x hx => h _ hx⟩
  · rintro ⟨hneg, hfinite⟩ a ha
    rw [Exact.eq_def]
    split
    · exact hneg _ ha
    · exact hfinite _ ha
    · trivial

theorem parse_text_eq_ok_iff {s : String} {e : Expr} (h : parse s = .ok e)
    (hread : ∀ x, .literal (.double x) ∈ e.nodes → x.isFinite = true →
      Numeral.ofText? (Scalar.numberLayout.write x) = some x) :
    parse e.text = .ok e ↔ (∀ a, .unary .negate a ∈ e.nodes → isNumber a = false) ∧
      ∀ x, .literal (.double x) ∈ e.nodes → x.isFinite = true := by
  rw [← exact_iff, ← reread_eq_iff (formed_of_parse h), parse_text h hread, Except.ok.injEq]

/-- A negative number is read back, a number that is negated by name is read as a negative one. -/
theorem parse_text_eq_ok_iff_negative :
    let e : Expr := .binary .lessThan (.unary .abs (.literal (.double (-0.25))))
      (.unary .length (.field "a[2]" none))
    let e' : Expr := .unary .negate (.literal (.long 1))
    (parse "Abs(-0.25) < a[2].Length()" = .ok e ∧ parse e.text = .ok e) ∧
      parse "Negate(1)" = .ok e' ∧ parse e'.text ≠ .ok e' := by
  intro e e'
  have he : parse "Abs(-0.25) < a[2].Length()" = .ok e := by
    have hL : tokenize "Abs(-0.25) < a[2].Length()" = .ok [⟨.identifier "Abs", 0⟩, ⟨.openParen, 3⟩,
        ⟨.minus, 4⟩, ⟨.float 0.25, 5⟩, ⟨.closeParen, 9⟩, ⟨.less, 11⟩, ⟨.identifier "a", 13⟩,
        ⟨.openBracket, 14⟩, ⟨.integer 2, 15⟩, ⟨.closeBracket, 16⟩, ⟨.dot, 17⟩,
        ⟨.identifier "Length", 18⟩, ⟨.openParen, 24⟩, ⟨.closeParen, 25⟩, ⟨.eof, 26⟩] := by
      decide +kernel
    exact Parser.bind_eq_ok.2 ⟨_, hL, by rfl⟩
  have he' : parse "Negate(1)" = .ok e' := by
    have hL : tokenize "Negate(1)" = .ok [⟨.identifier "Negate", 0⟩, ⟨.openParen, 6⟩,
        ⟨.integer 1, 7⟩, ⟨.closeParen, 8⟩, ⟨.eof, 9⟩] := by
      decide +kernel
    exact Parser.bind_eq_ok.2 ⟨_, hL, by rfl⟩
  have hx {x : Float} (hx : .literal (.double x) ∈ e.nodes) : x = -0.25 := by
    simpa [e, nodes] using hx
  refine ⟨⟨he, (parse_text_eq_ok_iff he ?_).2 ⟨?_, ?_⟩⟩, he', fun h => ?_⟩
  · intro x hmem _
    rw [hx hmem]
    decide +kernel
  · intro a ha
    simp [e, nodes] at ha
  · intro x hmem
    rw [hx hmem]
    decide +kernel
  · have hexact := (parse_text_eq_ok_iff he' fun x hx => by simp [e', nodes] at hx).1 h
    exact Bool.noConfusion (hexact.1 _ List.mem_cons_self)

end Quarry.Expr
