import Quarry.Sql
import Quarry.Proofs.Path
import Quarry.Proofs.Expr.Lexing
import Quarry.Proofs.Json.Contents
import Quarry.Proofs.Sql.Tokens

/-!
What the paths that SQLite is given are read as: the steps they were written for, as long as no
member name is empty, holds a backslash or holds a control character.
-/

namespace Quarry.Sql

open Json (IsDigits)
open Json.Parser (digits stringChars strict hex4? Piece Contents)

namespace Address

/-! ### Reading -/

/-- The first step and the text after it. A bare label ends before a point or an opening bracket, a
label in quotes is a JSON string. -/
def step? : List Char → Option (Segment × List Char)
  | '[' :: cs =>
    match digits cs with
    | .ok (ds, ']' :: rest) => some (.index (Numeral.natOfDigits ds), rest)
    | _ => none
  | '.' :: '"' :: cs =>
    match stringChars strict cs [] with
    | .ok (name, rest) => some (.key name, rest)
    | .error _ => none
  | '.' :: cs =>
    match cs.span fun c => c != '.' && c != '[' with
    | ([], _) => none
    | (name, rest) => some (.key (String.ofList name), rest)
  | _ => none

/-- The given number of steps at most, to the end of the text. -/
def steps? : Nat → List Char → Option Path
  | _, [] => some []
  | 0, _ :: _ => none
  | fuel + 1, c :: cs =>
    (step? (c :: cs)).bind fun (s, rest) => (steps? fuel rest).map (s :: ·)

/-- The path that a text stands for; every step takes at least one character. -/
def read? (text : String) : Option Path :=
  match text.toList with
  | '$' :: cs => steps? cs.length cs
  | _ => none

/-! ### Names in quotes -/

theorem hexValue?_marks : Json.Parser.hexValue? '"' = none ∧ Json.Parser.hexValue? '\\' = none := by
  decide

theorem ne_of_hex4? {a b c d : Char} {n : Nat} (h : hex4? a b c d = some n) :
    '"' ∉ [a, b, c, d] ∧ d ≠ '\\' := by
  have hne : ∀ {e : Char} {v : Nat}, Json.Parser.hexValue? e = some v → '"' ≠ e ∧ e ≠ '\\' := by
    intro e v he
    constructor
    · rintro rfl
      cases hexValue?_marks.1.symm.trans he
    · rintro rfl
      cases hexValue?_marks.2.symm.trans he
  obtain ⟨w, x, y, z, hw, hx, hy, hz, -⟩ := Json.Parser.hex4?_eq_some_iff.1 h
  simp [(hne hw).1, (hne hx).1, (hne hy).1, (hne hz).1, (hne hz).2]

/-- What begins with a backslash is an escaped quote, an escaped backslash, or holds no quote and
does not end in a backslash. -/
theorem piece_cases {c : Char} {t : List Char} (h : Piece c t) :
    (t = [c] ∧ c ≠ '"' ∧ c ≠ '\\' ∧ 0x20 ≤ c.toNat) ∨ (t = ['\\', '"'] ∧ c = '"') ∨
      t = ['\\', '\\'] ∧ c = '\\' ∨
      ∃ es, t = '\\' :: es ∧ es ≠ [] ∧ '"' ∉ es ∧ es.getLast? ≠ some '\\' := by
  cases h with
  | plain hq hs hc => exact .inl ⟨rfl, hq, hs, hc⟩
  | simple he =>
    rename_i e
    by_cases hq : e = '"'
    · cases hq
      cases he
      exact .inr (.inl ⟨rfl, rfl⟩)
    by_cases hs : e = '\\'
    · cases hs
      cases he
      exact .inr (.inr (.inl ⟨rfl, rfl⟩))
    exact .inr (.inr (.inr ⟨[e], rfl, List.cons_ne_nil _ _, by simpa using Ne.symm hq,
      by simpa using hs⟩))
  | unicode h =>
    obtain ⟨hq, hs⟩ := ne_of_hex4? h
    exact .inr (.inr (.inr ⟨_, rfl, List.cons_ne_nil _ _, by simpa using hq, by simpa using hs⟩))
  | pair h h' _ _ _ =>
    have hq := (ne_of_hex4? h).1
    obtain ⟨hq', hs⟩ := ne_of_hex4? h'
    refine .inr (.inr (.inr ⟨_, rfl, List.cons_ne_nil _ _, ?_, by simpa using hs⟩))
    simp only [List.mem_cons, not_or] at hq hq' ⊢
    simp [hq, hq']

/-- A name between quotes: its quotes are escaped, and nothing else is. -/
def guard (name : List Char) : List Char :=
  name.flatMap fun c => if c = '"' then ['\\', '"'] else [c]

theorem guard_quote (name : List Char) : guard ('"' :: name) = ['\\', '"'] ++ guard name := rfl

theorem guard_cons {c : Char} (h : c ≠ '"') (name : List Char) :
    guard (c :: name) = [c] ++ guard name := by
  rw [guard, List.flatMap_cons, if_neg h]
  rfl

/-- The characters that stand for themselves between quotes. -/
def Plain (name : List Char) : Prop := ∀ c ∈ name, c ≠ '\\' ∧ 0x20 ≤ c.toNat

theorem plain_cons {c : Char} {name : List Char} :
    Plain (c :: name) ↔ (c ≠ '\\' ∧ 0x20 ≤ c.toNat) ∧ Plain name := List.forall_mem_cons

theorem contents_guard {name : List Char} (h : Plain name) (rest : List Char) :
    Contents (guard name ++ '"' :: rest) name rest := by
  induction name with
  | nil => exact .close rest
  | cons c name ih =>
    obtain ⟨⟨hs, hc⟩, hname⟩ := plain_cons.1 h
    by_cases hq : c = '"'
    · subst hq
      rw [guard_quote, List.append_assoc]
      exact .piece (.simple rfl) (ih hname)
    · rw [guard_cons hq, List.append_assoc]
      exact .piece (.plain hq hs hc) (ih hname)

/-- A piece that holds no quote and does not end in a backslash lies within the name. -/
theorem guard_split {es : List Char} (hq : '"' ∉ es) (hs : es.getLast? ≠ some '\\')
    {name cs rest : List Char} (h : guard name ++ '"' :: rest = es ++ cs) :
    ∃ more, name = es ++ more ∧ guard more ++ '"' :: rest = cs := by
  induction es generalizing name with
  | nil => exact ⟨name, rfl, h⟩
  | cons e es ih =>
    rw [List.mem_cons, not_or] at hq
    cases name with
    | nil => exact absurd (List.cons.inj h).1 hq.1
    | cons d name =>
      by_cases hd : d = '"'
      · -- the piece would begin with the backslash that is put before the quote
        subst hd
        obtain ⟨rfl, htext⟩ := List.cons.inj h
        cases es with
        | nil => exact absurd rfl hs
        | cons e es =>
          obtain ⟨rfl, -⟩ := List.cons.inj htext
          exact absurd List.mem_cons_self hq.2
      · rw [guard_cons hd, List.append_assoc] at h
        obtain ⟨rfl, htext⟩ := List.cons.inj h
        have hlast : es.getLast? ≠ some '\\' := by
          intro hl
          rw [List.getLast?_cons, hl] at hs
          exact hs rfl
        obtain ⟨more, rfl, hcs⟩ := ih hq.2 hlast htext
        exact ⟨more, rfl, hcs⟩

theorem guard_backslash {name cs rest : List Char} (h : guard name ++ '"' :: rest = '\\' :: cs) :
    (∃ more, name = '\\' :: more ∧ guard more ++ '"' :: rest = cs) ∨
      ∃ more, name = '"' :: more ∧ cs = '"' :: (guard more ++ '"' :: rest) := by
  cases name with
  | nil => cases h
  | cons d name =>
    by_cases hd : d = '"'
    · subst hd
      exact .inr ⟨name, rfl, (List.cons.inj h).2.symm⟩
    · rw [guard_cons hd, List.append_assoc] at h
      obtain ⟨rfl, htext⟩ := List.cons.inj h
      exact .inl ⟨name, rfl, htext⟩

theorem contents_quote {cs w rest : List Char} (h : Contents ('"' :: cs) w rest) :
    w = [] := by
  generalize hds : '"' :: cs = ds at h
  cases h with
  | close => rfl
  | piece ht _ =>
    rcases piece_cases ht with ⟨rfl, hq, -⟩ | ⟨rfl, -⟩ | ⟨rfl, -⟩ | ⟨es, rfl, -⟩
    · exact absurd (List.cons.inj hds).1.symm hq
    · cases hds
    · cases hds
    · cases hds

theorem eq_tail_append {c : Char} {s t w : List Char} (hs : s ≠ []) (h : s ++ t = c :: w) :
    s.tail ++ t = w := by
  cases s with
  | nil => exact absurd rfl hs
  | cons d s => exact (List.cons.inj h).2

theorem tail_ne_nil {c : Char} {s t : List Char} (h : t ≠ []) : (s ++ c :: t).tail ≠ [] := by
  intro htail
  have hlen := congrArg List.length htail
  have hpos := List.length_pos_iff.2 h
  rw [List.length_tail, List.length_append, List.length_cons, List.length_nil] at hlen
  omega

/-- Reading never catches up with a name once it lags behind. What it lags by, `debt`, holds no
quote, so the quote that ends the label, or an escaped one, is met too early. -/
theorem plain_of_contents {cs w rest : List Char} (h : Contents cs w rest)
    {name debt more : List Char} (hdebt : '"' ∉ debt) (hcs : guard name ++ '"' :: more = cs)
    (hw : debt ++ name = w) : debt = [] ∧ Plain name ∧ rest = more := by
  induction h generalizing name debt with
  | close rest =>
    obtain ⟨rfl, rfl⟩ := List.append_eq_nil_iff.1 hw
    exact ⟨rfl, nofun, (List.cons.inj hcs).2.symm⟩
  | @piece c t cs w rest ht hrest ih =>
    -- a piece of the name that is read as one character
    have honward : ∀ {es name : List Char}, es ≠ [] → '"' ∉ es →
        guard name ++ '"' :: more = cs → debt ++ (es ++ name) = c :: w →
        (debt ++ es).tail = [] ∧ Plain name ∧ rest = more := by
      intro es name hne hq hcs hw
      apply ih _ hcs
      · rw [← List.append_assoc] at hw
        exact eq_tail_append (by simp [hne]) hw
      · intro hmem
        rcases List.mem_append.1 (List.mem_of_mem_tail hmem) with h | h
        · exact hdebt h
        · exact hq h
    rcases piece_cases ht with ⟨rfl, hq, hs, hc⟩ | ⟨rfl, rfl⟩ | ⟨rfl, rfl⟩ | ⟨es, rfl, hne, hq, hs⟩
    · have hmem : '"' ∉ [c] := by simpa using hq.symm
      obtain ⟨name, rfl, htext⟩ := guard_split hmem (by simpa using hs) hcs
      obtain ⟨htail, hplain, hmore⟩ := honward (List.cons_ne_nil _ _) hmem htext hw
      refine ⟨?_, plain_cons.2 ⟨⟨hs, hc⟩, hplain⟩, hmore⟩
      cases debt with
      | nil => rfl
      | cons d debt => cases (List.append_eq_nil_iff.1 htail).2
    · cases debt with
      | cons d debt => exact absurd ((List.cons.inj hw).1 ▸ List.mem_cons_self) hdebt
      | nil =>
        cases hw
        rw [guard_quote, List.append_assoc] at hcs
        obtain ⟨-, hplain, hmore⟩ := ih hdebt (List.append_cancel_left hcs) rfl
        exact ⟨rfl, plain_cons.2 ⟨by decide, hplain⟩, hmore⟩
    · exfalso
      rcases guard_backslash hcs with ⟨name, rfl, htext⟩ | ⟨name, rfl, htext⟩
      · rcases guard_backslash htext with ⟨name, rfl, hlater⟩ | ⟨name, rfl, rfl⟩
        · have hmem : '"' ∉ ['\\', '\\'] := by decide
          exact tail_ne_nil (List.cons_ne_nil _ _) (honward (List.cons_ne_nil _ _) hmem hlater hw).1
        · -- the second backslash belongs to a quote, which then ends the label
          rw [contents_quote hrest] at hw
          have hlen := congrArg List.length hw
          rw [List.length_append, List.length_cons, List.length_cons, List.length_singleton] at hlen
          omega
      · cases htext
    · exfalso
      have hmem : '"' ∉ '\\' :: es := by simpa using hq
      have hlast : ('\\' :: es).getLast? ≠ some '\\' := by
        rwa [List.getLast?_cons_of_ne_nil hne]
      obtain ⟨name, rfl, htext⟩ := guard_split hmem hlast hcs
      exact tail_ne_nil hne (honward (List.cons_ne_nil _ _) hmem htext hw).1

/-- A name between quotes is read back exactly if its characters stand for themselves. -/
theorem stringChars_guard (name rest : List Char) :
    (∃ more, stringChars strict (guard name ++ '"' :: rest) [] = .ok (String.ofList name, more)) ↔
      Plain name := by
  constructor
  · rintro ⟨more, h⟩
    obtain ⟨w, hw, hname⟩ := (Json.Parser.stringChars_eq_ok rfl).1 h
    rw [List.reverse_nil, List.nil_append, String.ofList_inj] at hname
    exact (plain_of_contents hw List.not_mem_nil rfl hname).2.1
  · intro h
    exact ⟨rest, Json.Parser.stringChars_contents rfl (contents_guard h rest) []⟩

/-! ### Steps -/

/-- The tables of letters and digits begin with the digits. -/
theorem low_tables : ((Text.alphabetic ++ Text.numeric).all fun r => Nat.ble 0x30 r.1) = true := by
  decide +kernel

theorem le_of_isAlphanumeric {c : Char} (h : Text.isAlphanumeric c = true) : 0x30 ≤ c.toNat := by
  have hlow : ∀ r ∈ Text.alphabetic ++ Text.numeric, 0x30 ≤ r.1 := by
    intro r hr
    exact Nat.le_of_ble_eq_true (List.all_eq_true.1 low_tables r hr)
  rw [Text.isAlphanumeric, Text.isAlphabetic, Bool.or_eq_true, Text.inRanges_iff,
    Text.inRanges_iff] at h
  rcases h with ⟨r, hr, hc⟩ | ⟨r, hr, hc⟩
  · exact Nat.le_trans (hlow r (List.mem_append_left _ hr)) hc.1
  · exact Nat.le_trans (hlow r (List.mem_append_right _ hr)) hc.1

/-- No letter and no digit ends a label or changes what is read. -/
theorem of_isPlain {name : String} (h : isPlain name = true) : ∀ c ∈ name.toList,
    (c ≠ '.' ∧ c ≠ '[') ∧ c ≠ '"' ∧ c ≠ '\\' ∧ 0x20 ≤ c.toNat := by
  intro c hc
  have hword := List.all_eq_true.1 h c hc
  rw [Bool.or_eq_true, beq_iff_eq] at hword
  rcases hword with rfl | hword
  · decide
  have hlow := le_of_isAlphanumeric hword
  have hgap : ∀ d : Char, Text.inRanges Expr.Lexer.gaps d = true → c ≠ d := by
    rintro d hd rfl
    rw [Expr.Lexer.isAlphanumeric_gap hd] at hword
    cases hword
  exact ⟨⟨hgap '.' (by decide), hgap '[' (by decide)⟩, hgap '"' (by decide), hgap '\\' (by decide),
    by omega⟩

def Legible : Segment → Prop
  | .key name => name ≠ "" ∧ Plain name.toList
  | .index _ => True
  | .wildcard => False

theorem toList_step_plain {name : String} (h : isPlain name = true) :
    (step (.key name)).toList = '.' :: name.toList := by
  rw [step, if_pos h, String.toList_append]
  rfl

theorem toList_step_quoted {name : String} (h : ¬isPlain name = true) :
    (step (.key name)).toList = '.' :: '"' :: (guard name.toList ++ ['"']) := by
  rw [step, if_neg h, String.toList_append, String.toList_append, Lexer.toList_guarded]
  rfl

theorem toList_step_index (i : Nat) :
    (step (.index i)).toList = '[' :: (Nat.toDigits 10 i ++ [']']) := by
  simp [step, toString]

theorem step?_bare {cs : List Char} (h : cs.head? ≠ some '"') : step? ('.' :: cs) =
    match cs.span fun c => c != '.' && c != '[' with
    | ([], _) => none
    | (name, rest) => some (.key (String.ofList name), rest) := by
  rw [step?]
  rintro ds rfl
  exact h rfl

open Quarry.Path (Resumes)

variable {rest : List Char}

theorem span_label {cs : List Char} (h : ∀ c ∈ cs, c ≠ '.' ∧ c ≠ '[') (hr : Resumes rest) :
    (cs ++ rest).span (fun c => c != '.' && c != '[') = (cs, rest) := by
  have hcs : ∀ c ∈ cs, (c != '.' && c != '[') = true := by
    intro c hc
    rw [Bool.and_eq_true, bne_iff_ne, bne_iff_ne]
    exact h c hc
  have hstop : rest.takeWhile (fun c => c != '.' && c != '[') = [] ∧
      rest.dropWhile (fun c => c != '.' && c != '[') = rest := by
    cases rest with
    | nil => exact ⟨rfl, rfl⟩
    | cons c rest =>
      have hc : (c != '.' && c != '[') = false := by
        rcases hr c rfl with rfl | rfl <;> decide
      simp [hc]
  rw [List.span_eq_takeWhile_dropWhile, List.takeWhile_append_of_pos hcs,
    List.dropWhile_append_of_pos hcs, hstop.1, hstop.2, List.append_nil]

theorem step?_plain {name : String} (h : isPlain name = true) (hne : name ≠ "")
    (hr : Resumes rest) : step? ('.' :: name.toList ++ rest) = some (.key name, rest) := by
  have hchars := of_isPlain h
  have hcons : name.toList ≠ [] := by simpa using hne
  have hhead : (name.toList ++ rest).head? ≠ some '"' := by
    cases hname : name.toList with
    | nil => exact absurd hname hcons
    | cons c cs =>
      have hc := (hchars c (hname ▸ List.mem_cons_self)).2.1
      simpa using hc
  rw [List.cons_append, step?_bare hhead, span_label (fun c hc => (hchars c hc).1) hr]
  cases hname : name.toList with
  | nil => exact absurd hname hcons
  | cons c cs => rw [← String.ofList_toList (s := name), hname]

theorem step?_empty (hr : Resumes rest) : step? ('.' :: rest) = none := by
  have hhead : rest.head? ≠ some '"' := by
    intro h
    rcases hr _ h with h | h <;> cases h
  rw [step?_bare hhead, ← List.nil_append rest, span_label (by simp) hr]

theorem step?_index (i : Nat) : step? ('[' :: (Nat.toDigits 10 i ++ [']']) ++ rest) =
    some (.index i, rest) := by
  have hstop : Json.Parser.NoDigit (']' :: rest) := by
    rintro c ⟨⟩
    rfl
  have hdigits := Json.Parser.digits_eq (Json.isDigits_toDigits i) Nat.toDigits_ne_nil hstop
  rw [List.cons_append, List.append_assoc, List.singleton_append, step?, hdigits]
  exact congrArg (fun n => some (Segment.index n, rest)) (Numeral.natOfDigits_toDigits i)

theorem step?_quoted (name : String) (rest : List Char) :
    step? ('.' :: '"' :: (guard name.toList ++ ['"']) ++ rest) =
      match stringChars strict (guard name.toList ++ '"' :: rest) [] with
      | .ok (name, rest) => some (.key name, rest)
      | .error _ => none := by
  rw [List.cons_append, List.cons_append, List.append_assoc, List.singleton_append, step?]

theorem step?_wildcard (rest : List Char) : step? ((step .wildcard).toList ++ rest) = none := rfl

/-- A step is read back, with whatever follows it left, if it is legible. -/
theorem step?_step {s : Segment} (hs : Legible s) (hr : Resumes rest) :
    step? ((step s).toList ++ rest) = some (s, rest) := by
  cases s with
  | key name =>
    by_cases hplain : isPlain name = true
    · rw [toList_step_plain hplain]
      exact step?_plain hplain hs.1 hr
    · rw [toList_step_quoted hplain, step?_quoted,
        Json.Parser.stringChars_contents rfl (contents_guard hs.2 rest)]
      simp
  | index i =>
    rw [toList_step_index]
    exact step?_index i
  | wildcard => cases hs

/-- No other step is read back, whatever is left. -/
theorem legible_of_step? {s : Segment} {more : List Char} (hr : Resumes rest)
    (h : step? ((step s).toList ++ rest) = some (s, more)) : Legible s := by
  cases s with
  | key name =>
    by_cases hplain : isPlain name = true
    · refine ⟨?_, fun c hc => (of_isPlain hplain c hc).2.2⟩
      rintro rfl
      rw [toList_step_plain hplain] at h
      cases (step?_empty hr).symm.trans h
    · refine ⟨?_, ?_⟩
      · rintro rfl
        exact hplain rfl
      · rw [toList_step_quoted hplain, step?_quoted] at h
        split at h
        · rename_i name' rest' hread
          cases h
          rw [← stringChars_guard name.toList rest]
          exact ⟨more, by rwa [String.ofList_toList]⟩
        · cases h
  | index i => trivial
  | wildcard => cases (step?_wildcard rest).symm.trans h

/-! ### Paths -/

def pathText (p : Path) : List Char := p.flatMap fun s => (step s).toList

theorem toList_jsonPath (p : Path) : (jsonPath p).toList = '$' :: pathText p := by
  rw [jsonPath, String.toList_append, String.toList_join, List.flatMap_map]
  rfl

theorem head?_step (s : Segment) :
    ∃ c cs, (step s).toList = c :: cs ∧ (c = '.' ∨ c = '[') := by
  cases s with
  | key name =>
    by_cases hplain : isPlain name = true
    · exact ⟨_, _, toList_step_plain hplain, .inl rfl⟩
    · exact ⟨_, _, toList_step_quoted hplain, .inl rfl⟩
  | index i => exact ⟨_, _, toList_step_index i, .inr rfl⟩
  | wildcard => exact ⟨_, _, rfl, .inr rfl⟩

theorem resumes_pathText (p : Path) : Resumes (pathText p) := by
  cases p with
  | nil => exact nofun
  | cons s p =>
    obtain ⟨c, cs, hs, hc⟩ := head?_step s
    intro d hd
    rw [pathText, List.flatMap_cons, hs] at hd
    cases hd
    exact hc

theorem length_le_pathText (p : Path) : p.length ≤ (pathText p).length := by
  induction p with
  | nil => exact Nat.le_refl 0
  | cons s p ih =>
    obtain ⟨c, cs, hs, -⟩ := head?_step s
    rw [pathText, List.flatMap_cons, hs, List.length_append, List.length_cons, List.length_cons]
    rw [pathText] at ih
    omega

theorem steps?_pathText_cons (s : Segment) (p : Path) (fuel : Nat) :
    steps? (fuel + 1) (pathText (s :: p)) = (step? ((step s).toList ++ pathText p)).bind fun r =>
      (steps? fuel r.2).map (r.1 :: ·) := by
  obtain ⟨c, cs, hs, -⟩ := head?_step s
  rw [pathText, List.flatMap_cons, ← pathText, hs, List.cons_append, steps?]

theorem steps?_pathText {p : Path} {fuel : Nat} (hfuel : p.length ≤ fuel) :
    steps? fuel (pathText p) = some p ↔ ∀ s ∈ p, Legible s := by
  induction p generalizing fuel with
  | nil =>
    refine ⟨fun _ => nofun, fun _ => ?_⟩
    cases fuel <;> rfl
  | cons s p ih =>
    obtain ⟨fuel, rfl⟩ : ∃ n, fuel = n + 1 := ⟨fuel - 1, by rw [List.length_cons] at hfuel; omega⟩
    have hr := resumes_pathText p
    rw [List.forall_mem_cons, ← ih (Nat.le_of_succ_le_succ hfuel), steps?_pathText_cons]
    constructor
    · intro h
      obtain ⟨⟨t, more⟩, hstep, h⟩ := Option.bind_eq_some_iff.1 h
      obtain ⟨q, hq, heq⟩ := Option.map_eq_some_iff.1 h
      cases heq
      have hs := legible_of_step? hr hstep
      rw [step?_step hs hr] at hstep
      cases hstep
      exact ⟨hs, hq⟩
    · rintro ⟨hs, hp⟩
      rw [step?_step hs hr, Option.bind_some, hp]
      rfl

/-- A path is read back exactly if no step of it is a wildcard and no name is empty, holds a backslash
or holds a control character; among such paths, different ones are different addresses. -/
theorem read?_jsonPath (p : Path) : (read? (jsonPath p) = some p ↔ ∀ s ∈ p, Legible s) ∧
    ∀ q : Path, (∀ s ∈ p, Legible s) → (∀ s ∈ q, Legible s) →
      read? (jsonPath p) = read? (jsonPath q) → p = q := by
  have hread : ∀ p : Path, read? (jsonPath p) = some p ↔ ∀ s ∈ p, Legible s := by
    intro p
    rw [read?, toList_jsonPath]
    exact steps?_pathText (length_le_pathText p)
  refine ⟨hread p, fun q hp hq h => ?_⟩
  rw [(hread p).2 hp, (hread q).2 hq] at h
  exact Option.some.inj h

/-- A backslash begins an escape, so two names are one address; and an empty name is no label. -/
theorem read?_jsonPath_backslash :
    read? (jsonPath [.key "a\\b"]) = some [.key "a\x08"] ∧
      read? (jsonPath [.key "a\\\\b c"]) = read? (jsonPath [.key "a\\u005cb c"]) ∧
      read? (jsonPath [.key ""]) = none := by
  decide +kernel

end Address

end Quarry.Sql
