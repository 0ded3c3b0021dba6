import Quarry.Proofs.Expr.Checking
import Quarry.Proofs.Path

/-!
What is read from a text is well formed: its fields have paths, connectives have operands, and only
fields are ranged over. So a check of it can only miss an argument.
-/

namespace Quarry.Expr

open Quarry.Expr.Lexer (Proper not_punctuation isWordChar_of_isWordStart)
open Quarry.Expr.Parser (bind_eq_ok marks)
open Quarry.Path (stepText stepsText)

variable {N : String → Prop} {x s : String} {e a : Expr}

/-! ### Names of fields -/

theorem isWordChar_of_proper (h : Proper x) : ∀ c ∈ x.toList, Lexer.isWordChar c = true := by
  obtain ⟨⟨c, ds, hx, hc, hds⟩, -⟩ := h
  rw [hx]
  exact List.forall_mem_cons.2 ⟨isWordChar_of_isWordStart hc, hds⟩

theorem not_mem_of_proper (h : Proper x) {c : Char} (hc : c ∈ Lexer.punctuation) :
    c ∉ x.toList :=
  fun hmem => not_punctuation (isWordChar_of_proper h c hmem) hc

theorem not_needsQuotes_of_proper (h : Proper x) : ¬Path.needsQuotes x = true := by
  rw [Path.needsQuotes_iff, not_or, not_or]
  exact ⟨not_mem_of_proper h (by decide), not_mem_of_proper h (by decide),
    not_mem_of_proper h (by decide)⟩

theorem ne_empty_of_proper (h : Proper x) : x ≠ "" := by
  rintro rfl
  obtain ⟨⟨c, ds, hx, -⟩, -⟩ := h
  cases hx

theorem legible_of_proper (h : Proper x) : Path.Legible (.key x) :=
  ⟨ne_empty_of_proper h, not_mem_of_proper h (by decide)⟩

/-- The steps of a field are those of a path. -/
theorem StepsText.exists_steps (h : StepsText Proper s) :
    ∃ p : Path, s.toList = stepsText p ∧ ∀ t ∈ p, Path.Legible t := by
  induction h with
  | nil => exact ⟨[], rfl, nofun⟩
  | @member x s hx _ ih =>
    obtain ⟨p, hs, hp⟩ := ih
    refine ⟨.key x :: p, ?_, List.forall_mem_cons.2 ⟨legible_of_proper hx, hp⟩⟩
    rw [Path.stepsText_cons, stepText, if_neg (not_needsQuotes_of_proper hx), ← hs]
    simp
  | @index n s hn _ ih =>
    obtain ⟨p, hs, hp⟩ := ih
    obtain ⟨i, hi⟩ := Int.eq_ofNat_of_zero_le (Int64.le_iff_toInt_le.1 hn)
    have hlt : i < UInt64.size := by
      have hmax := n.toInt_lt
      have hsize : UInt64.size = 2 ^ 64 := rfl
      omega
    refine ⟨.index i :: p, ?_, List.forall_mem_cons.2 ⟨hlt, hp⟩⟩
    have htext : toString n.toInt = String.ofList (Nat.toDigits 10 i) := congrArg toString hi
    rw [Path.stepsText_cons, stepText, ← hs, htext]
    simp
  | every _ ih =>
    obtain ⟨p, hs, hp⟩ := ih
    refine ⟨.wildcard :: p, ?_, List.forall_mem_cons.2 ⟨trivial, hp⟩⟩
    rw [Path.stepsText_cons, stepText, ← hs]
    simp

theorem exists_path (hx : Proper x) (hs : StepsText Proper s) : ∃ steps,
    Path.parse (x ++ s) = .ok (.key x :: steps) ∧ Path.format (.key x :: steps) = x ++ s := by
  obtain ⟨p, hsteps, hp⟩ := hs.exists_steps
  have hkey : Segment.key x ≠ .key "" := fun h => ne_empty_of_proper hx (Segment.key.inj h)
  have hformat : Path.format (.key x :: p) = x ++ s := by
    apply String.toList_inj.1
    rw [Path.toList_format hkey, Path.leadText, if_neg (not_needsQuotes_of_proper hx),
      String.toList_append, hsteps]
  refine ⟨p, ?_, hformat⟩
  rw [← hformat]
  exact Path.parse_format (List.cons_ne_nil _ _)
    (List.forall_mem_cons.2 ⟨legible_of_proper hx, hp⟩)

/-! ### Parts of what is read -/

theorem Formed.of_mem_nodes (h : Formed N e) (ha : a ∈ e.nodes) : Formed N a := by
  induction h with
  | field hx hs =>
    obtain rfl := List.mem_singleton.1 ha
    exact .field hx hs
  | literal hlong =>
    obtain rfl := List.mem_singleton.1 ha
    exact .literal hlong
  | unary h ih =>
    rcases List.mem_cons.1 ha with rfl | ha
    · exact .unary h
    · exact ih ha
  | binary hl hr ihl ihr =>
    rcases List.mem_cons.1 ha with rfl | ha
    · exact .binary hl hr
    · exact (List.mem_append.1 ha).elim ihl ihr
  | aggregate h he hx hb ih ihb =>
    rcases List.mem_cons.1 ha with rfl | ha
    · exact .aggregate h he hx hb
    · exact (List.mem_append.1 ha).elim ih ihb
  | count h he ih =>
    rcases List.mem_cons.1 ha with rfl | ha
    · exact .count h he
    · exact ih ha
  | connect hne hs ih =>
    rcases List.mem_cons.1 ha with rfl | ha
    · exact .connect hne hs
    · rw [nodesAll_eq] at ha
      obtain ⟨e, he, ha⟩ := List.mem_flatMap.1 ha
      exact ih e he ha
  | not h ih =>
    rcases List.mem_cons.1 ha with rfl | ha
    · exact .not h
    · exact ih ha
  | quantifier h he hx hb ih ihb =>
    rcases List.mem_cons.1 ha with rfl | ha
    · exact .quantifier h he hx hb
    · exact (List.mem_append.1 ha).elim ih ihb

theorem Formed.exists_path {path : Option Path} (h : Formed Proper (.field x path)) :
    ∃ arg steps, Path.parse x = .ok (.key arg :: steps) ∧
      Path.format (.key arg :: steps) = x := by
  cases h with
  | @field arg s harg hs =>
    obtain ⟨steps, h⟩ := Expr.exists_path harg hs
    exact ⟨arg, steps, h⟩

theorem Formed.shaped (h : Formed N e) : e.Shaped := by
  cases h with
  | aggregate _ he _ _ => exact he
  | count _ he => exact he
  | connect hne _ => exact hne
  | quantifier _ he _ _ => exact he
  | _ => trivial

theorem Formed.long_bounds {n : Int64} (h : Formed N (.literal (.long n))) :
    -(2 ^ 63 - 1) ≤ n.toInt ∧ n.toInt ≤ 2 ^ 63 - 1 := by
  have hmin := Int64.lt_iff_toInt_lt.1 h.long
  have hmax := n.toInt_lt
  have hleast : Int64.minValue.toInt = -9223372036854775808 := rfl
  omega

/-! ### Signs -/

theorem Parser.Ended.suffix {ts mid : List Token} (h : Ended ts) (hs : mid <:+ ts)
    (hne : mid ≠ []) : Ended mid := by
  induction h with
  | eof =>
    rcases List.suffix_cons_iff.1 hs with rfl | hs
    · exact .eof
    · exact absurd (List.suffix_nil.1 hs) hne
  | cons ht hn h ih =>
    rcases List.suffix_cons_iff.1 hs with rfl | hs
    · exact .cons ht hn h
    · exact ih hs

/-- Wherever a minus sign stands, the integer after it has a negative. -/
theorem toInt_neg_of_signed {L M R : Parser.Tokens} {depth fuel : Nat} {n : Int64}
    (hL : Parser.Ended (marks L)) (hM : M <:+ L)
    (hr : Parser.signed (Parser.expression depth) fuel M = .ok (.literal (.long n), R)) :
    (-n).toInt = -n.toInt := by
  have hne : M ≠ [] := by
    rintro rfl
    cases fuel <;> cases hr
  have hend : Parser.Ended (marks M) :=
    hL.suffix (hM.map Located.token) (by simpa [marks] using hne)
  have hd := (Parser.signed_sound (Parser.expression_sound depth) fuel hend hr).1
  exact toInt_neg (hd.formed hend.fine).long

/-! ### Checking what is read -/

/-- A computation fails only for an argument that is not in scope. -/
def Misses {α : Type} (x : Except ScopeError α) : Prop :=
  ∀ err, x = .error err → ∃ arg name, err = .unknownArgument arg name

theorem misses_ok {α : Type} (b : α) : Misses (.ok b) := nofun

theorem Misses.bind {α β : Type} {x : Except ScopeError α} {f : α → Except ScopeError β}
    (hx : Misses x) (hf : ∀ b, Misses (f b)) : Misses (x >>= f) := by
  cases x with
  | error err =>
    rintro _ ⟨⟩
    exact hx err rfl
  | ok b => exact hf b

theorem resolveField_misses {path : Option Path} (h : Formed Proper (.field x path))
    (scope : List String) : Misses (resolveField scope x) := by
  obtain ⟨arg, steps, hparse, -⟩ := h.exists_path
  intro err herr
  simp only [resolveField, hparse] at herr
  split at herr
  · cases herr
  · cases herr
    exact ⟨arg, x, rfl⟩

theorem resolveIterated_misses (h : Formed Proper e) (he : e.isField = true)
    (scope : List String) (node : String) : Misses (resolveIterated scope node e) := by
  cases e with
  | field name path => exact resolveField_misses h scope
  | _ => cases he

theorem resolveAll_misses {scope : List String} {es : List Expr}
    (h : ∀ e ∈ es, Misses (resolve scope e)) : Misses (resolveAll scope es) := by
  induction es with
  | nil => exact misses_ok []
  | cons e es ih =>
    obtain ⟨he, hes⟩ := List.forall_mem_cons.1 h
    exact he.bind fun _ => (ih hes).bind fun _ => misses_ok _

theorem Formed.misses (h : Formed Proper e) (scope : List String) :
    Misses (resolve scope e) := by
  induction h generalizing scope with
  | field hx hs => exact resolveField_misses (Formed.field hx hs) scope
  | literal _ => exact misses_ok _
  | unary _ ih => exact (ih scope).bind fun _ => misses_ok _
  | binary _ _ ihl ihr => exact (ihl scope).bind fun _ => (ihr scope).bind fun _ => misses_ok _
  | aggregate h he _ _ _ ihb =>
    exact (resolveIterated_misses h he scope _).bind fun _ => (ihb _).bind fun _ => misses_ok _
  | count h he _ => exact (resolveIterated_misses h he scope _).bind fun _ => misses_ok _
  | connect hne _ ih =>
    rw [resolve, if_neg (by simpa using hne)]
    exact (resolveAll_misses fun e he => ih e he scope).bind fun _ => misses_ok _
  | not _ ih => exact (ih scope).bind fun _ => misses_ok _
  | quantifier h he _ _ _ ihb =>
    exact (resolveIterated_misses h he scope _).bind fun _ => (ihb _).bind fun _ => misses_ok _

/-- No minus sign overflows, from whichever token on a signed expression is read. -/
theorem parse_valid {s : String} {e : Expr} (h : parse s = .ok e) :
    (∀ name path, .field name path ∈ e.nodes → ∃ arg steps,
      Path.parse name = .ok (.key arg :: steps) ∧ Path.format (.key arg :: steps) = name) ∧
    (∀ a ∈ e.nodes, a.Shaped) ∧
    (∀ n, .literal (.long n) ∈ e.nodes → -(2 ^ 63 - 1) ≤ n.toInt ∧ n.toInt ≤ 2 ^ 63 - 1) ∧
    (∀ L, tokenize s = .ok L → ∀ M, M <:+ L → ∀ depth fuel n R,
      Parser.signed (Parser.expression depth) fuel M = .ok (.literal (.long n), R) →
        (-n).toInt = -n.toInt) ∧
    ∀ scope err, resolve scope e = .error err →
      ∃ arg name, err = .unknownArgument arg name := by
  have hformed := formed_of_parse h
  refine ⟨fun name path hf => ?_, fun a ha => ?_, fun n hn => ?_, ?_, hformed.misses⟩
  · exact (hformed.of_mem_nodes hf).exists_path
  · exact (hformed.of_mem_nodes ha).shaped
  · exact (hformed.of_mem_nodes hn).long_bounds
  · intro L hL M hM depth fuel n R hr
    exact toInt_neg_of_signed (ended_of_tokenize hL).1 hM hr

theorem parse_valid_any :
    let e : Expr := .quantifier .any (.field "o[2]" none) "x"
      (.binary .greaterThan (.field "x" none) (.literal (.long 7)))
    parse "o[2].Any(x => x > --7)" = .ok e ∧
      (∃ arg steps, Path.parse "o[2]" = .ok (.key arg :: steps) ∧
        Path.format (.key arg :: steps) = "o[2]") ∧
      ∀ scope err, resolve scope e = .error err → ∃ arg name, err = .unknownArgument arg name := by
  intro e
  have hL : tokenize "o[2].Any(x => x > --7)" = .ok [⟨.identifier "o", 0⟩, ⟨.openBracket, 1⟩,
      ⟨.integer 2, 2⟩, ⟨.closeBracket, 3⟩, ⟨.dot, 4⟩, ⟨.identifier "Any", 5⟩, ⟨.openParen, 8⟩,
      ⟨.identifier "x", 9⟩, ⟨.arrow, 11⟩, ⟨.identifier "x", 14⟩, ⟨.greater, 16⟩, ⟨.minus, 18⟩,
      ⟨.minus, 19⟩, ⟨.integer 7, 20⟩, ⟨.closeParen, 21⟩, ⟨.eof, 22⟩] := by
    decide +kernel
  have he : parse "o[2].Any(x => x > --7)" = .ok e := Parser.bind_eq_ok.2 ⟨_, hL, by rfl⟩
  obtain ⟨hfield, -, -, -, herror⟩ := parse_valid he
  exact ⟨he, hfield "o[2]" none (by simp [e, nodes]), herror⟩

end Quarry.Expr
