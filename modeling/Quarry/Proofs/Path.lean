import Quarry.Path
import Quarry.Proofs.Expr.Lexing
import Quarry.Proofs.Numeral.Digits

/-!
Paths and their texts. A path is read back from its text exactly if none of its names is empty or
has a closing bracket.
-/

namespace Quarry

namespace Text

theorem trim_subset {c : Char} {cs : List Char} (h : c ∈ trim cs) : c ∈ cs := by
  have hback := (List.dropWhile_suffix isBlank).subset (List.mem_reverse.1 h)
  exact (List.dropWhile_suffix isBlank).subset (List.mem_reverse.1 hback)

/-- Nothing is taken off where no blank stands at an end. -/
theorem trim_eq_self {cs : List Char} (hfirst : ∀ c, cs.head? = some c → isBlank c = false)
    (hlast : ∀ c, cs.getLast? = some c → isBlank c = false) : trim cs = cs := by
  have hdrop (ds : List Char) (h : ∀ d, ds.head? = some d → isBlank d = false) :
      ds.dropWhile isBlank = ds := by
    cases ds with
    | nil => rfl
    | cons d ds => exact List.dropWhile_cons_of_neg (by simp [h d rfl])
  rw [trim, hdrop cs hfirst, hdrop cs.reverse (by rwa [List.head?_reverse]), List.reverse_reverse]

end Text

namespace Path

open Quarry.Expr.Lexer (isWordChar_of_isDigit not_isBlank_of_isWordChar)
open Quarry.Expr.Parser (bind_eq_ok)
open Text

/-! ### Texts -/

/-- The text of a step behind another. -/
def stepText : Segment → List Char
  | .key name =>
    if needsQuotes name then '[' :: '\'' :: (name.toList ++ ['\'', ']']) else '.' :: name.toList
  | .index i => '[' :: (Nat.toDigits 10 i ++ [']'])
  | .wildcard => ['[', '*', ']']

def stepsText (p : Path) : List Char := p.flatMap stepText

theorem stepsText_cons (s : Segment) (p : Path) : stepsText (s :: p) = stepText s ++ stepsText p :=
  List.flatMap_cons

/-- The text of the step that a path begins with. -/
def leadText : Segment → List Char
  | .key name => if needsQuotes name then stepText (.key name) else name.toList
  | s => stepText s

/-- The end, or the beginning of a further step. -/
def Resumes (cs : List Char) : Prop := ∀ c, cs.head? = some c → c = '.' ∨ c = '['

variable {name : String} {s t : Segment} {p q : Path} {cs rest : List Char}

theorem needsQuotes_iff : needsQuotes name = true ↔
    '.' ∈ name.toList ∨ '[' ∈ name.toList ∨ ']' ∈ name.toList := by
  simp only [needsQuotes, List.any_eq_true, Bool.or_eq_true, beq_iff_eq]
  constructor
  · rintro ⟨c, hc, (rfl | rfl) | rfl⟩ <;> simp [hc]
  · rintro (h | h | h)
    · exact ⟨_, h, .inl (.inl rfl)⟩
    · exact ⟨_, h, .inl (.inr rfl)⟩
    · exact ⟨_, h, .inr rfl⟩

theorem ne_of_not_needsQuotes (h : ¬needsQuotes name = true) :
    ∀ c ∈ name.toList, c ≠ '.' ∧ c ≠ '[' := by
  rw [needsQuotes_iff, not_or, not_or] at h
  intro c hc
  constructor
  · rintro rfl
    exact h.1 hc
  · rintro rfl
    exact h.2.1 hc

theorem resumes_stepsText (p : Path) : Resumes (stepsText p) := by
  cases p with
  | nil => exact nofun
  | cons s p =>
    intro c hc
    rw [stepsText_cons] at hc
    cases s with
    | key name =>
      rw [stepText] at hc
      split at hc <;> cases hc
      · exact .inr rfl
      · exact .inl rfl
    | index i =>
      cases hc
      exact .inr rfl
    | wildcard =>
      cases hc
      exact .inr rfl

theorem toList_append_empty (s : Segment) : (append "" s).toList = leadText s := by
  cases s with
  | key name =>
    rw [append, leadText]
    split
    · simp [stepText, *]
    · rfl
  | index i => simp [append, leadText, stepText, toString]
  | wildcard => rfl

theorem toList_append {text : String} (h : text ≠ "") (s : Segment) :
    (append text s).toList = text.toList ++ stepText s := by
  have hempty : text.isEmpty = false := by simpa using h
  cases s with
  | key name =>
    rw [append, stepText, hempty]
    split <;> simp
  | index i => simp [append, stepText, toString]
  | wildcard => simp [append, stepText]

theorem toList_foldl_append {text : String} (h : text ≠ "") (p : Path) :
    (p.foldl append text).toList = text.toList ++ stepsText p := by
  induction p generalizing text with
  | nil => simp [stepsText]
  | cons s p ih =>
    have hne : append text s ≠ "" := by
      intro he
      have hlist := toList_append h s
      rw [he] at hlist
      simp [h] at hlist
    rw [List.foldl_cons, ih hne, toList_append h, List.append_assoc, stepsText_cons]

theorem leadText_ne_nil (hs : s ≠ .key "") : leadText s ≠ [] := by
  cases s with
  | key name =>
    have hname : name ≠ "" := fun h => hs (by rw [h])
    rw [leadText]
    split
    · simp [stepText, *]
    · simpa using hname
  | index i => simp [leadText, stepText]
  | wildcard => simp [leadText, stepText]

theorem toList_format (hs : s ≠ .key "") (p : Path) :
    (format (s :: p)).toList = leadText s ++ stepsText p := by
  have hne : append "" s ≠ "" := by
    intro he
    have hlist := toList_append_empty s
    rw [he] at hlist
    exact leadText_ne_nil hs hlist.symm
  rw [format, List.foldl_cons, toList_foldl_append hne, toList_append_empty]

/-- An empty name in front leaves no trace in the text. -/
theorem format_empty_cons (p : Path) : format (.key "" :: p) = format p := rfl

/-! ### Brackets -/

theorem bracketed_quoted (name : String) :
    bracketed ('\'' :: (name.toList ++ ['\''])) = .ok (.key name) := by
  have hblank : isBlank '\'' = false := by decide
  have htrim : trim ('\'' :: (name.toList ++ ['\''])) = '\'' :: (name.toList ++ ['\'']) := by
    apply trim_eq_self
    · rintro _ ⟨⟩
      exact hblank
    · intro c hc
      rw [← List.cons_append, List.getLast?_concat] at hc
      cases hc
      exact hblank
  rw [bracketed, htrim]
  simp [unquote?]

theorem bracketed_index (i : Nat) : bracketed (Nat.toDigits 10 i) =
    if i < UInt64.size then .ok (.index i) else .error .unknownBracket := by
  have hdigit := Numeral.isDigit_toDigits i
  have hblank (c : Char) (hc : c ∈ Nat.toDigits 10 i) : isBlank c = false :=
    not_isBlank_of_isWordChar (isWordChar_of_isDigit (hdigit c hc))
  have htrim : trim (Nat.toDigits 10 i) = Nat.toDigits 10 i :=
    trim_eq_self (fun c hc => hblank c (List.mem_of_head? hc))
      fun c hc => hblank c (List.mem_of_getLast? hc)
  have hstar : Nat.toDigits 10 i ≠ ['*'] := by
    intro h
    have hc := hdigit '*' (by simp [h])
    revert hc
    decide
  have hquote (quote : Char) (h : quote.isDigit = false) :
      unquote? quote (Nat.toDigits 10 i) = none := by
    obtain ⟨c, cs, hcs, hc⟩ := Numeral.toDigits_cons i
    have hne : c ≠ quote := by
      rintro rfl
      simp [h] at hc
    rw [hcs, unquote?, if_neg fun h => hne h.1]
  rw [bracketed, htrim, if_neg hstar, hquote '\'' (by decide), hquote '"' (by decide)]
  simp only [Option.or_none]
  rw [← Numeral.toList_toString, String.ofList_toList, Numeral.index?_toString]
  by_cases hi : i < UInt64.size
  · rw [if_pos hi, if_pos hi]
  · rw [if_neg hi, if_neg hi]

theorem not_mem_toDigits (i : Nat) : ']' ∉ Nat.toDigits 10 i :=
  fun h => absurd (Numeral.isDigit_toDigits i _ h) (by decide)

theorem bracketed_wildcard : bracketed ['*'] = .ok .wildcard := by decide

theorem unquote?_subset {quote c : Char} {ds : List Char} (h : unquote? quote cs = some ds)
    (hc : c ∈ ds) : c ∈ cs := by
  cases cs with
  | nil => cases h
  | cons d cs =>
    rw [unquote?] at h
    split at h
    · cases h
      exact List.mem_cons_of_mem d (List.dropLast_subset cs hc)
    · cases h

/-- A name in brackets has no characters but those that stand there. -/
theorem bracketed_subset (h : bracketed cs = .ok (.key name)) {c : Char} (hc : c ∈ name.toList) :
    c ∈ cs := by
  rw [bracketed] at h
  split at h
  · cases h
  · split at h
    · rename_i ds hds
      cases h
      rw [String.toList_ofList] at hc
      apply trim_subset
      rcases Option.or_eq_some_iff.1 hds with h | ⟨-, h⟩
      · exact unquote?_subset h hc
      · exact unquote?_subset h hc
    · split at h <;> cases h

/-! ### Steps -/

/-- Brackets end at the first closing one. -/
theorem brackets_append {inner : List Char} (h : ']' ∉ inner) (read rest : List Char) :
    brackets read (inner ++ ']' :: rest) = do
      let s ← bracketed (read.reverse ++ inner)
      return s :: (← steps rest) := by
  induction inner generalizing read with
  | nil => rw [List.nil_append, brackets, if_pos rfl, List.append_nil]
  | cons c inner ih =>
    rw [List.mem_cons, not_or] at h
    rw [List.cons_append, brackets, if_neg (Ne.symm h.1), ih h.2, List.reverse_cons,
      List.append_assoc]
    rfl

theorem steps_bracket (h : ']' ∉ cs) (rest : List Char) :
    steps ('[' :: (cs ++ ']' :: rest)) = do
      let s ← bracketed cs
      return s :: (← steps rest) := by
  rw [steps, if_neg (by decide), if_pos rfl, brackets_append h]
  rfl

/-- A name goes on to the next step. -/
theorem name_append (h : ∀ c ∈ cs, c ≠ '.' ∧ c ≠ '[') (hr : Resumes rest) (read : List Char) :
    Path.name read (cs ++ rest) = named (cs.reverse ++ read) (steps rest) := by
  induction cs generalizing read with
  | nil =>
    cases rest with
    | nil => rfl
    | cons c rest =>
      rw [List.nil_append, Path.name]
      rcases hr c rfl with rfl | rfl
      · rw [if_pos rfl, steps, if_pos rfl]
        rfl
      · rw [if_neg (by decide), if_pos rfl, steps, if_neg (by decide), if_pos rfl]
        rfl
  | cons c cs ih =>
    obtain ⟨⟨hdot, hopen⟩, hcs⟩ := List.forall_mem_cons.1 h
    rw [List.cons_append, Path.name, if_neg hdot, if_neg hopen, ih hcs, List.reverse_cons,
      List.append_assoc]
    rfl

/-- A step that is read back: a name that is not empty and has no closing bracket, an index of
64 bits. -/
def Legible : Segment → Prop
  | .key name => name ≠ "" ∧ ']' ∉ name.toList
  | .index i => i < UInt64.size
  | .wildcard => True

theorem map_cons_eq_ok {x : Except Fault Path} :
    x.map (s :: ·) = .ok (t :: p) ↔ s = t ∧ x = .ok p := by
  cases x <;> simp [Except.map]

theorem bind_cons_eq_ok {x : Except Fault Segment} {y : Except Fault Path} :
    (do let s ← x; return s :: (← y) : Except Fault Path) = .ok (t :: p) ↔
      x = .ok t ∧ y = .ok p := by
  cases x <;> cases y <;> simp [Bind.bind, Except.bind, Pure.pure, Except.pure]

theorem steps_stepText (hs : Legible s) (hr : Resumes rest) :
    steps (stepText s ++ rest) = (steps rest).map (s :: ·) := by
  have hbracket {cs : List Char} (h : ']' ∉ cs) (hcs : bracketed cs = .ok s) :
      steps ('[' :: (cs ++ ']' :: rest)) = (steps rest).map (s :: ·) := by
    rw [steps_bracket h, hcs]
    cases steps rest <;> rfl
  cases s with
  | key name =>
    obtain ⟨hne, hclose⟩ := hs
    rw [stepText]
    split
    · have h : ']' ∉ '\'' :: (name.toList ++ ['\'']) := by simp [hclose]
      simpa using hbracket h (bracketed_quoted name)
    · rename_i hquotes
      rw [List.cons_append, steps, if_pos rfl, name_append (ne_of_not_needsQuotes hquotes) hr, named]
      simp [hne]
  | index i =>
    simpa [stepText] using hbracket (not_mem_toDigits i) ((bracketed_index i).trans (if_pos hs))
  | wildcard => exact hbracket (by decide) bracketed_wildcard

/-- A name with a closing bracket is cut there. -/
theorem steps_closed (h : ']' ∈ name.toList)
    (hsteps : steps (stepText (.key name) ++ rest) = .ok (s :: p)) :
    ∃ u v, name.toList = u ++ ']' :: v ∧ ']' ∉ u ∧ bracketed ('\'' :: u) = .ok s ∧
      steps (v ++ '\'' :: ']' :: rest) = .ok p := by
  obtain ⟨u, v, hname, hu⟩ := List.eq_append_cons_of_mem h
  have hquotes : needsQuotes name = true := needsQuotes_iff.2 (.inr (.inr h))
  have htext : stepText (.key name) ++ rest =
      '[' :: (('\'' :: u) ++ ']' :: (v ++ '\'' :: ']' :: rest)) := by
    rw [stepText, if_pos hquotes, hname]
    simp
  have hopen : ']' ∉ '\'' :: u := by simp [hu]
  rw [htext, steps_bracket hopen, bind_cons_eq_ok] at hsteps
  exact ⟨u, v, hname, hu, hsteps⟩

theorem steps_stepText_cases (hr : Resumes rest)
    (h : steps (stepText s ++ rest) = .ok (t :: p)) :
    Legible s ∧ s = t ∨ ∃ name, s = .key name ∧ ']' ∈ name.toList := by
  by_cases hs : Legible s
  · rw [steps_stepText hs hr, map_cons_eq_ok] at h
    exact .inl ⟨hs, h.1⟩
  · cases s with
    | key name =>
      rw [Legible, not_and_not_right] at hs
      refine .inr ⟨name, rfl, hs ?_⟩
      rintro rfl
      -- Behind the point there is no name.
      have hnil : ∀ c ∈ ([] : List Char), c ≠ '.' ∧ c ≠ '[' := nofun
      have hname : Path.name [] rest = named [] (steps rest) := name_append hnil hr []
      rw [show stepText (.key "") ++ rest = '.' :: rest from rfl, steps, if_pos rfl, hname] at h
      cases h
    | index i =>
      have htext : stepText (.index i) ++ rest = '[' :: (Nat.toDigits 10 i ++ ']' :: rest) := by
        simp [stepText]
      rw [Legible] at hs
      rw [htext, steps_bracket (not_mem_toDigits i), bind_cons_eq_ok, bracketed_index,
        if_neg hs] at h
      cases h.1
    | wildcard => exact absurd trivial hs

theorem legible_of_steps (hr : Resumes rest) (h : steps (stepText s ++ rest) = .ok (s :: p)) :
    Legible s := by
  rcases steps_stepText_cases hr h with ⟨hs, -⟩ | ⟨name, rfl, hclose⟩
  · exact hs
  · obtain ⟨u, v, hname, hu, hbracketed, -⟩ := steps_closed hclose h
    have hmem : ']' ∈ '\'' :: u := bracketed_subset hbracketed hclose
    simp [hu] at hmem

theorem steps_stepsText_iff (p : Path) : steps (stepsText p) = .ok p ↔ ∀ s ∈ p, Legible s := by
  induction p with
  | nil => simp [stepsText, steps]
  | cons s p ih =>
    have hr := resumes_stepsText p
    rw [stepsText_cons, List.forall_mem_cons, ← ih]
    constructor
    · intro h
      have hs := legible_of_steps hr h
      rw [steps_stepText hs hr, map_cons_eq_ok] at h
      exact ⟨hs, h.2⟩
    · rintro ⟨hs, hp⟩
      rw [steps_stepText hs hr, hp]
      rfl

/-! ### Whole paths -/

theorem parse_eq_ok {text : String} : parse text = .ok p ↔ parseChars text.toList = .ok p := by
  rw [parse]
  cases parseChars text.toList <;> simp

/-- A path begins as it goes on, but for the point before a name. -/
theorem parseChars_leadText (hs : s ≠ .key "") (hr : Resumes rest) :
    parseChars (leadText s ++ rest) = steps (stepText s ++ rest) := by
  cases s with
  | key name =>
    rw [leadText]
    split
    · rename_i hquotes
      rw [stepText, if_pos hquotes]
      rfl
    · rename_i hquotes
      have hname := ne_of_not_needsQuotes hquotes
      cases hcs : name.toList with
      | nil => exact absurd (String.toList_eq_nil_iff.1 hcs) fun h => hs (by rw [h])
      | cons c cs =>
        rw [hcs] at hname
        obtain ⟨hc, hrest⟩ := List.forall_mem_cons.1 hname
        rw [stepText, if_neg hquotes, hcs, List.cons_append, parseChars, if_neg hc.1, if_neg hc.2,
          name_append hrest hr, List.cons_append, steps, if_pos rfl, name_append hname hr,
          List.reverse_cons, List.append_nil]
  | index i => rfl
  | wildcard => rfl

theorem parseChars_format (hs : s ≠ .key "") (p : Path) :
    parseChars (format (s :: p)).toList = steps (stepsText (s :: p)) := by
  rw [toList_format hs, stepsText_cons]
  exact parseChars_leadText hs (resumes_stepsText p)

theorem parse_format (hp : p ≠ []) (h : ∀ s ∈ p, Legible s) : parse (format p) = .ok p := by
  cases p with
  | nil => exact absurd rfl hp
  | cons s p =>
    have hs : s ≠ .key "" := by
      rintro rfl
      exact (h _ List.mem_cons_self).1 rfl
    rw [parse_eq_ok, parseChars_format hs]
    exact (steps_stepsText_iff _).2 h

/-! ### Names that no path has -/

/-- Neither brackets nor points could hold the name. -/
def Tangled (name : String) : Prop :=
  ']' ∈ name.toList ∧ ('.' ∈ name.toList ∨ '[' ∈ name.toList)

theorem not_tangled_named {read : List Char} {x : Except Fault Path}
    (hread : '.' ∉ read ∧ '[' ∉ read) (hx : ∀ q, x = .ok q → ∀ name, .key name ∈ q → ¬Tangled name)
    (h : named read x = .ok p) : ∀ name, .key name ∈ p → ¬Tangled name := by
  rw [named] at h
  split at h
  · cases h
  · cases x with
    | error e => cases h
    | ok q =>
      cases h
      intro name hname htangled
      rcases List.mem_cons.1 hname with heq | hname
      · cases heq
        rw [Tangled, String.toList_ofList] at htangled
        simp [hread] at htangled
      · exact hx q rfl name hname htangled

/-- One induction for what follows a name, what is left of a name and what is left of brackets. -/
theorem not_tangled_steps (cs : List Char) :
    (∀ p, steps cs = .ok p → ∀ name, .key name ∈ p → ¬Tangled name) ∧
    (∀ read, '.' ∉ read ∧ '[' ∉ read →
      ∀ p, Path.name read cs = .ok p → ∀ name, .key name ∈ p → ¬Tangled name) ∧
    ∀ read, ']' ∉ read →
      ∀ p, brackets read cs = .ok p → ∀ name, .key name ∈ p → ¬Tangled name := by
  induction cs with
  | nil =>
    refine ⟨?_, ?_, nofun⟩
    · rintro _ ⟨⟩
      exact nofun
    · intro read hread p h
      refine not_tangled_named hread ?_ h
      rintro _ ⟨⟩
      exact nofun
  | cons c cs ih =>
    obtain ⟨ihsteps, ihname, ihbrackets⟩ := ih
    have hnil (d : Char) : d ∉ ([] : List Char) := List.not_mem_nil
    refine ⟨fun p h => ?_, fun read hread p h => ?_, fun read hread p h => ?_⟩
    · rw [steps] at h
      split at h
      · exact ihname [] ⟨hnil _, hnil _⟩ p h
      · split at h
        · exact ihbrackets [] (hnil _) p h
        · cases h
    · rw [Path.name] at h
      split at h
      · exact not_tangled_named hread (ihname [] ⟨hnil _, hnil _⟩) h
      · rename_i hdot
        split at h
        · exact not_tangled_named hread (ihbrackets [] (hnil _)) h
        · rename_i hopen
          refine ihname (c :: read) ?_ p h
          simpa [Ne.symm hdot, Ne.symm hopen] using hread
    · rw [brackets] at h
      split at h
      · obtain ⟨s, hs, h⟩ := bind_eq_ok.1 h
        obtain ⟨q, hq, h⟩ := bind_eq_ok.1 h
        cases h
        intro name hname htangled
        rcases List.mem_cons.1 hname with rfl | hname
        · have hmem := bracketed_subset hs htangled.1
          exact hread (List.mem_reverse.1 hmem)
        · exact ihsteps q hq name hname htangled
      · rename_i hclose
        refine ihbrackets (c :: read) ?_ p h
        simpa [Ne.symm hclose] using hread

theorem not_tangled_of_parseChars (h : parseChars cs = .ok p) (hname : .key name ∈ p) :
    ¬Tangled name := by
  cases cs with
  | nil => cases h
  | cons c cs =>
    rw [parseChars] at h
    split at h
    · cases h
    · rename_i hdot
      split at h
      · exact (not_tangled_steps cs).2.2 [] List.not_mem_nil p h name hname
      · rename_i hopen
        refine (not_tangled_steps cs).2.1 [c] ?_ p h name hname
        simp [Ne.symm hdot, Ne.symm hopen]

/-- An empty name is only read in front where the first name of the text that is not empty is cut
right behind its beginning. What is left of it then goes on with a step. -/
theorem exists_tangled (q : Path) (h : parseChars (format q).toList = .ok (.key "" :: p)) :
    ∃ name, .key name ∈ q ∧ Tangled name := by
  induction q with
  | nil => cases h
  | cons s q ih =>
    by_cases hs : s = .key ""
    · rw [hs, format_empty_cons] at h
      obtain ⟨name, hname, htangled⟩ := ih h
      exact ⟨name, List.mem_cons_of_mem s hname, htangled⟩
    · have hr := resumes_stepsText q
      rw [parseChars_format hs, stepsText_cons] at h
      rcases steps_stepText_cases hr h with ⟨-, heq⟩ | ⟨name, rfl, hclose⟩
      · exact absurd heq hs
      · obtain ⟨u, v, hname, -, -, hrest⟩ := steps_closed hclose h
        refine ⟨name, List.mem_cons_self, hclose, ?_⟩
        cases v with
        | nil => cases hrest
        | cons c v =>
          rw [List.cons_append, steps] at hrest
          rw [hname]
          split at hrest
          · simp [*]
          · split at hrest
            · simp [*]
            · cases hrest

/-! ### Which paths are read back -/

/-- The other paths have no text or one that is read as another path. -/
theorem parse_format_iff (hp : p ≠ []) : parse (format p) = .ok p ↔
    (∀ name, .key name ∈ p → name ≠ "" ∧ ']' ∉ name.toList) ∧
      ∀ i, .index i ∈ p → i < UInt64.size := by
  have hlegible : (∀ s ∈ p, Legible s) ↔ (∀ name, .key name ∈ p → name ≠ "" ∧ ']' ∉ name.toList) ∧
      ∀ i, .index i ∈ p → i < UInt64.size := by
    constructor
    · exact fun h => ⟨fun name hname => h _ hname, fun i hi => h _ hi⟩
    · rintro ⟨hkeys, hindices⟩ s hs
      cases s with
      | key name => exact hkeys name hs
      | index i => exact hindices i hs
      | wildcard => trivial
  rw [← hlegible]
  refine ⟨fun h => ?_, parse_format hp⟩
  rw [parse_eq_ok] at h
  cases p with
  | nil => exact absurd rfl hp
  | cons s p =>
    by_cases hs : s = .key ""
    · -- The empty name has to come from elsewhere in the text, and the name that is cut there is
      -- none that a path can have.
      subst hs
      rw [format_empty_cons] at h
      obtain ⟨name, hname, htangled⟩ := exists_tangled p h
      exact absurd htangled (not_tangled_of_parseChars h (List.mem_cons_of_mem _ hname))
    · rw [parseChars_format hs] at h
      exact (steps_stepsText_iff _).1 h

theorem parse_format_iff_quotes :
    let p : Path := [.key " a'", .index 0, .key "x.['\"", .wildcard]
    let q : Path := [.key "", .key "'].x"]
    (p ≠ [] ∧ parse (format p) = .ok p) ∧ q ≠ [] ∧ parse (format q) ≠ .ok q := by
  intro p q
  have hp : p ≠ [] := List.cons_ne_nil _ _
  have hq : q ≠ [] := List.cons_ne_nil _ _
  refine ⟨⟨hp, (parse_format_iff hp).2 ⟨?_, ?_⟩⟩, hq, fun h => ?_⟩
  · simp [p]
  · simp [p]
  · exact ((parse_format_iff hq).1 h).1 "" List.mem_cons_self |>.1 rfl

end Path

end Quarry
