import Quarry.Proofs.Sql.Spelled

/-!
How SQLite reads SQL. A prefix `NOT` binds looser than comparisons and `IS NULL`, these bind looser
than sums, sums looser than products, and a minus sign binds tighter than all of them. So a text is
read as one term only.
-/

namespace Quarry.Sql

/-- The greater the level, the tighter an operator binds. -/
def Operator.level : Operator → Nat
  | or => 1
  | and => 2
  | equal => 4
  | notEqual => 4
  | less => 5
  | lessEqual => 5
  | greater => 5
  | greaterEqual => 5
  | add => 6
  | subtract => 6
  | multiply => 7
  | divide => 7
  | modulo => 7

def constants : List String := ["TRUE", "FALSE", "NULL"]

def keywords : List String :=
  ["NOT", "AND", "OR", "IS", "SELECT", "FROM", "AS", "WHERE", "EXISTS"]

/-- Keywords are not told from names by their case. -/
def isReserved (w : String) : Bool :=
  (constants ++ keywords).any fun k => k.toList == w.toList.map Char.toUpper

def IsName (w : String) : Prop := lex w = some [.word w] ∧ isReserved w = false

instance (w : String) : Decidable (IsName w) := inferInstanceAs (Decidable (_ ∧ _))

namespace Term

def isQuery : Term → Bool
  | .select _ _ _ => true
  | .selectWhere _ _ _ _ => true
  | _ => false

def isCall : Term → Bool
  | .call _ _ => true
  | _ => false

/-- The loosest infix operator at the left edge; nothing stands beside what is no expression. -/
def leftLevel : Term → Nat
  | .star => 0
  | .blank => 0
  | .both _ _ => 0
  | .select _ _ _ => 0
  | .selectWhere _ _ _ _ => 0
  | .infixed op l _ => min op.level l.leftLevel
  | .nullTest _ a => min 4 a.leftLevel
  | _ => 9

/-- The loosest operator at the right edge. -/
def rightLevel : Term → Nat
  | .star => 0
  | .blank => 0
  | .both _ _ => 0
  | .select _ _ _ => 0
  | .selectWhere _ _ _ _ => 0
  | .infixed op _ r => min op.level r.rightLevel
  | .nullTest _ _ => 4
  | .not a => min 3 a.rightLevel
  | .minus a => min 8 a.rightLevel
  | _ => 9

def isArguments : Term → Bool
  | .both _ _ => true
  | m => 0 < m.leftLevel

/-- No operator takes a part of its neighbour: operators of the same level group to the left. -/
def Settled : Term → Prop
  | .place base => IsName base
  | .number text => lex text = some [.number text]
  | .string _ => True
  | .constant name => name ∈ constants
  | .star => True
  | .blank => False
  | .call f a =>
    a.Settled ∧ (if f = "EXISTS" then a.isQuery = true
      else IsName f ∧ (a = .star ∨ a.isArguments = true))
  | .both a b => a.Settled ∧ 0 < a.leftLevel ∧ b.Settled ∧ b.isArguments = true
  | .group a => a.Settled ∧ (0 < a.leftLevel ∨ a.isQuery = true)
  | .minus a => a.Settled ∧ 8 < a.leftLevel
  | .not a => a.Settled ∧ 3 < a.leftLevel
  | .infixed op l r => l.Settled ∧ op.level ≤ l.rightLevel ∧ r.Settled ∧ op.level < r.leftLevel
  | .nullTest _ a => a.Settled ∧ 4 ≤ a.rightLevel
  | .select v s r => v.Settled ∧ 0 < v.leftLevel ∧ s.Settled ∧ s.isCall = true ∧ IsName r
  | .selectWhere v s r p =>
    v.Settled ∧ 0 < v.leftLevel ∧ s.Settled ∧ s.isCall = true ∧ IsName r ∧ p.Settled ∧
      0 < p.leftLevel

end Term

/-- A text is read as an expression. -/
def Parses (s : String) (m : Term) : Prop :=
  lex s = some m.tokens ∧ m.Settled ∧ 0 < m.leftLevel

/-- Parentheses with nothing between them. -/
def Empties (ts : List Token) : Prop := [.sign "(", .sign ")"] <:+: ts

/-! ### Reading with a stack -/

/-- What is open while a text is read. -/
inductive Frame where
  | infixed (op : Operator) (left : Term)
  | minus
  | not
  | group
  | call (function : String)
  | argument (a : Term)
  | value
  | source (value : Term)
  | predicate (value source : Term) (row : String)

namespace Frame

def level : Frame → Nat
  | .infixed op _ => op.level
  | .minus => 8
  | .not => 3
  | _ => 0

def plug : Frame → Term → Term
  | .infixed op l, m => .infixed op l m
  | .minus, m => .minus m
  | .not, m => .not m
  | .argument a, m => .both a m
  | .predicate v s r, m => .selectWhere v s r m
  | _, m => m

end Frame

inductive Mode where
  | operand
  | after (m : Term)
  | is (m : Term)
  | isNot (m : Term)
  | row (value source : Term)

namespace Reading

/-- An operator takes what binds as tightly before it as a whole. -/
def collapse (level : Nat) (m : Term) : List Frame → Term × List Frame
  | [] => (m, [])
  | f :: stack => if level ≤ f.level then collapse level (f.plug m) stack else (m, f :: stack)

def close (m : Term) : List Frame → Option (Mode × List Frame)
  | [] => none
  | .group :: stack => some (.after (.group m), stack)
  | .call f :: stack => some (.after (.call f m), stack)
  | f :: stack => close (f.plug m) stack

def operator? : Token → Option Operator
  | .word w => if w = "OR" then some .or else if w = "AND" then some .and else none
  | .sign s =>
    [Operator.equal, .notEqual, .less, .lessEqual, .greater, .greaterEqual, .add, .subtract,
      .multiply, .divide, .modulo].find? fun op => op.symbol == s
  | _ => none

def operand (stack : List Frame) : Token → Option (Mode × List Frame)
  | .number text => some (.after (.number text), stack)
  | .string value => some (.after (.string value), stack)
  | .word w =>
    if w = "NOT" then some (.operand, .not :: stack)
    else if w = "SELECT" then some (.operand, .value :: stack)
    else if w ∈ constants then some (.after (.constant w), stack)
    else some (.after (.place w), stack)
  | .sign s =>
    if s = "(" then some (.operand, .group :: stack)
    else if s = "-" then some (.operand, .minus :: stack)
    else if s = "*" then some (.after .star, stack)
    else none

/-- A keyword between the parts of a query, a parenthesis or a comma. -/
def divider (m : Term) (stack : List Frame) : Token → Option (Mode × List Frame)
  | .word w =>
    if w = "IS" then some (.is (collapse 4 m stack).1, (collapse 4 m stack).2)
    else if w = "FROM" then
      match collapse 1 m stack with
      | (v, .value :: stack) => some (.operand, .source v :: stack)
      | _ => none
    else if w = "AS" then
      match collapse 1 m stack with
      | (s, .source v :: stack) => some (.row v s, stack)
      | _ => none
    else if w = "WHERE" then
      match m with
      | .select v s r => some (.operand, .predicate v s r :: stack)
      | _ => none
    else none
  | .sign s =>
    if s = "(" then
      match m with
      | .place f => some (.operand, .call f :: stack)
      | _ => none
    else if s = "," then
      some (.operand, .argument (collapse 1 m stack).1 :: (collapse 1 m stack).2)
    else if s = ")" then close m stack
    else none
  | _ => none

def step (stack : List Frame) (t : Token) : Mode → Option (Mode × List Frame)
  | .operand => operand stack t
  | .after m =>
    match operator? t with
    | some op =>
      some (.operand, .infixed op (collapse op.level m stack).1 :: (collapse op.level m stack).2)
    | none => divider m stack t
  | .is m =>
    if t = .word "NULL" then some (.after (.nullTest true m), stack)
    else if t = .word "NOT" then some (.isNot m, stack)
    else none
  | .isNot m => if t = .word "NULL" then some (.after (.nullTest false m), stack) else none
  | .row v s =>
    match t with
    | .word r => some (.after (.select v s r), stack)
    | _ => none

def run (mode : Mode) (stack : List Frame) : List Token → Option (Mode × List Frame)
  | [] => some (mode, stack)
  | t :: ts => (step stack t mode).bind fun (mode, stack) => run mode stack ts

/-- An operand is wanted after a parenthesis. -/
theorem operand_of_open {mode : Mode} {stack : List Frame} {p : Mode × List Frame}
    (h : step stack (.sign "(") mode = some p) : p.1 = .operand := by
  cases mode with
  | operand =>
    cases h
    rfl
  | after m =>
    cases m with
    | place base =>
      cases h
      rfl
    | _ => cases h
  | is m => cases h
  | isNot m => cases h
  | row v s => cases h

theorem run_cons {mode mode' : Mode} {stack stack' : List Frame} {t : Token}
    (h : step stack t mode = some (mode', stack')) (ts : List Token) :
    run mode stack (t :: ts) = run mode' stack' ts := by
  rw [run, h, Option.bind_some]

theorem run_empties {ts : List Token} (h : Empties ts) (mode : Mode) (stack : List Frame) :
    run mode stack ts = none := by
  obtain ⟨before, after, rfl⟩ := h
  rw [List.append_assoc]
  induction before generalizing mode stack with
  | nil =>
    cases hopen : step stack (.sign "(") mode with
    | none => exact congrArg (Option.bind · _) hopen
    | some p =>
      obtain ⟨mode', stack'⟩ := p
      obtain rfl : mode' = .operand := operand_of_open hopen
      exact run_cons hopen _
  | cons t before ih =>
    cases hstep : step stack t mode with
    | none => exact congrArg (Option.bind · _) hstep
    | some p => rw [List.cons_append, run_cons hstep, ih]

end Reading

/-! ### A term while it is read -/

namespace Term

/-- The term read last, when a term has been read and might go on. -/
def core : Term → Term
  | .infixed _ _ r => r.core
  | .minus a => a.core
  | .not a => a.core
  | .both _ b => b.core
  | .selectWhere _ _ _ p => p.core
  | m => m

/-- What is open around the term read last, the innermost first. -/
def spine : Term → List Frame
  | .infixed op l r => r.spine ++ [.infixed op l]
  | .minus a => a.spine ++ [.minus]
  | .not a => a.spine ++ [.not]
  | .both a b => b.spine ++ [.argument a]
  | .selectWhere v s r p => p.spine ++ [.predicate v s r]
  | _ => []

/-- The right edge of a term is that of a part of it, with this around the part. -/
structure Edge (f : Frame) (n m : Term) : Prop where
  plug : f.plug n = m
  core : m.core = n.core
  spine : m.spine = n.spine ++ [f]
  level : m.rightLevel ≤ min f.level n.rightLevel
  close : ∀ stack, Reading.close n (f :: stack) = Reading.close m stack

/-- Induction along the right edge, up to the term read last. -/
theorem edge_induct {P : Term → Prop} (last : ∀ m : Term, m.core = m → m.spine = [] → P m)
    (edge : ∀ {f : Frame} {n m : Term}, Edge f n m → P n → P m) (m : Term) : P m := by
  induction m with
  | infixed op l r _ ih =>
    exact edge (f := .infixed op l) ⟨rfl, rfl, rfl, le_rfl, fun _ => rfl⟩ ih
  | minus a ih => exact edge (f := .minus) ⟨rfl, rfl, rfl, le_rfl, fun _ => rfl⟩ ih
  | not a ih => exact edge (f := .not) ⟨rfl, rfl, rfl, le_rfl, fun _ => rfl⟩ ih
  | both a b _ ih =>
    exact edge (f := .argument a) ⟨rfl, rfl, rfl, Nat.zero_le _, fun _ => rfl⟩ ih
  | selectWhere v s r p _ _ ih =>
    exact edge (f := .predicate v s r) ⟨rfl, rfl, rfl, Nat.zero_le _, fun _ => rfl⟩ ih
  | _ => exact last _ rfl rfl

theorem collapse_spine (m : Term) {level : Nat} (h : level ≤ m.rightLevel) (stack : List Frame) :
    Reading.collapse level m.core (m.spine ++ stack) = Reading.collapse level m stack := by
  induction m using edge_induct generalizing stack with
  | last m hcore hspine => rw [hcore, hspine, List.nil_append]
  | edge hedge ih =>
    obtain ⟨hframe, hrest⟩ := le_min_iff.1 (h.trans hedge.level)
    rw [hedge.core, hedge.spine, List.append_assoc, List.singleton_append, ih hrest,
      Reading.collapse, if_pos hframe, hedge.plug]

theorem collapse_stop {m : Term} {level : Nat} {stack : List Frame}
    (h : ∀ f ∈ stack.head?, f.level < level) : Reading.collapse level m stack = (m, stack) := by
  cases stack with
  | nil => rfl
  | cons f stack => rw [Reading.collapse, if_neg (Nat.not_le.2 (h f rfl))]

theorem close_spine (m : Term) (stack : List Frame) :
    Reading.close m.core (m.spine ++ stack) = Reading.close m stack := by
  induction m using edge_induct generalizing stack with
  | last m hcore hspine => rw [hcore, hspine, List.nil_append]
  | edge hedge ih =>
    rw [hedge.core, hedge.spine, List.append_assoc, List.singleton_append, ih, hedge.close]

theorem settled_rightLevel {m : Term} (h : m.Settled) (hl : 0 < m.leftLevel) :
    0 < m.rightLevel := by
  induction m with
  | infixed op l r _ ih =>
    obtain ⟨-, -, hr, hlevel⟩ := h
    have hop : 0 < op.level := by
      cases op <;> decide
    exact lt_min hop (ih hr (by omega))
  | minus a ih => exact lt_min (by decide) (ih h.1 (by have := h.2; omega))
  | not a ih => exact lt_min (by decide) (ih h.1 (by have := h.2; omega))
  | nullTest isNull a => exact Nat.succ_pos 3
  | both a b => exact hl
  | star => exact hl
  | blank => exact hl
  | select v s r => exact hl
  | selectWhere v s r p => exact hl
  | _ => exact Nat.succ_pos 8

/-- Nothing open before the term takes a part of it. -/
def Free (m : Term) (stack : List Frame) : Prop :=
  ∀ f ∈ stack.head?, f.level < max 1 m.leftLevel

theorem free_bracket {f : Frame} (h : f.level = 0) (m : Term) (stack : List Frame) :
    Free m (f :: stack) := by
  rintro g hg
  obtain rfl := Option.mem_some.1 hg
  rw [h]
  exact lt_max_of_lt_left Nat.one_pos

theorem free_operator {m : Term} {f : Frame} (h : f.level < m.leftLevel) (stack : List Frame) :
    Free m (f :: stack) := by
  rintro g hg
  obtain rfl := Option.mem_some.1 hg
  exact lt_max_of_lt_right h

theorem Free.left {m a : Term} {level : Nat} {stack : List Frame} (h : m.Free stack)
    (h0 : 0 < level) (hm : m.leftLevel ≤ min level a.leftLevel) :
    (∀ f ∈ stack.head?, f.level < level) ∧ a.Free stack := by
  obtain ⟨hlevel, hleft⟩ := le_min_iff.1 hm
  exact ⟨fun f hf => (h f hf).trans_le (max_le h0 hlevel),
    fun f hf => (h f hf).trans_le (max_le_max_left 1 hleft)⟩

theorem collapse_free {m : Term} {level : Nat} {stack : List Frame} (h : level ≤ m.rightLevel)
    (hstack : ∀ f ∈ stack.head?, f.level < level) :
    Reading.collapse level m.core (m.spine ++ stack) = (m, stack) :=
  (collapse_spine m h stack).trans (collapse_stop hstack)

/-! ### What is read back -/

theorem plain_of_isName {w : String} (h : IsName w) :
    w ≠ "NOT" ∧ w ≠ "SELECT" ∧ w ∉ constants := by
  have hreserved := h.2
  refine ⟨?_, ?_, ?_⟩
  · rintro rfl
    exact absurd hreserved (by decide)
  · rintro rfl
    exact absurd hreserved (by decide)
  · intro hmem
    simp only [constants, List.mem_cons, List.not_mem_nil, or_false] at hmem
    rcases hmem with rfl | rfl | rfl <;> exact absurd hreserved (by decide)

theorem step_word {w : String} (h : w ≠ "NOT" ∧ w ≠ "SELECT" ∧ w ∉ constants)
    (stack : List Frame) :
    Reading.step stack (.word w) .operand = some (.after (.place w), stack) := by
  change Reading.operand stack (.word w) = _
  rw [Reading.operand, if_neg h.1, if_neg h.2.1, if_neg h.2.2]

theorem operator?_token (op : Operator) : Reading.operator? op.token = some op := by
  cases op <;> decide

theorem run_close {m n : Term} {f : Frame} {stack : List Frame}
    (h : Reading.close m (f :: stack) = some (.after n, stack)) (rest : List Token) :
    Reading.run (.after m.core) (m.spine ++ f :: stack) (.sign ")" :: rest) =
      Reading.run (.after n) stack rest := by
  apply Reading.run_cons
  change Reading.close m.core (m.spine ++ f :: stack) = _
  rw [close_spine, h]

theorem run_operator (op : Operator) {m : Term} {stack : List Frame}
    (h : op.level ≤ m.rightLevel) (hstack : ∀ f ∈ stack.head?, f.level < op.level)
    (rest : List Token) :
    Reading.run (.after m.core) (m.spine ++ stack) (op.token :: rest) =
      Reading.run .operand (.infixed op m :: stack) rest := by
  apply Reading.run_cons
  rw [Reading.step, operator?_token]
  dsimp only
  rw [collapse_free h hstack]

theorem run_comma {m : Term} {stack : List Frame} (h : 0 < m.rightLevel)
    (hstack : ∀ f ∈ stack.head?, f.level < 1) (rest : List Token) :
    Reading.run (.after m.core) (m.spine ++ stack) (.sign "," :: rest) =
      Reading.run .operand (.argument m :: stack) rest := by
  apply Reading.run_cons
  change some (Mode.operand, Frame.argument (Reading.collapse 1 m.core (m.spine ++ stack)).1 ::
    (Reading.collapse 1 m.core (m.spine ++ stack)).2) = _
  rw [collapse_free h hstack]

theorem run_is {m : Term} {stack : List Frame} (h : 4 ≤ m.rightLevel)
    (hstack : ∀ f ∈ stack.head?, f.level < 4) (rest : List Token) :
    Reading.run (.after m.core) (m.spine ++ stack) (.word "IS" :: rest) =
      Reading.run (.is m) stack rest := by
  apply Reading.run_cons
  change some (Mode.is (Reading.collapse 4 m.core (m.spine ++ stack)).1,
    (Reading.collapse 4 m.core (m.spine ++ stack)).2) = _
  rw [collapse_free h hstack]

/-- The beginning of a query, when its parts are read as they should. -/
theorem run_query {v s : Term} {r : String} (hv : 0 < v.rightLevel) (hs : s.isCall = true)
    (ihv : ∀ stack, v.Free stack → ∀ rest, Reading.run .operand stack (v.tokens ++ rest) =
      Reading.run (.after v.core) (v.spine ++ stack) rest)
    (ihs : ∀ stack, s.Free stack → ∀ rest, Reading.run .operand stack (s.tokens ++ rest) =
      Reading.run (.after s.core) (s.spine ++ stack) rest)
    (stack : List Frame) (rest : List Token) :
    Reading.run .operand stack (.word "SELECT" :: (v.tokens ++ .word "FROM" ::
        (s.tokens ++ .word "AS" :: .word r :: rest))) =
      Reading.run (.after (.select v s r)) stack rest := by
  have hright : 1 ≤ s.rightLevel := by
    cases s with
    | call f a => exact Nat.succ_pos 8
    | _ => cases hs
  have hvalue (f : Frame) (hf : f ∈ (Frame.value :: stack).head?) : f.level < 1 := by
    obtain rfl := Option.mem_some.1 hf
    exact Nat.one_pos
  have hsource (f : Frame) (hf : f ∈ (Frame.source v :: stack).head?) : f.level < 1 := by
    obtain rfl := Option.mem_some.1 hf
    exact Nat.one_pos
  have hselect : Reading.step stack (.word "SELECT") .operand =
      some (.operand, .value :: stack) := rfl
  have hfrom : Reading.step (v.spine ++ .value :: stack) (.word "FROM") (.after v.core) =
      some (.operand, .source v :: stack) := by
    change (match Reading.collapse 1 v.core (v.spine ++ .value :: stack) with
      | (v, .value :: stack) => some (Mode.operand, Frame.source v :: stack)
      | _ => none) = _
    rw [collapse_free hv hvalue]
  have has : Reading.step (s.spine ++ .source v :: stack) (.word "AS") (.after s.core) =
      some (.row v s, stack) := by
    change (match Reading.collapse 1 s.core (s.spine ++ .source v :: stack) with
      | (s, .source v :: stack) => some (Mode.row v s, stack)
      | _ => none) = _
    rw [collapse_free hright hsource]
  have hrow : Reading.step stack (.word r) (.row v s) = some (.after (.select v s r), stack) := rfl
  rw [Reading.run_cons hselect, ihv _ (free_bracket rfl v stack), Reading.run_cons hfrom,
    ihs _ (free_bracket rfl s stack), Reading.run_cons has, Reading.run_cons hrow]

/-- The tokens of a term are read as the term, with whatever is open around it. -/
theorem run_tokens (m : Term) (h : m.Settled) (stack : List Frame) (hfree : m.Free stack)
    (rest : List Token) : Reading.run .operand stack (m.tokens ++ rest) =
      Reading.run (.after m.core) (m.spine ++ stack) rest := by
  induction m generalizing stack rest with
  | place base =>
    rw [tokens, h.1, Option.getD_some, List.singleton_append,
      Reading.run_cons (step_word (plain_of_isName h) stack)]
    rfl
  | number text =>
    rw [tokens, h, Option.getD_some]
    rfl
  | string value => rfl
  | constant name =>
    have hstep : Reading.step stack (.word name) .operand =
        some (.after (.constant name), stack) := by
      have hname : name ∈ constants := h
      simp only [constants, List.mem_cons, List.not_mem_nil, or_false] at hname
      rcases hname with rfl | rfl | rfl <;> rfl
    exact Reading.run_cons hstep rest
  | star => rfl
  | blank => exact h.elim
  | call f a ih =>
    obtain ⟨ha, hf⟩ := h
    have hplain : f ≠ "NOT" ∧ f ≠ "SELECT" ∧ f ∉ constants := by
      by_cases hexists : f = "EXISTS"
      · rw [hexists]
        decide
      · rw [if_neg hexists] at hf
        exact plain_of_isName hf.1
    have hopen : Reading.step stack (.sign "(") (.after (.place f)) =
        some (.operand, .call f :: stack) := rfl
    rw [tokens, List.cons_append, List.cons_append, List.append_assoc, List.singleton_append,
      Reading.run_cons (step_word hplain stack), Reading.run_cons hopen,
      ih ha _ (free_bracket rfl a stack),
      run_close rfl]
    rfl
  | both a b iha ihb =>
    obtain ⟨ha, hlevel, hb, -⟩ := h
    obtain ⟨hstack, hfree⟩ := hfree.left Nat.one_pos (Nat.zero_le _)
    rw [tokens, List.append_assoc, iha ha _ hfree, List.cons_append,
      run_comma (settled_rightLevel ha hlevel) hstack, ihb hb _ (free_bracket rfl b stack), core,
      spine, List.append_assoc, List.singleton_append]
  | group a ih =>
    have hopen : Reading.step stack (.sign "(") .operand = some (.operand, .group :: stack) := rfl
    rw [tokens, List.cons_append, List.append_assoc, List.singleton_append,
      Reading.run_cons hopen,
      ih h.1 _ (free_bracket rfl a stack),
      run_close rfl]
    rfl
  | minus a ih =>
    have hstep : Reading.step stack (.sign "-") .operand = some (.operand, .minus :: stack) := rfl
    rw [tokens, List.cons_append, Reading.run_cons hstep,
      ih h.1 _ (free_operator (f := .minus) h.2 stack), core, spine, List.append_assoc,
      List.singleton_append]
  | not a ih =>
    have hstep : Reading.step stack (.word "NOT") .operand = some (.operand, .not :: stack) := rfl
    rw [tokens, List.cons_append, Reading.run_cons hstep,
      ih h.1 _ (free_operator (f := .not) h.2 stack), core, spine, List.append_assoc,
      List.singleton_append]
  | infixed op l r ihl ihr =>
    obtain ⟨hl, hleft, hr, hright⟩ := h
    have h0 : 0 < op.level := by
      cases op <;> decide
    -- What is open before the term binds looser than the operator, so the operator stops at it.
    obtain ⟨hstack, hfree⟩ := hfree.left (a := l) h0 le_rfl
    rw [tokens, List.append_assoc, ihl hl _ hfree, List.cons_append, run_operator op hleft hstack,
      ihr hr _ (free_operator (f := .infixed op l) hright stack), core, spine, List.append_assoc,
      List.singleton_append]
  | nullTest isNull a ih =>
    obtain ⟨ha, hlevel⟩ := h
    obtain ⟨hstack, hfree⟩ := hfree.left (a := a) (by decide : 0 < 4) le_rfl
    rw [tokens, List.append_assoc, ih ha _ hfree, List.cons_append, run_is hlevel hstack]
    cases isNull <;> rfl
  | select v s r ihv ihs =>
    obtain ⟨hv, hlevel, hs, hcall, -⟩ := h
    rw [tokens, List.cons_append, List.append_assoc, List.cons_append, List.append_assoc,
      List.cons_append, List.singleton_append,
      run_query (settled_rightLevel hv hlevel) hcall (ihv hv) (ihs hs)]
    rfl
  | selectWhere v s r p ihv ihs ihp =>
    obtain ⟨hv, hlevel, hs, hcall, -, hp, -⟩ := h
    have hwhere : Reading.step stack (.word "WHERE") (.after (.select v s r)) =
        some (.operand, .predicate v s r :: stack) := rfl
    rw [tokens, List.cons_append, List.append_assoc, List.cons_append, List.append_assoc,
      List.cons_append, List.cons_append, List.cons_append,
      run_query (settled_rightLevel hv hlevel) hcall (ihv hv) (ihs hs), Reading.run_cons hwhere,
      ihp hp _ (free_bracket rfl p stack), core, spine, List.append_assoc, List.singleton_append]

theorem plug_spine (m : Term) : m.spine.foldl (fun n f => f.plug n) m.core = m := by
  induction m using edge_induct with
  | last m hcore hspine => rw [hcore, hspine, List.foldl_nil]
  | edge hedge ih =>
    rw [hedge.core, hedge.spine, List.foldl_append, ih]
    exact hedge.plug

theorem run_settled {m : Term} (h : m.Settled) :
    Reading.run .operand [] m.tokens = some (.after m.core, m.spine) := by
  have hrun := run_tokens m h [] (fun _ hf => by cases hf) []
  rwa [List.append_nil, List.append_nil] at hrun

theorem not_empties {m : Term} (h : m.Settled) : ¬Empties m.tokens := by
  intro hempties
  have hrun := run_settled h
  rw [Reading.run_empties hempties] at hrun
  cases hrun

/-- A text is read as one term only. -/
theorem tokens_inj {m n : Term} (hm : m.Settled) (hn : n.Settled) (h : m.tokens = n.tokens) :
    m = n := by
  -- The reader ends with the term read last and what is open around it, which are all of the term.
  have hsame := (run_settled hm).symm.trans ((congrArg _ h).trans (run_settled hn))
  rw [Option.some.injEq, Prod.mk.injEq, Mode.after.injEq] at hsame
  rw [← plug_spine m, ← plug_spine n, hsame.1, hsame.2]

end Term

end Quarry.Sql
