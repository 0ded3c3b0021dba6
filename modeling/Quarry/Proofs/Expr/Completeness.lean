import Quarry.Proofs.Expr.Soundness

/-!
What is derived in the grammar is read by a parser, if what follows it cannot go on with it.
-/

namespace Quarry.Expr

namespace Parser

/-- The level at which a token goes on with what stands before it. -/
def level : Token → Nat
  | .or => 1
  | .and => 2
  | .equal => 3
  | .notEqual => 3
  | .less => 3
  | .greater => 3
  | .lessOrEqual => 3
  | .greaterOrEqual => 3
  | .plus => 4
  | .minus => 4
  | .star => 5
  | .slash => 5
  | .percent => 5
  | .dot => 7
  | .openBracket => 8
  | .openParen => 8
  | _ => 0

/-- Tokens that do not go on with an expression of a level. -/
inductive Follows (n : Nat) : List Token → Prop
  | cons {t : Token} {ts : List Token} (h : level t < n) : Follows n (t :: ts)

section

variable {n : Nat} {t : Token} {ts : List Token}

theorem Follows.ne_nil (h : Follows n ts) : ts ≠ [] := by
  cases h
  exact List.cons_ne_nil _ _

theorem Follows.mono {m : Nat} (h : Follows n ts) (hm : n ≤ m) : Follows m ts := by
  cases h with
  | cons h => exact .cons (by omega)

theorem comparisonOp?_of_level (h : level t < 3) : comparisonOp? t = none := by
  cases t <;> first | rfl | exact absurd h (by decide)

theorem additiveOp?_of_level (h : level t < 4) : additiveOp? t = none := by
  cases t <;> first | rfl | exact absurd h (by decide)

theorem multiplicativeOp?_of_level (h : level t < 5) : multiplicativeOp? t = none := by
  cases t <;> first | rfl | exact absurd h (by decide)

theorem level_of_mem_chains {op : BinaryOp} (h : (n, t, op) ∈ chains) : level t = n := by
  simp only [chains, List.mem_cons, Prod.mk.injEq, List.not_mem_nil, or_false] at h
  rcases h with ⟨rfl, rfl, -⟩ | ⟨rfl, rfl, -⟩ | ⟨rfl, rfl, -⟩ | ⟨rfl, rfl, -⟩ | ⟨rfl, rfl, -⟩ <;>
    rfl

theorem level_of_mem_connectives {k : Connective} (h : (n, t, k) ∈ connectives) : level t = n := by
  simp only [connectives, List.mem_cons, Prod.mk.injEq, List.not_mem_nil, or_false] at h
  rcases h with ⟨rfl, rfl, -⟩ | ⟨rfl, rfl, -⟩ <;> rfl

theorem comparisonOp?_of_mem {op : BinaryOp} (h : (t, op) ∈ comparisons) :
    comparisonOp? t = some op ∧ level t = 3 := by
  simp only [comparisons, List.mem_cons, Prod.mk.injEq, List.not_mem_nil, or_false] at h
  rcases h with ⟨rfl, rfl⟩ | ⟨rfl, rfl⟩ | ⟨rfl, rfl⟩ | ⟨rfl, rfl⟩ | ⟨rfl, rfl⟩ | ⟨rfl, rfl⟩ <;>
    exact ⟨rfl, rfl⟩

/-- The operators of a level whose operators associate to the left. -/
def chainOp? (n : Nat) : Token → Option BinaryOp := if n = 4 then additiveOp? else multiplicativeOp?

theorem chainOp?_of_mem {op : BinaryOp} (h : (n, t, op) ∈ chains) : chainOp? n t = some op := by
  simp only [chains, List.mem_cons, Prod.mk.injEq, List.not_mem_nil, or_false] at h
  rcases h with ⟨rfl, rfl, rfl⟩ | ⟨rfl, rfl, rfl⟩ | ⟨rfl, rfl, rfl⟩ | ⟨rfl, rfl, rfl⟩ |
    ⟨rfl, rfl, rfl⟩ <;> rfl

theorem chainOp?_of_level (hn : n = 4 ∨ n = 5) (h : level t < n) : chainOp? n t = none := by
  rcases hn with rfl | rfl
  · exact additiveOp?_of_level h
  · exact multiplicativeOp?_of_level h

end

/-! ### Tokens -/

section

variable {L : Tokens} {t : Token} {ts : List Token}

theorem current_of_marks (h : marks L = t :: ts) : current L = t := by
  rw [current_eq, h]
  rfl

theorem marks_advance (h : marks L = t :: ts) (hts : ts ≠ []) : marks (advance L) = ts := by
  match L with
  | [a] => exact absurd (List.cons.inj h).2.symm hts
  | _ :: b :: L => exact (List.cons.inj h).2

theorem expect_of_marks (h : marks L = t :: ts) : expect t L = .ok (advance L) :=
  expect_eq_ok.2 ⟨current_of_marks h, rfl⟩

theorem identifier_of_marks {x : String} (h : marks L = .identifier x :: ts) :
    identifier L = .ok (x, advance L) := by
  rw [identifier, current_of_marks h]

end

/-- A phrase reads a value from tokens up to others. -/
def Reads {α : Type} (p : Phrase α) (a : α) (ts rest : List Token) : Prop :=
  ∀ L, marks L = ts → ∃ R, marks R = rest ∧ p L = .ok (a, R)

/-! ### Fields -/

theorem not_memberFollows {L : Tokens} {t : Token} {ts : List Token} (h : marks L = t :: ts)
    (ht : t ≠ .dot) : memberFollows L = false := by
  rw [← Bool.not_eq_true, memberFollows_iff, h]
  rintro ⟨x, us, hus, -⟩
  exact ht (List.cons.inj hus).1

theorem fieldSteps_bracketed {L : Tokens} {t : Token} {mid : List Token} {inner : String}
    (hL : marks L = .openBracket :: t :: .closeBracket :: mid) (hmid : mid ≠ [])
    (hb : bracketed (advance L) = .ok (inner, advance (advance L))) :
    ∃ L', marks L' = mid ∧
      ∀ fuel name, fieldSteps (fuel + 1) name L = fieldSteps fuel (name ++ inner) L' := by
  have h1 := marks_advance hL (by simp)
  have h2 := marks_advance h1 (by simp)
  refine ⟨_, marks_advance h2 hmid, fun fuel name => ?_⟩
  rw [fieldSteps, not_memberFollows hL (by simp), if_neg Bool.false_ne_true,
    if_pos (current_of_marks hL), hb]
  exact congrArg (· >>= _) (expect_of_marks h2)

theorem fieldSteps_step {L : Tokens} {s : String} {ts mid : List Token} (h : Step s ts mid)
    (hL : marks L = ts) (hmid : mid ≠ []) :
    ∃ L', marks L' = mid ∧
      ∀ fuel name, fieldSteps (fuel + 1) name L = fieldSteps fuel (name ++ s) L' := by
  cases h with
  | @member x _ hparen =>
    have h1 := marks_advance hL (by simp)
    refine ⟨_, marks_advance h1 hmid, fun fuel name => ?_⟩
    rw [fieldSteps, if_pos (memberFollows_iff.2 ⟨x, mid, hL, hparen⟩), identifier_of_marks h1,
      ← String.append_assoc]
    rfl
  | @index n _ hn =>
    refine fieldSteps_bracketed hL hmid ?_
    rw [bracketed, current_of_marks (marks_advance hL (by simp))]
    exact if_pos hn
  | every =>
    refine fieldSteps_bracketed hL hmid ?_
    rw [bracketed, current_of_marks (marks_advance hL (by simp))]

theorem fieldSteps_reads {s : String} {ts rest : List Token} (h : Steps s ts rest)
    (hf : Follows 8 rest) (name : String) {fuel : Nat} (hfuel : ts.length ≤ fuel) :
    Reads (fieldSteps fuel name) (.field (name ++ s) none) ts rest := by
  intro L hL
  induction h generalizing L name fuel with
  | @done ts hno =>
    refine ⟨L, hL, ?_⟩
    cases fuel with
    | zero => rw [fieldSteps, String.append_empty]
    | succ fuel =>
      have hm : ¬memberFollows L = true := by
        rw [memberFollows_iff]
        rintro ⟨x, us, hus, hparen⟩
        obtain rfl := hL.symm.trans hus
        exact hno _ _ (.member hparen)
      have hc : current L ≠ .openBracket := by
        cases hf with
        | cons hlevel =>
          rw [current_of_marks hL]
          rintro rfl
          simp [level] at hlevel
      rw [fieldSteps, if_neg hm, if_neg hc, String.append_empty]
  | @cons s s' ts mid rest h hs ih =>
    have hmid : mid ≠ [] := fun hnil => hf.ne_nil (List.suffix_nil.1 (hnil ▸ hs.suffix))
    have hlt := h.shorter.length_lt
    obtain ⟨fuel, rfl⟩ : ∃ k, fuel = k + 1 := ⟨fuel - 1, by omega⟩
    obtain ⟨L', hL', hstep⟩ := fieldSteps_step h hL hmid
    have hle : mid.length ≤ fuel := by omega
    obtain ⟨R, hR, hr⟩ := ih hf (name ++ s) hle L' hL'
    exact ⟨R, hR, by rw [hstep, hr, String.append_assoc]⟩

theorem steps_head {s : String} {ts rest : List Token} (h : Steps s ts rest)
    (hf : Follows 8 rest) : ∃ t us, ts = t :: us ∧ t ≠ .openParen := by
  cases h with
  | done _ =>
    cases hf with
    | cons hlevel =>
      refine ⟨_, _, rfl, ?_⟩
      rintro rfl
      simp [level] at hlevel
  | cons h _ => cases h <;> exact ⟨_, _, rfl, by simp⟩

/-! ### Names of operators -/

theorem functionOp?_of_mem : ∀ op ∈ functions, functionOp? op.name = some op := by decide

theorem functionOp?_connective (k : Connective) : functionOp? k.name = none := by
  cases k <;> decide

theorem connectiveOf?_name (k : Connective) : connectiveOf? k.name = some k := by
  cases k <;> decide

theorem methodOp?_symbol {op : BinaryOp} (h : op.isMethod = true) :
    methodOp? op.symbol = some op := by
  cases op <;> first | decide | cases h

theorem methodOp?_quantifier (q : Quantifier) :
    methodOp? q.name = none ∧ q.name ≠ "Length" ∧ quantifierOf? q.name = some q := by
  cases q <;> decide

theorem methodOp?_aggregate (op : AggregateOp) : methodOp? op.name = none ∧ op.name ≠ "Length" ∧
    op.name ≠ "Count" ∧ quantifierOf? op.name = none ∧ aggregateOf? op.name = some op := by
  cases op <;> decide

theorem literal?_of_constant {t : Token} {a : Atom} (h : Constant t a) : literal? t = some a := by
  cases h <;> rfl

/-! ### The parser of a level -/

variable {expr : Phrase Expr}

def phraseAt (expr : Phrase Expr) : Nat → Phrase Expr
  | 0 => disjunction expr
  | 1 => disjunction expr
  | 2 => conjunction expr
  | 3 => comparison expr
  | 4 => additive expr
  | 5 => multiplicative expr
  | 6 => fun L => signed expr L.length L
  | 7 => postfixed expr
  | _ => primary expr

/-- A phrase and what is read after it, with as much fuel as there are tokens left. -/
theorem reads_next {α β : Type} {first : Phrase α} {next : Nat → α → Phrase β} {a : α} {b : β}
    {ts mid rest : List Token} (h : Reads first a ts mid)
    (hs : Reads (next mid.length a) b mid rest) :
    Reads (fun L => do
      let (a, L) ← first L
      next L.length a L) b ts rest := by
  intro L hL
  obtain ⟨L1, h1, hp⟩ := h L hL
  obtain ⟨R, hR, hr⟩ := hs L1 h1
  rw [← h1, length_marks] at hr
  exact ⟨R, hR, bind_eq_ok.2 ⟨_, hp, hr⟩⟩

theorem connected_reads {k : Connective} {mark : Token} {operand : Phrase Expr} {e : Expr}
    {es : List Expr} {ts mid rest : List Token} (h : Reads operand e ts mid)
    (hs : Reads (operandsRest mark operand mid.length) es mid rest) :
    Reads (connected k mark operand) (if es = [] then e else .connect k (e :: es)) ts rest := by
  intro L hL
  obtain ⟨L1, h1, hp⟩ := h L hL
  obtain ⟨R, hR, hr⟩ := hs L1 h1
  rw [← h1, length_marks] at hr
  refine ⟨R, hR, bind_eq_ok.2 ⟨_, hp, bind_eq_ok.2 ⟨_, hr, ?_⟩⟩⟩
  cases es <;> rfl

theorem chain_reads {op? : Token → Option BinaryOp} {operand : Phrase Expr} {l e : Expr}
    {ts mid rest : List Token} (h : Reads operand l ts mid)
    (hs : Reads (chainRest op? operand mid.length l) e mid rest) :
    Reads (chain op? operand) e ts rest :=
  reads_next h hs

theorem postfixed_reads {e r : Expr} {ts mid rest : List Token}
    (h : Reads (primary expr) e ts mid) (hs : Reads (methods expr mid.length e) r mid rest) :
    Reads (postfixed expr) r ts rest :=
  reads_next h hs

/-! Nothing more is read where no operator follows. -/

theorem operandsRest_stop {mark : Token} {operand : Phrase Expr} {n fuel : Nat} {ts : List Token}
    (hn : level mark = n) (hf : Follows n ts) :
    Reads (operandsRest mark operand fuel) [] ts ts := by
  intro L hL
  refine ⟨L, hL, ?_⟩
  cases fuel with
  | zero => rfl
  | succ fuel =>
    cases hf with
    | cons h =>
      have hc : current L ≠ mark := by
        rw [current_of_marks hL]
        rintro rfl
        omega
      rw [operandsRest, if_neg hc]

theorem chainRest_stop {op? : Token → Option BinaryOp} {operand : Phrase Expr} {n fuel : Nat}
    {e : Expr} {ts : List Token} (hop : ∀ {t}, level t < n → op? t = none) (hf : Follows n ts) :
    Reads (chainRest op? operand fuel e) e ts ts := by
  intro L hL
  refine ⟨L, hL, ?_⟩
  cases fuel with
  | zero => rfl
  | succ fuel =>
    cases hf with
    | cons h => rw [chainRest, current_of_marks hL, hop h]

theorem methods_stop {fuel : Nat} {e : Expr} {ts : List Token} (hf : Follows 7 ts) :
    Reads (methods expr fuel e) e ts ts := by
  intro L hL
  refine ⟨L, hL, ?_⟩
  cases fuel with
  | zero => rfl
  | succ fuel =>
    cases hf with
    | cons h =>
      have hc : current L ≠ .dot := by
        rw [current_of_marks hL]
        rintro rfl
        simp [level] at h
      rw [methods, if_neg hc]

theorem comparison_reads_one {e : Expr} {ts rest : List Token} (h : Reads (additive expr) e ts rest)
    (hf : Follows 3 rest) : Reads (comparison expr) e ts rest := by
  intro L hL
  obtain ⟨R, hR, hr⟩ := h L hL
  refine ⟨R, hR, bind_eq_ok.2 ⟨_, hr, ?_⟩⟩
  cases hf with
  | cons hlevel =>
    dsimp only
    rw [current_of_marks hR, comparisonOp?_of_level hlevel]
    rfl

theorem signed_reads_plain {e : Expr} {ts rest : List Token} (h : Reads (postfixed expr) e ts rest)
    (hts : ts.head? ≠ some .bang ∧ ts.head? ≠ some .minus ∧ ts ≠ []) :
    Reads (fun L => signed expr L.length L) e ts rest := by
  intro L hL
  obtain ⟨R, hR, hr⟩ := h L hL
  refine ⟨R, hR, ?_⟩
  obtain ⟨t, us, rfl⟩ := List.exists_cons_of_ne_nil hts.2.2
  have hlen : L.length = us.length + 1 := by rw [← length_marks, hL, List.length_cons]
  have hc := current_of_marks hL
  dsimp only
  rw [hlen, signed]
  split
  · rename_i hbang
    exact absurd (hc.symm.trans hbang) (by simpa using hts.1)
  · rename_i hminus
    exact absurd (hc.symm.trans hminus) (by simpa using hts.2.1)
  · exact hr

theorem reads_single {n : Nat} {e : Expr} {ts rest : List Token} (hn : n < 8)
    (h : Reads (phraseAt expr (n + 1)) e ts rest) (hf : Follows n rest)
    (hts : n = 6 → ts.head? ≠ some .bang ∧ ts.head? ≠ some .minus ∧ ts ≠ []) :
    Reads (phraseAt expr n) e ts rest := by
  match n with
  | 0 =>
    cases hf with
    | cons hlevel => exact absurd hlevel (Nat.not_lt_zero _)
  | 1 => exact connected_reads h (operandsRest_stop (rfl : level .or = 1) hf)
  | 2 => exact connected_reads h (operandsRest_stop (rfl : level .and = 2) hf)
  | 3 => exact comparison_reads_one h hf
  | 4 => exact chain_reads h (chainRest_stop additiveOp?_of_level hf)
  | 5 => exact chain_reads h (chainRest_stop multiplicativeOp?_of_level hf)
  | 6 => exact signed_reads_plain h (hts rfl)
  | 7 => exact postfixed_reads h (methods_stop hf)
  | _ + 8 => omega

/-- No closing parenthesis begins an expression, and a sign none of the tightest levels. -/
theorem derives_head {n : Nat} {e : Expr} {ts rest : List Token} (h : Derives n e ts rest) :
    ∃ t us, ts = t :: us ∧ t ≠ .closeParen ∧ (7 ≤ n → t ≠ .bang ∧ t ≠ .minus) := by
  match h with
  | .single _ h =>
    obtain ⟨t, us, rfl, ht, hsign⟩ := derives_head h
    exact ⟨t, us, rfl, ht, fun hn => hsign (by omega)⟩
  | .connect hk h _ _ =>
    obtain ⟨t, us, rfl, ht, hsign⟩ := derives_head h
    exact ⟨t, us, rfl, ht, fun hn => hsign (by omega)⟩
  | .compare _ h _ =>
    obtain ⟨t, us, rfl, ht, -⟩ := derives_head h
    exact ⟨t, us, rfl, ht, by omega⟩
  | .chain hn h _ =>
    obtain ⟨t, us, rfl, ht, -⟩ := derives_head h
    exact ⟨t, us, rfl, ht, by omega⟩
  | .calls h _ =>
    obtain ⟨t, us, rfl, ht, hsign⟩ := derives_head h
    exact ⟨t, us, rfl, ht, fun _ => hsign (by decide)⟩
  | .not _ => exact ⟨_, _, rfl, by simp, by decide⟩
  | .negateLong _ _ => exact ⟨_, _, rfl, by simp, by decide⟩
  | .negateDouble _ => exact ⟨_, _, rfl, by simp, by decide⟩
  | .negate _ _ => exact ⟨_, _, rfl, by simp, by decide⟩
  | .constant h =>
    refine ⟨_, _, rfl, ?_⟩
    cases h <;> simp
  | .group _ => exact ⟨_, _, rfl, by simp, by simp⟩
  | .function _ _ => exact ⟨_, _, rfl, by simp, by simp⟩
  | .connective _ _ => exact ⟨_, _, rfl, by simp, by simp⟩
  | .field _ => exact ⟨_, _, rfl, by simp, by simp⟩

theorem Follows.terms {n : Nat} {l e : Expr} {ts rest : List Token} (hf : Follows n rest)
    (h : Terms n l e ts rest) : Follows (n + 1) ts := by
  cases h with
  | nil => exact hf.mono (Nat.le_succ n)
  | cons hop _ _ => exact .cons (by rw [level_of_mem_chains hop]; exact Nat.lt_succ_self n)

theorem Follows.operands {n : Nat} {mark : Token} {k : Connective} {es : List Expr}
    {ts rest : List Token} (hf : Follows n rest) (hk : (n, mark, k) ∈ connectives)
    (h : Operands n mark es ts rest) : Follows (n + 1) ts := by
  cases h with
  | nil => exact hf.mono (Nat.le_succ n)
  | cons _ _ => exact .cons (by rw [level_of_mem_connectives hk]; exact Nat.lt_succ_self n)

theorem Follows.calls {e r : Expr} {ts rest : List Token} (hf : Follows 7 rest)
    (h : Calls e r ts rest) : Follows 8 ts := by
  cases h with
  | nil => exact hf.mono (by decide)
  | cons _ _ => exact .cons (by decide)

/-- The parser of a whole expression reads what is derived from at most `m` tokens. -/
def Complete (expr : Phrase Expr) (m : Nat) : Prop :=
  ∀ {e : Expr} {ts rest : List Token}, Derives 1 e ts rest → ts.length ≤ m → Follows 1 rest →
    Reads expr e ts rest

theorem follows_mark {t : Token} {ts : List Token} (ht : level t = 0) : Follows 1 (t :: ts) :=
  .cons (by omega)

theorem phraseAt_connective {n : Nat} {mark : Token} {k : Connective}
    (hk : (n, mark, k) ∈ connectives) :
    phraseAt expr n = connected k mark (phraseAt expr (n + 1)) := by
  simp only [connectives, List.mem_cons, Prod.mk.injEq, List.not_mem_nil, or_false] at hk
  rcases hk with ⟨rfl, rfl, rfl⟩ | ⟨rfl, rfl, rfl⟩ <;> rfl

/-! ### Phrases by their first tokens -/

theorem signed_reads {t : Token} {f : Expr → Expr} {e : Expr} {ts rest : List Token}
    (hf : t = .bang ∧ f = Expr.not ∨ t = .minus ∧ f = negated) (hts : ts ≠ [])
    (h : Reads (phraseAt expr 6) e ts rest) : Reads (phraseAt expr 6) (f e) (t :: ts) rest := by
  intro L hL
  have h1 := marks_advance hL hts
  obtain ⟨R, hR, hr⟩ := h _ h1
  have hlen : L.length = (advance L).length + 1 := by
    rw [← length_marks, ← length_marks, hL, h1, List.length_cons]
  refine ⟨R, hR, ?_⟩
  change signed expr L.length L = .ok (f e, R)
  rw [hlen, signed, current_of_marks hL]
  rcases hf with ⟨rfl, rfl⟩ | ⟨rfl, rfl⟩
  · exact bind_eq_ok.2 ⟨_, hr, rfl⟩
  · exact bind_eq_ok.2 ⟨_, hr, rfl⟩

theorem negated_of_not_number {e : Expr} (h : isNumber e = false) :
    negated e = .unary .negate e := by
  rcases negated_cases e with ⟨n, rfl⟩ | ⟨x, rfl⟩ | ⟨-, heq⟩
  · cases h
  · cases h
  · exact heq

theorem arguments_of_rest {es : List Expr} {ts rest : List Token} (hts : ts ≠ [])
    (h : Reads (argumentsRest expr ts.length) es ts rest) :
    Reads (arguments expr) es (.openParen :: ts) rest := by
  intro L hL
  have h1 := marks_advance hL hts
  obtain ⟨R, hR, hr⟩ := h _ h1
  rw [← h1, length_marks] at hr
  exact ⟨R, hR, bind_eq_ok.2 ⟨_, expect_of_marks hL, hr⟩⟩

/-- A name before a parenthesis is a function, any other a field. -/
theorem primary_identifier {L : Tokens} {x : String} {ts : List Token}
    (hL : marks L = .identifier x :: ts) :
    primary expr L = if current (advance L) = .openParen then function expr x (advance L)
      else fieldSteps (advance L).length x (advance L) := by
  rw [primary, current_of_marks hL]
  rfl

theorem primary_reads_call {x : String} {e : Expr} {ts rest : List Token}
    (h : Reads (function expr x) e (.openParen :: ts) rest) :
    Reads (primary expr) e (.identifier x :: .openParen :: ts) rest := by
  intro L hL
  have h1 := marks_advance hL (by simp)
  rw [primary_identifier hL, if_pos (current_of_marks h1)]
  exact h _ h1

theorem lambdaRest_reads {x : String} {b : Expr} {ts rest : List Token} (hts : ts ≠ [])
    (hrest : rest ≠ []) (h : Reads expr b ts (.closeParen :: rest)) :
    Reads (lambdaRest expr) (x, b) (.identifier x :: .arrow :: ts) rest := by
  intro L hL
  have h1 := marks_advance hL (by simp)
  have h2 := marks_advance h1 hts
  obtain ⟨L3, h3, hb⟩ := h _ h2
  refine ⟨_, marks_advance h3 hrest, bind_eq_ok.2 ⟨_, identifier_of_marks hL, ?_⟩⟩
  exact bind_eq_ok.2 ⟨_, expect_of_marks h1, bind_eq_ok.2 ⟨_, hb,
    bind_eq_ok.2 ⟨_, expect_of_marks h3, rfl⟩⟩⟩

/-- What is called on a field and is no test goes to `elementCall`. -/
theorem method_of_elementCall {e r : Expr} {x : String} {ts rest : List Token}
    (hx : methodOp? x = none ∧ x ≠ "Length") (hts : ts ≠ [])
    (h : Reads (elementCall expr e x) r ts rest) :
    Reads (method expr e) r (.identifier x :: ts) rest := by
  intro L hL
  obtain ⟨R, hR, hr⟩ := h _ (marks_advance hL hts)
  refine ⟨R, hR, bind_eq_ok.2 ⟨_, identifier_of_marks hL, ?_⟩⟩
  dsimp only
  rw [hx.1]
  dsimp only
  rw [if_neg hx.2, hr]

theorem elementCall_reads_count {e : Expr} {rest : List Token} (he : e.isField = true)
    (hrest : rest ≠ []) :
    Reads (elementCall expr e "Count") (.count e) (.openParen :: .closeParen :: rest) rest := by
  intro L hL
  have h1 := marks_advance hL (by simp)
  refine ⟨_, marks_advance h1 hrest, ?_⟩
  rw [elementCall, he, Bool.not_true, if_neg Bool.false_ne_true]
  refine bind_eq_ok.2 ⟨_, expect_of_marks hL, ?_⟩
  rw [if_pos ⟨rfl, current_of_marks h1⟩]
  rfl

/-- A call with a lambda is a quantifier or an aggregate by its name. -/
theorem elementCall_reads {e r b : Expr} {x name : String} {ts rest : List Token}
    (he : e.isField = true) (h : Reads (lambdaRest expr) (x, b) (.identifier x :: ts) rest)
    (hname : (∃ q, quantifierOf? name = some q ∧ r = .quantifier q e x b) ∨
      ∃ op, quantifierOf? name = none ∧ aggregateOf? name = some op ∧ r = .aggregate op e x b) :
    Reads (elementCall expr e name) r (.openParen :: .identifier x :: ts) rest := by
  intro L hL
  have h1 := marks_advance hL (by simp)
  obtain ⟨R, hR, hr⟩ := h _ h1
  refine ⟨R, hR, ?_⟩
  have hno : ¬(name = "Count" ∧ current (advance L) = .closeParen) := by
    rw [current_of_marks h1]
    simp
  rw [elementCall, he, Bool.not_true, if_neg Bool.false_ne_true]
  refine bind_eq_ok.2 ⟨_, expect_of_marks hL, ?_⟩
  rw [if_neg hno]
  rcases hname with ⟨q, hq, rfl⟩ | ⟨op, hq, hop, rfl⟩
  · rw [hq]
    exact bind_eq_ok.2 ⟨_, hr, rfl⟩
  · rw [hq, hop]
    exact bind_eq_ok.2 ⟨_, hr, rfl⟩

mutual

theorem derives_reads {m n : Nat} {e : Expr} {ts rest : List Token} (hexpr : Complete expr m)
    (h : Derives n e ts rest) (hm : ts.length ≤ m + 1) (hf : Follows n rest) :
    Reads (phraseAt expr n) e ts rest := by
  match h with
  | .single hn h =>
    refine reads_single hn (derives_reads hexpr h hm (hf.mono (Nat.le_succ n))) hf ?_
    rintro rfl
    obtain ⟨t, us, rfl, -, hsign⟩ := derives_head h
    obtain ⟨hbang, hminus⟩ := hsign (Nat.le_refl 7)
    simp [hbang, hminus]
  | .connect (k := k) hk h hs hne =>
    have hlt := h.shorter.length_lt
    have hoperand := derives_reads hexpr h hm (hf.operands hk hs)
    have hrest := operands_reads hexpr hk hs (by omega) hf (Nat.le_refl _)
    rw [phraseAt_connective hk]
    intro L hL
    have hphrase := connected_reads (k := k) hoperand hrest L hL
    rwa [if_neg hne] at hphrase
  | .compare hop hl hr =>
    have hlt := hl.shorter.length_lt
    obtain ⟨hsome, hlevel⟩ := comparisonOp?_of_mem hop
    have hleft := derives_reads hexpr hl hm (.cons (by omega))
    have hright := derives_reads hexpr hr (by simp only [List.length_cons] at hlt; omega)
      (hf.mono (by decide))
    intro L hL
    obtain ⟨L1, h1, hp⟩ := hleft L hL
    obtain ⟨R, hR, hr'⟩ := hright _ (marks_advance h1 hr.shorter.ne_nil)
    refine ⟨R, hR, bind_eq_ok.2 ⟨_, hp, ?_⟩⟩
    dsimp only
    rw [current_of_marks h1, hsome]
    exact bind_eq_ok.2 ⟨_, hr', rfl⟩
  | .chain hn h hs =>
    have hlt := h.shorter.length_lt
    have hoperand := derives_reads hexpr h hm (hf.terms hs)
    have hrest := terms_reads hexpr hn hs (by omega) hf (Nat.le_refl _)
    rcases hn with rfl | rfl
    · exact chain_reads hoperand hrest
    · exact chain_reads hoperand hrest
  | .not h =>
    have hoperand := derives_reads hexpr h (Nat.le_of_succ_le hm) hf
    exact signed_reads (.inl ⟨rfl, rfl⟩) h.shorter.ne_nil hoperand
  | .negateLong h hv =>
    have hoperand := derives_reads hexpr h (Nat.le_of_succ_le hm) hf
    rw [← neg_eq_of_toInt hv]
    exact signed_reads (.inr ⟨rfl, rfl⟩) h.shorter.ne_nil hoperand
  | .negateDouble h =>
    have hoperand := derives_reads hexpr h (Nat.le_of_succ_le hm) hf
    exact signed_reads (.inr ⟨rfl, rfl⟩) h.shorter.ne_nil hoperand
  | .negate h he =>
    have hoperand := derives_reads hexpr h (Nat.le_of_succ_le hm) hf
    rw [← negated_of_not_number he]
    exact signed_reads (.inr ⟨rfl, rfl⟩) h.shorter.ne_nil hoperand
  | .calls h hs =>
    have hlt := h.shorter.length_lt
    have hprimary := derives_reads hexpr h hm (hf.calls hs)
    exact postfixed_reads hprimary (calls_reads hexpr hs (by omega) hf (Nat.le_refl _))
  | .constant h =>
    intro L hL
    refine ⟨_, marks_advance hL hf.ne_nil, ?_⟩
    change primary expr L = _
    rw [primary, current_of_marks hL, literal?_of_constant h]
  | .group h =>
    have hinner := hexpr h (Nat.le_of_succ_le_succ hm) (follows_mark rfl)
    intro L hL
    obtain ⟨L1, h1, hp⟩ := hinner _ (marks_advance hL h.shorter.ne_nil)
    refine ⟨_, marks_advance h1 hf.ne_nil, ?_⟩
    change primary expr L = _
    rw [primary, current_of_marks hL]
    exact bind_eq_ok.2 ⟨_, hp, bind_eq_ok.2 ⟨_, expect_of_marks h1, rfl⟩⟩
  | .function hop h =>
    simp only [List.length_cons] at hm
    have hargs := arguments_of_rest h.shorter.ne_nil
      (arguments_reads hexpr h (by omega) hf.ne_nil (Nat.le_refl _))
    refine primary_reads_call fun L hL => ?_
    obtain ⟨R, hR, hr⟩ := hargs L hL
    refine ⟨R, hR, bind_eq_ok.2 ⟨_, hr, ?_⟩⟩
    dsimp only
    rw [functionOp?_of_mem _ hop]
    rfl
  | .connective (k := k) h hne =>
    simp only [List.length_cons] at hm
    have hargs := arguments_of_rest h.shorter.ne_nil
      (arguments_reads hexpr h (by omega) hf.ne_nil (Nat.le_refl _))
    refine primary_reads_call fun L hL => ?_
    obtain ⟨R, hR, hr⟩ := hargs L hL
    refine ⟨R, hR, bind_eq_ok.2 ⟨_, hr, ?_⟩⟩
    obtain ⟨e, es, rfl⟩ := List.exists_cons_of_ne_nil hne
    dsimp only
    rw [functionOp?_connective, connectiveOf?_name]
    rfl
  | .field (x := x) h =>
    intro L hL
    obtain ⟨t, us, rfl, ht⟩ := steps_head h hf
    have h1 := marks_advance hL (List.cons_ne_nil t us)
    obtain ⟨R, hR, hr⟩ := fieldSteps_reads h hf x (Nat.le_refl _) _ h1
    rw [← h1, length_marks] at hr
    refine ⟨R, hR, ?_⟩
    change primary expr L = _
    rw [primary_identifier hL, current_of_marks h1, if_neg ht, hr]

theorem operands_reads {m n fuel : Nat} {mark : Token} {k : Connective} {es : List Expr}
    {ts rest : List Token} (hexpr : Complete expr m) (hk : (n, mark, k) ∈ connectives)
    (h : Operands n mark es ts rest) (hm : ts.length ≤ m + 1) (hf : Follows n rest)
    (hfuel : ts.length ≤ fuel) :
    Reads (operandsRest mark (phraseAt expr (n + 1)) fuel) es ts rest := by
  match h with
  | .nil => exact operandsRest_stop (level_of_mem_connectives hk) hf
  | .cons h hs =>
    have hlt := h.shorter.length_lt
    simp only [List.length_cons] at hm hfuel
    obtain ⟨fuel, rfl⟩ : ∃ k, fuel = k + 1 := ⟨fuel - 1, by omega⟩
    have hoperand := derives_reads hexpr h (by omega) (hf.operands hk hs)
    have hfuel' := Nat.le_of_lt (Nat.lt_of_lt_of_le hlt (Nat.le_of_succ_le_succ hfuel))
    have hrest := operands_reads hexpr hk hs (by omega) hf hfuel'
    intro L hL
    obtain ⟨L1, h1, hp⟩ := hoperand _ (marks_advance hL h.shorter.ne_nil)
    obtain ⟨R, hR, hr⟩ := hrest _ h1
    refine ⟨R, hR, ?_⟩
    rw [operandsRest, if_pos (current_of_marks hL)]
    exact bind_eq_ok.2 ⟨_, hp, bind_eq_ok.2 ⟨_, hr, rfl⟩⟩

theorem terms_reads {m n fuel : Nat} {l e : Expr} {ts rest : List Token}
    (hexpr : Complete expr m) (hn : n = 4 ∨ n = 5) (h : Terms n l e ts rest)
    (hm : ts.length ≤ m + 1) (hf : Follows n rest) (hfuel : ts.length ≤ fuel) :
    Reads (chainRest (chainOp? n) (phraseAt expr (n + 1)) fuel l) e ts rest := by
  match h with
  | .nil => exact chainRest_stop (chainOp?_of_level hn) hf
  | .cons hop h hs =>
    have hlt := h.shorter.length_lt
    simp only [List.length_cons] at hm hfuel
    obtain ⟨fuel, rfl⟩ : ∃ k, fuel = k + 1 := ⟨fuel - 1, by omega⟩
    have hoperand := derives_reads hexpr h (by omega) (hf.terms hs)
    have hfuel' := Nat.le_of_lt (Nat.lt_of_lt_of_le hlt (Nat.le_of_succ_le_succ hfuel))
    have hrest := terms_reads hexpr hn hs (by omega) hf hfuel'
    intro L hL
    obtain ⟨L1, h1, hp⟩ := hoperand _ (marks_advance hL h.shorter.ne_nil)
    obtain ⟨R, hR, hr⟩ := hrest _ h1
    refine ⟨R, hR, ?_⟩
    rw [chainRest, current_of_marks hL, chainOp?_of_mem hop]
    exact bind_eq_ok.2 ⟨_, hp, hr⟩

theorem calls_reads {m fuel : Nat} {e r : Expr} {ts rest : List Token}
    (hexpr : Complete expr m) (h : Calls e r ts rest) (hm : ts.length ≤ m + 1) (hf : Follows 7 rest)
    (hfuel : ts.length ≤ fuel) : Reads (methods expr fuel e) r ts rest := by
  match h with
  | .nil => exact methods_stop hf
  | .cons h hs =>
    have hlt := h.shorter.length_lt
    simp only [List.length_cons] at hm hfuel
    obtain ⟨fuel, rfl⟩ : ∃ k, fuel = k + 1 := ⟨fuel - 1, by omega⟩
    have hmethod := method_reads hexpr h (by omega) (hf.calls hs).ne_nil
    have hfuel' := Nat.le_of_lt (Nat.lt_of_lt_of_le hlt (Nat.le_of_succ_le_succ hfuel))
    have hrest := calls_reads hexpr hs (by omega) hf hfuel'
    intro L hL
    obtain ⟨L1, h1, hp⟩ := hmethod _ (marks_advance hL h.shorter.ne_nil)
    obtain ⟨R, hR, hr⟩ := hrest _ h1
    refine ⟨R, hR, ?_⟩
    rw [methods, if_pos (current_of_marks hL)]
    exact bind_eq_ok.2 ⟨_, hp, hr⟩

theorem method_reads {m : Nat} {e r : Expr} {ts rest : List Token} (hexpr : Complete expr m)
    (h : Method e r ts rest) (hm : ts.length ≤ m + 1) (hrest : rest ≠ []) :
    Reads (method expr e) r ts rest := by
  match h with
  | .test hop h =>
    simp only [List.length_cons] at hm
    have hargs := arguments_of_rest h.shorter.ne_nil
      (arguments_reads hexpr h (by omega) hrest (Nat.le_refl _))
    intro L hL
    obtain ⟨R, hR, hr⟩ := hargs _ (marks_advance hL (by simp))
    refine ⟨R, hR, bind_eq_ok.2 ⟨_, identifier_of_marks hL, ?_⟩⟩
    dsimp only
    rw [methodOp?_symbol hop]
    exact bind_eq_ok.2 ⟨_, hr, rfl⟩
  | .length =>
    intro L hL
    have h1 := marks_advance hL (by simp)
    have h2 := marks_advance h1 (by simp)
    refine ⟨_, marks_advance h2 hrest, bind_eq_ok.2 ⟨_, identifier_of_marks hL, ?_⟩⟩
    exact bind_eq_ok.2 ⟨_, expect_of_marks h1, bind_eq_ok.2 ⟨_, expect_of_marks h2, rfl⟩⟩
  | .count he =>
    exact method_of_elementCall (by decide) (by simp) (elementCall_reads_count he hrest)
  | .quantifier (x := x) q he h =>
    obtain ⟨hmethod, hlength, hq⟩ := methodOp?_quantifier q
    simp only [List.length_cons] at hm
    have hlambda := lambdaRest_reads (x := x) h.shorter.ne_nil hrest
      (hexpr h (by omega) (follows_mark rfl))
    exact method_of_elementCall ⟨hmethod, hlength⟩ (by simp)
      (elementCall_reads he hlambda (.inl ⟨q, hq, rfl⟩))
  | .aggregate (x := x) op he h =>
    obtain ⟨hmethod, hlength, -, hq, hop⟩ := methodOp?_aggregate op
    simp only [List.length_cons] at hm
    have hlambda := lambdaRest_reads (x := x) h.shorter.ne_nil hrest
      (hexpr h (by omega) (follows_mark rfl))
    exact method_of_elementCall ⟨hmethod, hlength⟩ (by simp)
      (elementCall_reads he hlambda (.inr ⟨op, hq, hop, rfl⟩))

theorem arguments_reads {m fuel : Nat} {es : List Expr} {ts rest : List Token}
    (hexpr : Complete expr m) (h : Arguments es ts rest) (hm : ts.length ≤ m) (hrest : rest ≠ [])
    (hfuel : ts.length ≤ fuel) : Reads (argumentsRest expr fuel) es ts rest := by
  have hlt := h.shorter.length_lt
  obtain ⟨fuel, rfl⟩ : ∃ k, fuel = k + 1 := ⟨fuel - 1, by omega⟩
  match h with
  | .nil =>
    intro L hL
    refine ⟨_, marks_advance hL hrest, ?_⟩
    rw [argumentsRest, if_pos (current_of_marks hL)]
  | .last h =>
    obtain ⟨t, us, rfl, ht, -⟩ := derives_head h
    have hexpr := hexpr h hm (follows_mark rfl)
    intro L hL
    obtain ⟨L1, h1, hp⟩ := hexpr L hL
    refine ⟨_, marks_advance h1 hrest, ?_⟩
    rw [argumentsRest, current_of_marks hL, if_neg ht]
    refine bind_eq_ok.2 ⟨_, hp, ?_⟩
    dsimp only
    rw [if_pos (current_of_marks h1)]
  | .cons h hs =>
    have hlt' := h.shorter.length_lt
    simp only [List.length_cons] at hlt'
    have hfuel' := Nat.le_of_lt_succ (Nat.lt_of_lt_of_le (Nat.lt_of_succ_lt hlt') hfuel)
    have hrest' := arguments_reads hexpr hs (by omega) hrest hfuel'
    obtain ⟨t, us, rfl, ht, -⟩ := derives_head h
    have hexpr := hexpr h hm (follows_mark rfl)
    intro L hL
    obtain ⟨L1, h1, hp⟩ := hexpr L hL
    obtain ⟨R, hR, hr⟩ := hrest' _ (marks_advance h1 hs.shorter.ne_nil)
    refine ⟨R, hR, ?_⟩
    rw [argumentsRest, current_of_marks hL, if_neg ht]
    refine bind_eq_ok.2 ⟨_, hp, ?_⟩
    dsimp only
    rw [if_neg (by rw [current_of_marks h1]; simp)]
    exact bind_eq_ok.2 ⟨_, expect_of_marks h1, bind_eq_ok.2 ⟨_, hr, rfl⟩⟩

end

theorem expression_complete (depth : Nat) : Complete (expression depth) depth := by
  induction depth with
  | zero =>
    intro e ts rest h hlen _
    have hlt := h.shorter.length_lt
    omega
  | succ depth ih =>
    intro e ts rest h hlen hf
    exact derives_reads ih h hlen hf

theorem whole_reads {L : Tokens} {e : Expr} (h : Derives 1 e (marks L) [.eof]) :
    whole L = .ok e := by
  have hlen : (marks L).length ≤ L.length := Nat.le_of_eq (length_marks L)
  obtain ⟨R, hR, hr⟩ := expression_complete L.length h hlen (follows_mark rfl) L rfl
  exact bind_eq_ok.2 ⟨_, hr, bind_eq_ok.2 ⟨_, expect_of_marks hR, rfl⟩⟩

/-- The parser accepts what the grammar derives, and nothing else, and finds the one tree of it. -/
theorem whole_eq_ok_iff {L : Tokens} (h : Ended (marks L)) :
    (∀ e, whole L = .ok e ↔ Derives 1 e (marks L) [.eof]) ∧
      ∀ e e', Derives 1 e (marks L) [.eof] → Derives 1 e' (marks L) [.eof] → e = e' := by
  refine ⟨fun e => ⟨whole_sound h, whole_reads⟩, fun e e' he he' => ?_⟩
  have heq := (whole_reads he).symm.trans (whole_reads he')
  exact Except.ok.inj heq

/-- A product under a sum, and a call with a comma after its argument. -/
theorem whole_eq_ok_iff_sum :
    let ts : List Token := [.identifier "a", .dot, .identifier "b", .plus, .minus, .integer 2,
      .star, .identifier "Abs", .openParen, .float 0.5, .comma, .closeParen, .eof]
    let e : Expr := .binary .add (.field "a.b" none) (.binary .multiply (.literal (.long (-2)))
      (.unary .abs (.literal (.double 0.5))))
    Ended ts ∧ whole (ts.map (⟨·, 0⟩)) = .ok e ∧ Derives 1 e ts [.eof] ∧
      ∀ e', Derives 1 e' ts [.eof] → e' = e := by
  intro ts e
  have hend : Ended (marks (ts.map (⟨·, 0⟩))) := by
    repeat' first | exact .eof | apply Ended.cons
    all_goals simp
  obtain ⟨hiff, hunique⟩ := whole_eq_ok_iff hend
  have hwhole : whole (ts.map (⟨·, 0⟩)) = .ok e := by rfl
  have h := (hiff e).1 hwhole
  exact ⟨hend, hwhole, h, fun e' he => hunique e' e he h⟩

end Parser

end Quarry.Expr
