import Quarry.Proofs.Sql.Grammar

/-!
How the terms that conditions are written from are read. A negation has no parentheses around it:
where one stands before an operator, it takes the operator and what is behind it as a part of its
operand.
-/

namespace Quarry.Sql.Term

/-- An operator behind a negation goes into its operand, unless it binds looser. -/
def attach (op : Operator) (l r : Term) : Term :=
  match l with
  | .not a => if op.level ≤ 3 then .infixed op (.not a) r else .not (.infixed op a r)
  | l => .infixed op l r

def attachTest (isNull : Bool) : Term → Term
  | .not a => .not (.nullTest isNull a)
  | a => .nullTest isNull a

/-- The term as it is read; also, a number that is not finite is read as a name. -/
def regrouped : Term → Term
  | .place base => .place base
  | .number text => if lex text = some [.number text] then .number text else .place text
  | .string value => .string value
  | .constant name => .constant name
  | .star => .star
  | .blank => .blank
  | .call f a => .call f a.regrouped
  | .both a b => .both a.regrouped b.regrouped
  | .group a => .group a.regrouped
  | .minus a => .minus a.regrouped
  | .not a => .not a.regrouped
  | .infixed op l r => attach op l.regrouped r.regrouped
  | .nullTest isNull a => attachTest isNull a.regrouped
  | .select v s r => .select v.regrouped s.regrouped r
  | .selectWhere v s r p => .selectWhere v.regrouped s.regrouped r p.regrouped

theorem tokens_attach (op : Operator) (l r : Term) :
    (attach op l r).tokens = l.tokens ++ op.token :: r.tokens := by
  unfold attach
  split
  · split <;> rfl
  · rfl

theorem tokens_attachTest (isNull : Bool) (a : Term) :
    (attachTest isNull a).tokens = (nullTest isNull a).tokens := by
  unfold attachTest
  split <;> rfl

theorem tokens_regrouped (m : Term) : m.regrouped.tokens = m.tokens := by
  induction m with
  | number text =>
    rw [regrouped]
    split <;> rfl
  | infixed op l r ihl ihr => rw [regrouped, tokens_attach, ihl, ihr, tokens]
  | nullTest isNull a ih => rw [regrouped, tokens_attachTest, tokens, tokens, ih]
  | _ => simp only [regrouped, tokens, *]

/-! ### Fragments -/

/-- Nothing beside the term can take a part of it. -/
def isClosed : Term → Bool
  | .place _ => true
  | .number _ => true
  | .string _ => true
  | .constant _ => true
  | .call _ _ => true
  | .group _ => true
  | _ => false

def isNot : Term → Bool
  | .not _ => true
  | _ => false

/-- What an expression is written as: closed, a minus before it, or a negation of it. -/
inductive Fragment : Term → Prop
  | closed {m : Term} (h : m.isClosed = true) : Fragment m
  | minus {m : Term} (h : m.isClosed = true) : Fragment (.minus m)
  | not {m : Term} (h : m.isClosed = true) : Fragment (.not m)

theorem isClosed_regrouped {m : Term} (h : m.isClosed = true) : m.regrouped.isClosed = true := by
  cases m with
  | number text =>
    rw [regrouped]
    split <;> rfl
  | place base => rfl
  | string value => rfl
  | constant name => rfl
  | call f a => rfl
  | group a => rfl
  | _ => cases h

theorem isNot_of_isClosed {m : Term} (h : m.isClosed = true) : m.isNot = false := by
  cases m with
  | not a => cases h
  | _ => rfl

theorem isNot_regrouped {m : Term} (h : Fragment m) : m.regrouped.isNot = m.isNot := by
  cases h with
  | closed h => rw [isNot_of_isClosed h, isNot_of_isClosed (isClosed_regrouped h)]
  | minus h => rfl
  | not h => rfl

theorem Fragment.regrouped {m : Term} (h : Fragment m) : Fragment m.regrouped := by
  cases h with
  | closed h => exact .closed (isClosed_regrouped h)
  | minus h => exact .minus (isClosed_regrouped h)
  | not h => exact .not (isClosed_regrouped h)

theorem levels_of_isClosed {m : Term} (h : m.isClosed = true) :
    m.leftLevel = 9 ∧ m.rightLevel = 9 := by
  cases m with
  | place base => exact ⟨rfl, rfl⟩
  | number text => exact ⟨rfl, rfl⟩
  | string value => exact ⟨rfl, rfl⟩
  | constant name => exact ⟨rfl, rfl⟩
  | call f a => exact ⟨rfl, rfl⟩
  | group a => exact ⟨rfl, rfl⟩
  | _ => cases h

theorem Fragment.leftLevel {m : Term} (h : Fragment m) : m.leftLevel = 9 := by
  cases h with
  | closed h => exact (levels_of_isClosed h).1
  | minus h => rfl
  | not h => rfl

theorem Fragment.leftLevel_pos {m : Term} (h : Fragment m) : 0 < m.leftLevel := by
  rw [h.leftLevel]
  exact Nat.succ_pos 8

/-- All operators bind looser than a minus sign. -/
theorem level_lt (op : Operator) : 0 < op.level ∧ op.level < 8 := by
  cases op <;> decide

theorem Fragment.rightLevel {m : Term} (h : Fragment m) :
    3 ≤ m.rightLevel ∧ (m.isNot = false → 8 ≤ m.rightLevel) := by
  cases h with
  | closed h =>
    rw [(levels_of_isClosed h).2]
    omega
  | @minus a h =>
    have hright : (Term.minus a).rightLevel = min 8 9 := congrArg (min 8) (levels_of_isClosed h).2
    omega
  | @not a h =>
    have hright : (Term.not a).rightLevel = min 3 9 := congrArg (min 3) (levels_of_isClosed h).2
    refine ⟨by omega, ?_⟩
    rintro ⟨⟩

theorem isArguments_of_leftLevel {m : Term} (h : 0 < m.leftLevel) : m.isArguments = true := by
  cases m with
  | both a b => rfl
  | _ => exact decide_eq_true h

theorem Fragment.isArguments {m : Term} (h : Fragment m) : m.isArguments = true :=
  isArguments_of_leftLevel h.leftLevel_pos

theorem attach_of_isNot {op : Operator} {l r : Term} (h : l.isNot = false) :
    attach op l r = .infixed op l r := by
  cases l with
  | not a => cases h
  | _ => rfl

/-- The operator goes into the operand of a negation, which is closed. -/
theorem settled_attach {op : Operator} {l r : Term} (hop : 3 < op.level) (hl : Fragment l)
    (hls : l.Settled) (hr : Fragment r) (hrs : r.Settled) :
    (attach op l r).Settled ∧ 0 < (attach op l r).leftLevel := by
  have hlt := level_lt op
  have hright : op.level < r.leftLevel := by
    rw [hr.leftLevel]
    omega
  -- Only the right edge of a negation is too loose for the operator.
  by_cases hnot : l.isNot = true
  · cases hl with
    | closed h =>
      rw [isNot_of_isClosed h] at hnot
      cases hnot
    | minus h => cases hnot
    | @not a h =>
      obtain ⟨hleft, hedge⟩ := levels_of_isClosed h
      rw [attach, if_neg (by omega)]
      refine ⟨⟨⟨hls.1, by omega, hrs, hright⟩, ?_⟩, Nat.succ_pos 8⟩
      rw [leftLevel, hleft]
      omega
  · rw [Bool.not_eq_true] at hnot
    have hedge := hl.rightLevel.2 hnot
    rw [attach_of_isNot hnot]
    refine ⟨⟨hls, by omega, hrs, hright⟩, ?_⟩
    rw [leftLevel, hl.leftLevel]
    omega

theorem settled_infixed {op : Operator} {l r : Term} (hop : 3 < op.level)
    (hl : l.isClosed = true) (hls : l.Settled) (hr : Fragment r) (hrs : r.Settled) :
    (infixed op l r).Settled ∧ 0 < (infixed op l r).leftLevel := by
  have h := settled_attach hop (.closed hl) hls hr hrs
  rwa [attach_of_isNot (isNot_of_isClosed hl)] at h

theorem settled_attachTest (isNull : Bool) {l : Term} (hl : Fragment l) (hls : l.Settled) :
    (attachTest isNull l).Settled ∧ 0 < (attachTest isNull l).leftLevel := by
  cases hl with
  | closed h =>
    obtain ⟨hleft, hedge⟩ := levels_of_isClosed h
    have htest : attachTest isNull l = .nullTest isNull l := by
      cases l with
      | not a => cases h
      | _ => rfl
    rw [htest]
    refine ⟨⟨hls, by omega⟩, ?_⟩
    rw [leftLevel, hleft]
    omega
  | @minus a h =>
    obtain ⟨hleft, hedge⟩ := levels_of_isClosed h
    refine ⟨⟨hls, ?_⟩, Nat.succ_pos 3⟩
    rw [rightLevel, hedge]
    decide
  | @not a h =>
    obtain ⟨hleft, hedge⟩ := levels_of_isClosed h
    refine ⟨⟨⟨hls.1, by omega⟩, ?_⟩, Nat.succ_pos 8⟩
    rw [leftLevel, hleft]
    decide

/-- Connectives bind looser than negations, so operands of one stay apart. -/
theorem attach_connector (k : Connective) (l r : Term) :
    attach (connector k) l r = .infixed (connector k) l r := by
  cases l with
  | not a => cases k <;> rfl
  | _ => rfl

theorem regrouped_foldl (k : Connective) (m : Term) (ms : List Term) :
    (ms.foldl (.infixed (connector k)) m).regrouped =
      (ms.map regrouped).foldl (.infixed (connector k)) m.regrouped := by
  induction ms generalizing m with
  | nil => rfl
  | cons n ms ih =>
    rw [List.foldl_cons, ih, List.map_cons, List.foldl_cons, regrouped, attach_connector]

theorem foldl_infixed_inj {op : Operator} {m n : Term} {ms ns : List Term}
    (hlength : ms.length = ns.length) :
    ms.foldl (.infixed op) m = ns.foldl (.infixed op) n ↔ m = n ∧ ms = ns := by
  induction ms generalizing m n ns with
  | nil =>
    obtain rfl := List.length_eq_zero_iff.1 hlength.symm
    simp
  | cons a ms ih =>
    cases ns with
    | nil => cases hlength
    | cons b ns =>
      rw [List.foldl_cons, List.foldl_cons, ih (Nat.succ.inj hlength), infixed.injEq,
        List.cons.injEq]
      simp [and_assoc]

theorem settled_foldl (k : Connective) {m : Term} {ms : List Term} (hm : m.Settled)
    (hleft : 0 < m.leftLevel) (hright : (connector k).level ≤ m.rightLevel)
    (hms : ∀ n ∈ ms, Fragment n ∧ n.Settled) :
    (ms.foldl (.infixed (connector k)) m).Settled ∧
      0 < (ms.foldl (.infixed (connector k)) m).leftLevel := by
  have hop : 0 < (connector k).level ∧ (connector k).level < 3 := by
    cases k <;> decide
  induction ms generalizing m with
  | nil => exact ⟨hm, hleft⟩
  | cons n ms ih =>
    obtain ⟨⟨hn, hns⟩, hms⟩ := List.forall_mem_cons.1 hms
    have hedge := hn.rightLevel.1
    have hlevel : (connector k).level < n.leftLevel := by
      rw [hn.leftLevel]
      omega
    refine ih (m := .infixed (connector k) m n) ⟨hm, hright, hns, hlevel⟩ ?_ ?_ hms
    · rw [leftLevel]
      omega
    · rw [rightLevel]
      omega

/-! ### Terms that are put together -/

theorem ne_exists_of_isName {w : String} (h : IsName w) : w ≠ "EXISTS" := by
  rintro rfl
  exact absurd h.2 (by decide)

theorem settled_call {f : String} {a : Term} (hf : IsName f) (ha : a.Settled)
    (hargs : a.isArguments = true) : (call f a).Settled := by
  refine ⟨ha, ?_⟩
  rw [if_neg (ne_exists_of_isName hf)]
  exact ⟨hf, .inr hargs⟩

theorem settled_callOn {f base : String} (hf : IsName f) (hbase : IsName base)
    (steps : List Segment) : (callOn f base steps).Settled := by
  rw [callOn]
  split
  · exact settled_call hf hbase rfl
  · exact settled_call hf ⟨hbase, Nat.succ_pos 8, trivial, rfl⟩ rfl

theorem regrouped_callOn (f base : String) (steps : List Segment) :
    (callOn f base steps).regrouped = callOn f base steps := by
  rw [callOn]
  split <;> rfl

theorem isClosed_callOn (f base : String) (steps : List Segment) :
    (callOn f base steps).isClosed = true := by
  rw [callOn]
  split <;> rfl

theorem isCall_callOn (f base : String) (steps : List Segment) :
    (callOn f base steps).isCall = true := by
  rw [callOn]
  split <;> rfl

theorem fragment_signed (isNegative : Bool) (magnitude : String) :
    Fragment (signed isNegative magnitude) ∧ (signed isNegative magnitude).isNot = false := by
  rw [signed]
  split
  · exact ⟨.minus rfl, rfl⟩
  · exact ⟨.closed rfl, rfl⟩

theorem regrouped_signed_eq_iff {isNegative : Bool} {magnitude : String} :
    (signed isNegative magnitude).regrouped = signed isNegative magnitude ↔
      lex magnitude = some [.number magnitude] := by
  have hnumber : (number magnitude).regrouped = number magnitude ↔
      lex magnitude = some [.number magnitude] := by
    rw [regrouped]
    split
    · rename_i h
      exact iff_of_true rfl h
    · rename_i h
      exact iff_of_false (by simp) h
  rw [signed]
  split
  · rw [regrouped, minus.injEq, hnumber]
  · exact hnumber

theorem settled_signed (isNegative : Bool) {magnitude : String}
    (h : lex magnitude = some [.number magnitude] ∨ IsName magnitude) :
    (signed isNegative magnitude).regrouped.Settled := by
  have hnumber : (number magnitude).regrouped.Settled := by
    rw [regrouped]
    split
    · assumption
    · exact h.resolve_left ‹_›
  have hlevel : 8 < (number magnitude).regrouped.leftLevel := by
    rw [(levels_of_isClosed (isClosed_regrouped rfl)).1]
    decide
  rw [signed]
  split
  · exact ⟨hnumber, hlevel⟩
  · exact hnumber

theorem regrouped_unary (op : UnaryOp) (v : Term) :
    (unary op v).regrouped = unary op v.regrouped := by
  cases op <;> rfl

theorem unary_inj {op : UnaryOp} {v w : Term} : unary op v = unary op w ↔ v = w := by
  cases op <;> simp [unary]

theorem fragment_unary (op : UnaryOp) (v : Term) :
    Fragment (unary op v) ∧ (unary op v).isNot = false := by
  cases op with
  | negate => exact ⟨.minus rfl, rfl⟩
  | _ => exact ⟨.closed rfl, rfl⟩

theorem settled_group {v : Term} (hv : v.Settled) (h : 0 < v.leftLevel) : (group v).Settled :=
  ⟨hv, .inl h⟩

theorem settled_unary (op : UnaryOp) {v : Term} (h : Fragment v) (hv : v.Settled) :
    (unary op v).Settled := by
  have hargs := h.isArguments
  have hgroup : (group v).Settled := settled_group hv h.leftLevel_pos
  cases op with
  | negate => exact ⟨hgroup, Nat.lt_succ_self 8⟩
  | _ => exact settled_call (by decide) hv hargs

theorem binary_eq {op : BinaryOp} (h : op.isMethod = false) :
    ∃ o : Operator, 3 < o.level ∧ ∀ l r, binary op l r = .group (.infixed o l r) := by
  cases op with
  | add => exact ⟨.add, by decide, fun _ _ => rfl⟩
  | subtract => exact ⟨.subtract, by decide, fun _ _ => rfl⟩
  | multiply => exact ⟨.multiply, by decide, fun _ _ => rfl⟩
  | divide => exact ⟨.divide, by decide, fun _ _ => rfl⟩
  | modulo => exact ⟨.modulo, by decide, fun _ _ => rfl⟩
  | equal => exact ⟨.equal, by decide, fun _ _ => rfl⟩
  | notEqual => exact ⟨.notEqual, by decide, fun _ _ => rfl⟩
  | lessThan => exact ⟨.less, by decide, fun _ _ => rfl⟩
  | lessThanOrEqual => exact ⟨.lessEqual, by decide, fun _ _ => rfl⟩
  | greaterThan => exact ⟨.greater, by decide, fun _ _ => rfl⟩
  | greaterThanOrEqual => exact ⟨.greaterEqual, by decide, fun _ _ => rfl⟩
  | contains => cases h
  | startsWith => cases h
  | endsWith => cases h

theorem regrouped_method {op : BinaryOp} (h : op.isMethod = true) (l r : Term) :
    (binary op l r).regrouped = binary op l.regrouped r.regrouped := by
  cases op with
  | contains => simp only [binary, regrouped, attach, lex_zero, if_true]
  | startsWith => simp only [binary, regrouped, attach, lex_one, if_true]
  | endsWith => simp only [binary, regrouped, attach]
  | _ => cases h

theorem method_inj {op : BinaryOp} (h : op.isMethod = true) {l r l' r' : Term} :
    binary op l r = binary op l' r' ↔ l = l' ∧ r = r' := by
  cases op with
  | contains => simp [binary]
  | startsWith => simp [binary]
  | endsWith => simp [binary]
  | _ => cases h

theorem settled_method {op : BinaryOp} (h : op.isMethod = true) {l r : Term} (hl : Fragment l)
    (hls : l.Settled) (hr : Fragment r) (hrs : r.Settled) : (binary op l r).Settled := by
  have hlength : (call "length" r).Settled := settled_call (by decide) hrs hr.isArguments
  have hboth {a : Term} (ha : a.Settled) (hargs : a.isArguments = true) (f : String)
      (hf : IsName f) : (call f (.both l a)).Settled :=
    settled_call hf ⟨hls, hl.leftLevel_pos, ha, hargs⟩ rfl
  have hgroup {op : Operator} {m n : Term}
      (h : (infixed op m n).Settled ∧ 0 < (infixed op m n).leftLevel) :
      (group (infixed op m n)).Settled := settled_group h.1 h.2
  cases op with
  | contains =>
    have hinstr := hboth hrs hr.isArguments "instr" (by decide)
    exact hgroup (settled_infixed (by decide) rfl hinstr (.closed rfl) lex_zero)
  | startsWith =>
    have hsubstr := hboth (a := .both (.number "1") (.call "length" r))
      ⟨lex_one, Nat.succ_pos 8, hlength, rfl⟩ rfl "substr" (by decide)
    exact hgroup (settled_infixed (by decide) rfl hsubstr hr hrs)
  | endsWith =>
    have hsubstr := hboth (a := .minus (.call "length" r)) ⟨hlength, Nat.lt_succ_self 8⟩ rfl
      "substr" (by decide)
    exact hgroup (settled_infixed (by decide) rfl hsubstr hr hrs)
  | _ => cases h

theorem attach_eq_iff {op : Operator} {l l' r r' : Term} (hop : 3 < op.level)
    (h : l'.isNot = l.isNot) :
    attach op l' r' = .infixed op l r ↔ l.isNot = false ∧ l' = l ∧ r' = r := by
  by_cases hnot : l'.isNot = true
  · cases l' with
    | not a =>
      rw [attach, if_neg (by omega), ← h, hnot]
      simp
    | _ => cases hnot
  · rw [Bool.not_eq_true] at hnot
    rw [attach_of_isNot hnot, ← h, hnot]
    simp

theorem attachTest_eq_iff {isNull : Bool} {l l' : Term} (h : l'.isNot = l.isNot) :
    attachTest isNull l' = .nullTest isNull l ↔ l.isNot = false ∧ l' = l := by
  rw [← h]
  cases l' <;> simp [attachTest, isNot]

theorem regrouped_connective (k : Connective) (ms : List Term) :
    (connective k ms).regrouped = connective k (ms.map regrouped) := by
  cases ms with
  | nil => rfl
  | cons m ms => exact congrArg Term.group (regrouped_foldl k m ms)

theorem connective_inj {k : Connective} {ms ns : List Term} (h : ms.length = ns.length) :
    connective k ms = connective k ns ↔ ms = ns := by
  cases ms with
  | nil =>
    obtain rfl := List.length_eq_zero_iff.1 h.symm
    simp
  | cons m ms =>
    cases ns with
    | nil => cases h
    | cons n ns =>
      rw [connective, connective, group.injEq, foldl_infixed_inj (Nat.succ.inj h), List.cons.injEq]

theorem settled_connective (k : Connective) {ms : List Term} (hne : ms ≠ [])
    (h : ∀ m ∈ ms, Fragment m ∧ m.Settled) : (connective k ms).Settled := by
  cases ms with
  | nil => exact absurd rfl hne
  | cons m ms =>
    obtain ⟨⟨hm, hms⟩, hrest⟩ := List.forall_mem_cons.1 h
    have hop : (connector k).level < 3 := by
      cases k <;> decide
    have hedge := hm.rightLevel.1
    obtain ⟨hs, hl⟩ := settled_foldl k hms hm.leftLevel_pos (by omega) hrest
    exact settled_group hs hl

theorem regrouped_quantifier (q : Quantifier) (source : Term) (r : String) (p : Term) :
    (quantifier q source r p).regrouped = quantifier q source.regrouped r p.regrouped := by
  cases q <;> simp only [quantifier, regrouped, lex_one, if_true]

theorem quantifier_inj {q : Quantifier} {source p p' : Term} {r : String} :
    quantifier q source r p = quantifier q source r p' ↔ p = p' := by
  cases q <;> simp [quantifier]

theorem settled_quantifier (q : Quantifier) {source p : Term} {r : String} (hs : source.Settled)
    (hcall : source.isCall = true) (hr : IsName r) (hp : Fragment p) (hps : p.Settled) :
    (quantifier q source r p).Settled := by
  have hleft := hp.leftLevel_pos
  have htight : 3 < 9 := by
    decide
  have hone : (number "1").Settled ∧ 0 < (number "1").leftLevel := ⟨lex_one, Nat.succ_pos 8⟩
  have hnot : (Term.not (.group p)).Settled := ⟨settled_group hps hleft, htight⟩
  have hcount : (call "COUNT" .star).Settled := ⟨trivial, ⟨by decide, .inl rfl⟩⟩
  cases q with
  | any => exact ⟨⟨hone.1, hone.2, hs, hcall, hr, hps, hleft⟩, rfl⟩
  | all => exact ⟨⟨⟨hone.1, hone.2, hs, hcall, hr, hnot, Nat.succ_pos 8⟩, rfl⟩, htight⟩
  | count => exact ⟨⟨hcount, Nat.succ_pos 8, hs, hcall, hr, hps, hleft⟩, .inr rfl⟩

theorem regrouped_aggregate (op : AggregateOp) (source : Term) (r : String) (v : Term) :
    (aggregate op source r v).regrouped = aggregate op source.regrouped r v.regrouped := rfl

theorem aggregate_inj {op : AggregateOp} {source v v' : Term} {r : String} :
    aggregate op source r v = aggregate op source r v' ↔ v = v' := by
  simp [aggregate]

theorem aggregate_eq (op : AggregateOp) : ∃ f, IsName f ∧
    ∀ source r v, aggregate op source r v = .group (.select (.call f v) source r) := by
  cases op with
  | min => exact ⟨"MIN", by decide, fun _ _ _ => rfl⟩
  | max => exact ⟨"MAX", by decide, fun _ _ _ => rfl⟩
  | sum => exact ⟨"SUM", by decide, fun _ _ _ => rfl⟩
  | average => exact ⟨"AVG", by decide, fun _ _ _ => rfl⟩

theorem settled_aggregate (op : AggregateOp) {source v : Term} {r : String} (hs : source.Settled)
    (hcall : source.isCall = true) (hr : IsName r) (hv : Fragment v) (hvs : v.Settled) :
    (aggregate op source r v).Settled := by
  obtain ⟨f, hf, haggregate⟩ := aggregate_eq op
  rw [haggregate]
  exact ⟨⟨settled_call hf hvs hv.isArguments, Nat.succ_pos 8, hs, hcall, hr⟩, .inr rfl⟩

end Quarry.Sql.Term
