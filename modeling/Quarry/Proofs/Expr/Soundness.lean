import Quarry.Proofs.Expr.Formed

/-!
What a parser reads is derived in the grammar.
-/

namespace Quarry.Expr

namespace Parser

theorem bind_eq_ok {ε α β : Type} {x : Except ε α} {f : α → Except ε β} {b : β} :
    x >>= f = .ok b ↔ ∃ a, x = .ok a ∧ f a = .ok b := by
  cases x with
  | error e => simp [bind, Except.bind]
  | ok a => simp [bind, Except.bind]

/-! ### Tokens -/

/-- Tokens without their places. -/
def marks (L : Tokens) : List Token := L.map Located.token

theorem length_marks (L : Tokens) : (marks L).length = L.length := List.length_map _

/-- Tokens up to an end, the only one. Integers have no sign of their own. -/
inductive Ended : List Token → Prop
  | eof : Ended [.eof]
  | cons {t : Token} {ts : List Token} (ht : t ≠ .eof) (hn : ∀ n, t = .integer n → 0 ≤ n)
      (h : Ended ts) : Ended (t :: ts)

theorem Ended.fine {ts : List Token} (h : Ended ts) : ∀ t ∈ ts, Fine (fun _ => True) t := by
  induction h with
  | eof => simp [Fine]
  | @cons t ts _ hn _ ih =>
    refine List.forall_mem_cons.2 ⟨?_, ih⟩
    cases t with
    | integer n => exact hn n rfl
    | _ => trivial

variable {L R : Tokens} {t : Token}

theorem Ended.tail {ts : List Token} (h : Ended (t :: ts)) (ht : t ≠ .eof) : Ended ts := by
  cases h with
  | eof => exact absurd rfl ht
  | cons _ _ h => exact h

theorem Ended.next (h : Ended (marks L)) (hc : current L = t) (ht : t ≠ .eof) :
    marks L = t :: marks (advance L) ∧ Ended (marks (advance L)) := by
  subst hc
  cases L with
  | nil => exact absurd rfl ht
  | cons a L =>
    have htail : Ended (marks L) := Ended.tail h ht
    cases L with
    | nil => cases htail
    | cons b L => exact ⟨rfl, htail⟩

theorem Ended.last (h : Ended (marks L)) (hc : current L = .eof) : marks L = [.eof] := by
  cases L with
  | nil => cases h
  | cons a L =>
    have ha : a.token = .eof := hc
    have hm : marks (a :: L) = .eof :: marks L := congrArg (· :: marks L) ha
    rw [hm] at h ⊢
    generalize marks L = ts at h ⊢
    cases h with
    | eof => rfl
    | cons ht _ _ => exact absurd rfl ht

theorem expect_eq_ok {wanted : Token} :
    expect wanted L = .ok R ↔ current L = wanted ∧ advance L = R := by
  rw [expect]
  split
  · rename_i h
    simp [h]
  · rename_i h
    simp [fail, h]

theorem Ended.expect {wanted : Token} (h : Ended (marks L)) (hw : wanted ≠ .eof)
    (hr : expect wanted L = .ok R) : marks L = wanted :: marks R ∧ Ended (marks R) := by
  obtain ⟨hc, rfl⟩ := expect_eq_ok.1 hr
  exact h.next hc hw

theorem Ended.identifier {x : String} (h : Ended (marks L))
    (hr : identifier L = .ok (x, R)) : marks L = .identifier x :: marks R ∧ Ended (marks R) := by
  rw [Parser.identifier] at hr
  split at hr
  · rename_i name hc
    cases hr
    exact h.next hc (by simp)
  · cases hr

/-! ### Phrases -/

/-- Whatever a parser reads is related to the tokens from its first to after its last. -/
def Sound {α : Type} (p : Phrase α) (P : α → List Token → List Token → Prop) : Prop :=
  ∀ {L R : Tokens} {a : α}, Ended (marks L) → p L = .ok (a, R) →
    P a (marks L) (marks R) ∧ Ended (marks R)

/-! ### Fields -/

theorem current_eq (L : Tokens) : current L = (marks L).head?.getD .eof := by
  simp [current, marks]

theorem peek_eq (n : Nat) (L : Tokens) : peek n L = (marks L)[n]?.getD .eof := by
  simp [peek, marks]

theorem memberFollows_iff : memberFollows L = true ↔
    ∃ x ts, marks L = .dot :: .identifier x :: ts ∧ ts.head? ≠ some .openParen := by
  have hthird (ts : List Token) : ts.head?.getD .eof = .openParen ↔ ts.head? = some .openParen := by
    cases ts <;> simp
  rw [memberFollows, current_eq, peek_eq, peek_eq]
  rcases marks L with _ | ⟨a, _ | ⟨b, ts⟩⟩
  · simp
  · cases a <;> simp
  · simp only [List.head?_cons, Option.getD_some, List.getElem?_cons_succ,
      ← List.head?_eq_getElem?, List.cons.injEq]
    split
    · rename_i hc
      simp [(hthird ts).1 hc]
    · rename_i x hc
      exact ⟨fun _ => ⟨x, ts, ⟨rfl, rfl, rfl⟩, fun h => hc ((hthird ts).2 h)⟩, fun _ => rfl⟩
    · rename_i hother _
      refine ⟨fun h => absurd h Bool.false_ne_true, ?_⟩
      rintro ⟨x, _, ⟨rfl, rfl, rfl⟩, -⟩
      exact (hother x rfl rfl).elim

theorem follows_of_step {s : String} {mid : List Token} (h : Step s (marks L) mid) :
    memberFollows L = true ∨ current L = .openBracket := by
  rw [current_eq]
  generalize hts : marks L = ts at h ⊢
  cases h with
  | member h => exact .inl (memberFollows_iff.2 ⟨_, _, hts, h⟩)
  | index _ => exact .inr rfl
  | every => exact .inr rfl

theorem bracketed_sound : Sound bracketed fun s ts rest => ∃ t, ts = t :: rest ∧
    ∀ after, rest = .closeBracket :: after → Step s (.openBracket :: ts) after := by
  intro L R s h hr
  rw [bracketed] at hr
  generalize hc : current L = t at hr
  cases t
  case integer n =>
    dsimp only at hr
    split at hr
    · rename_i hn
      cases hr
      obtain ⟨hm, hend⟩ := h.next hc (by simp)
      refine ⟨⟨_, hm, ?_⟩, hend⟩
      rintro after hafter
      rw [hm, hafter]
      exact .index hn
    · cases hr
  case star =>
    cases hr
    obtain ⟨hm, hend⟩ := h.next hc (by simp)
    refine ⟨⟨_, hm, ?_⟩, hend⟩
    rintro after hafter
    rw [hm, hafter]
    exact .every
  all_goals cases hr

theorem fieldSteps_sound {fuel : Nat} {name : String} {e : Expr} (h : Ended (marks L))
    (hf : L.length ≤ fuel) (hr : fieldSteps fuel name L = .ok (e, R)) :
    (∃ s, e = .field (name ++ s) none ∧ Steps s (marks L) (marks R)) ∧ Ended (marks R) := by
  induction fuel generalizing L name with
  | zero =>
    obtain rfl := List.length_eq_zero_iff.1 (Nat.le_zero.1 hf)
    cases h
  | succ fuel ih =>
    rw [fieldSteps] at hr
    -- After a step the rest of the field is read with the longer name.
    have hcons {s : String} {L' : Tokens} (hstep : Step s (marks L) (marks L'))
        (hend : Ended (marks L')) (hr : fieldSteps fuel (name ++ s) L' = .ok (e, R)) :
        (∃ s, e = .field (name ++ s) none ∧ Steps s (marks L) (marks R)) ∧ Ended (marks R) := by
      have hlt := hstep.shorter.length_lt
      simp only [length_marks] at hlt
      obtain ⟨⟨s', rfl, hs⟩, hend'⟩ := ih hend (by omega) hr
      exact ⟨⟨s ++ s', by rw [String.append_assoc], .cons hstep hs⟩, hend'⟩
    split at hr
    · rename_i hm
      obtain ⟨x, ts, hts, hparen⟩ := memberFollows_iff.1 hm
      obtain ⟨⟨member, L'⟩, hid, hr⟩ := bind_eq_ok.1 hr
      obtain ⟨h1, hend⟩ := h.next (t := .dot) (by rw [current_eq, hts]; rfl) (by simp)
      obtain ⟨h2, hend⟩ := hend.identifier hid
      rw [h1, h2] at hts
      obtain ⟨-, htail⟩ := List.cons.inj hts
      obtain ⟨-, rfl⟩ := List.cons.inj htail
      have hstep : Step ("." ++ member) (marks L) (marks L') := by
        rw [h1, h2]
        exact .member hparen
      exact hcons hstep hend (by rw [← String.append_assoc]; exact hr)
    · rename_i hm
      split at hr
      · rename_i hc
        obtain ⟨⟨inner, L1⟩, hb, hr⟩ := bind_eq_ok.1 hr
        obtain ⟨L2, he, hr⟩ := bind_eq_ok.1 hr
        obtain ⟨h1, hend⟩ := h.next hc (by simp)
        obtain ⟨⟨t, h2, hstep⟩, hend⟩ := bracketed_sound hend hb
        obtain ⟨h3, hend⟩ := hend.expect (by simp) he
        exact hcons (h1 ▸ hstep _ h3) hend hr
      · rename_i hc
        cases hr
        refine ⟨⟨"", by simp, .done fun s mid hs => ?_⟩, h⟩
        exact (follows_of_step hs).elim hm hc

/-! ### Operators -/

theorem functionOp?_eq_some {name : String} {op : UnaryOp} (h : functionOp? name = some op) :
    op ∈ functions ∧ op.name = name := by
  have hname := List.find?_some h
  exact ⟨List.mem_of_find?_eq_some h, by simpa using hname⟩

theorem connectiveOf?_eq_some {name : String} {k : Connective} (h : connectiveOf? name = some k) :
    k.name = name := by
  have hname := List.find?_some h
  simpa using hname

theorem methodOp?_eq_some {name : String} {op : BinaryOp} (h : methodOp? name = some op) :
    op.isMethod = true ∧ op.symbol = name := by
  have hmem := List.mem_of_find?_eq_some h
  have hname := List.find?_some h
  simp only [List.mem_cons, List.not_mem_nil, or_false] at hmem
  refine ⟨?_, by simpa using hname⟩
  rcases hmem with rfl | rfl | rfl <;> rfl

theorem quantifierOf?_eq_some {name : String} {q : Quantifier} (h : quantifierOf? name = some q) :
    q.name = name := by
  have hname := List.find?_some h
  simpa using hname

theorem aggregateOf?_eq_some {name : String} {op : AggregateOp}
    (h : aggregateOf? name = some op) : op.name = name := by
  have hname := List.find?_some h
  simpa using hname

theorem comparisonOp?_eq_some {op : BinaryOp} (h : comparisonOp? t = some op) :
    (t, op) ∈ comparisons := by
  cases t <;> simp [comparisonOp?] at h <;> subst h <;> decide

theorem additiveOp?_eq_some {op : BinaryOp} (h : additiveOp? t = some op) :
    (4, t, op) ∈ chains := by
  cases t <;> simp [additiveOp?] at h <;> subst h <;> decide

theorem multiplicativeOp?_eq_some {op : BinaryOp} (h : multiplicativeOp? t = some op) :
    (5, t, op) ∈ chains := by
  cases t <;> simp [multiplicativeOp?] at h <;> subst h <;> decide

theorem literal?_eq_some {a : Atom} (h : literal? t = some a) : Constant t a := by
  cases t <;> cases h <;> constructor

/-! ### Phrases that hold expressions -/

section

variable {expr : Phrase Expr}

theorem argumentsRest_sound (hexpr : Sound expr (Derives 1)) (fuel : Nat) :
    Sound (argumentsRest expr fuel) Arguments := by
  intro L R es h hr
  induction fuel generalizing L es with
  | zero => cases hr
  | succ fuel ih =>
    rw [argumentsRest] at hr
    split at hr
    · rename_i hc
      cases hr
      obtain ⟨hm, hend⟩ := h.next hc (by simp)
      exact ⟨hm ▸ .nil, hend⟩
    · obtain ⟨⟨e, L1⟩, he, hr⟩ := bind_eq_ok.1 hr
      obtain ⟨hd, h1⟩ := hexpr h he
      dsimp only at hr
      split at hr
      · rename_i hc
        cases hr
        obtain ⟨hm, hend⟩ := h1.next hc (by simp)
        exact ⟨.last (hm ▸ hd), hend⟩
      · obtain ⟨L2, hcomma, hr⟩ := bind_eq_ok.1 hr
        obtain ⟨⟨es', L3⟩, hes, hr⟩ := bind_eq_ok.1 hr
        cases hr
        obtain ⟨hm, h2⟩ := h1.expect (by simp) hcomma
        obtain ⟨hs, h3⟩ := ih h2 hes
        exact ⟨.cons (hm ▸ hd) hs, h3⟩

theorem arguments_sound (hexpr : Sound expr (Derives 1)) :
    Sound (arguments expr) fun es ts rest => ∃ mid, ts = .openParen :: mid ∧
      Arguments es mid rest := by
  intro L R es h hr
  obtain ⟨L1, hparen, hr⟩ := bind_eq_ok.1 hr
  obtain ⟨hm, h1⟩ := h.expect (by simp) hparen
  obtain ⟨ha, h2⟩ := argumentsRest_sound hexpr _ h1 hr
  exact ⟨⟨_, hm, ha⟩, h2⟩

theorem function_sound (hexpr : Sound expr (Derives 1)) (name : String) :
    Sound (function expr name) fun e ts rest => Derives 8 e (.identifier name :: ts) rest := by
  intro L R e h hr
  obtain ⟨⟨args, L1⟩, hargs, hr⟩ := bind_eq_ok.1 hr
  obtain ⟨⟨mid, hm, ha⟩, h1⟩ := arguments_sound hexpr h hargs
  rw [hm]
  dsimp only at hr
  split at hr
  · rename_i op e hop
    cases hr
    obtain ⟨hmem, rfl⟩ := functionOp?_eq_some hop
    exact ⟨.function hmem ha, h1⟩
  · cases hr
  · rename_i k e es _ hk
    cases hr
    obtain rfl := connectiveOf?_eq_some hk
    exact ⟨.connective ha (List.cons_ne_nil _ _), h1⟩
  · cases hr

theorem primary_sound (hexpr : Sound expr (Derives 1)) : Sound (primary expr) (Derives 8) := by
  intro L R e h hr
  rw [primary] at hr
  split at hr
  · rename_i a ha
    cases hr
    have hne : current L ≠ .eof := by
      rintro hc
      rw [hc] at ha
      cases ha
    obtain ⟨hm, hend⟩ := h.next rfl hne
    exact ⟨hm ▸ .constant (literal?_eq_some ha), hend⟩
  · split at hr
    · rename_i hc
      obtain ⟨⟨e', L1⟩, he, hr⟩ := bind_eq_ok.1 hr
      obtain ⟨L2, hclose, hr⟩ := bind_eq_ok.1 hr
      cases hr
      obtain ⟨hm, hend⟩ := h.next hc (by simp)
      obtain ⟨hd, h1⟩ := hexpr hend he
      obtain ⟨hm', h2⟩ := h1.expect (by simp) hclose
      rw [hm]
      exact ⟨.group (hm' ▸ hd), h2⟩
    · rename_i name hc
      obtain ⟨hm, hend⟩ := h.next hc (by simp)
      rw [hm]
      dsimp only at hr
      split at hr
      · exact function_sound hexpr name hend hr
      · obtain ⟨⟨s, rfl, hs⟩, hend'⟩ := fieldSteps_sound hend (Nat.le_refl _) hr
        exact ⟨.field hs, hend'⟩
    · cases hr

theorem lambdaRest_sound (hexpr : Sound expr (Derives 1)) :
    Sound (lambdaRest expr) fun p ts rest => ∃ mid, ts = .identifier p.1 :: .arrow :: mid ∧
      Derives 1 p.2 mid (.closeParen :: rest) := by
  intro L R p h hr
  obtain ⟨⟨x, L1⟩, hx, hr⟩ := bind_eq_ok.1 hr
  obtain ⟨L2, harrow, hr⟩ := bind_eq_ok.1 hr
  obtain ⟨⟨b, L3⟩, hb, hr⟩ := bind_eq_ok.1 hr
  obtain ⟨L4, hclose, hr⟩ := bind_eq_ok.1 hr
  cases hr
  obtain ⟨hm1, h1⟩ := h.identifier hx
  obtain ⟨hm2, h2⟩ := h1.expect (by simp) harrow
  obtain ⟨hd, h3⟩ := hexpr h2 hb
  obtain ⟨hm4, h4⟩ := h3.expect (by simp) hclose
  exact ⟨⟨_, by rw [hm1, hm2], hm4 ▸ hd⟩, h4⟩

theorem elementCall_sound (hexpr : Sound expr (Derives 1)) (range : Expr) (name : String) :
    Sound (elementCall expr range name) fun e ts rest =>
      Method range e (.identifier name :: ts) rest := by
  intro L R e h hr
  rw [elementCall] at hr
  split at hr
  · cases hr
  · rename_i hf
    have hf : range.isField = true := by simpa using hf
    obtain ⟨L1, hparen, hr⟩ := bind_eq_ok.1 hr
    obtain ⟨hm, h1⟩ := h.expect (by simp) hparen
    rw [hm]
    split at hr
    · rename_i hc
      cases hr
      obtain ⟨hm', h2⟩ := h1.next hc.2 (by simp)
      rw [hm', hc.1]
      exact ⟨.count hf, h2⟩
    · split at hr
      · rename_i q hq
        obtain ⟨⟨⟨x, b⟩, L2⟩, hl, hr⟩ := bind_eq_ok.1 hr
        cases hr
        obtain ⟨⟨mid, hmid, hd⟩, h2⟩ := lambdaRest_sound hexpr h1 hl
        rw [hmid, ← quantifierOf?_eq_some hq]
        exact ⟨.quantifier q hf hd, h2⟩
      · rename_i op _ hop
        obtain ⟨⟨⟨x, b⟩, L2⟩, hl, hr⟩ := bind_eq_ok.1 hr
        cases hr
        obtain ⟨⟨mid, hmid, hd⟩, h2⟩ := lambdaRest_sound hexpr h1 hl
        rw [hmid, ← aggregateOf?_eq_some hop]
        exact ⟨.aggregate op hf hd, h2⟩
      · cases hr

theorem method_sound (hexpr : Sound expr (Derives 1)) (receiver : Expr) :
    Sound (method expr receiver) (Method receiver) := by
  intro L R e h hr
  obtain ⟨⟨name, L1⟩, hname, hr⟩ := bind_eq_ok.1 hr
  obtain ⟨hm, h1⟩ := h.identifier hname
  rw [hm]
  dsimp only at hr
  split at hr
  · rename_i op hop
    obtain ⟨⟨args, L2⟩, hargs, hr⟩ := bind_eq_ok.1 hr
    obtain ⟨⟨mid, hmid, ha⟩, h2⟩ := arguments_sound hexpr h1 hargs
    obtain ⟨hmethod, rfl⟩ := methodOp?_eq_some hop
    dsimp only at hr
    split at hr
    · cases hr
      exact ⟨hmid ▸ .test hmethod ha, h2⟩
    · cases hr
  · split at hr
    · rename_i hl
      obtain ⟨L2, hopen, hr⟩ := bind_eq_ok.1 hr
      obtain ⟨L3, hclose, hr⟩ := bind_eq_ok.1 hr
      cases hr
      obtain ⟨hm2, h2⟩ := h1.expect (by simp) hopen
      obtain ⟨hm3, h3⟩ := h2.expect (by simp) hclose
      rw [hl, hm2, hm3]
      exact ⟨.length, h3⟩
    · exact elementCall_sound hexpr receiver name h1 hr

theorem methods_sound (hexpr : Sound expr (Derives 1)) (fuel : Nat) (e : Expr) :
    Sound (methods expr fuel e) (Calls e) := by
  intro L R r h hr
  induction fuel generalizing L e with
  | zero =>
    cases hr
    exact ⟨.nil, h⟩
  | succ fuel ih =>
    rw [methods] at hr
    split at hr
    · rename_i hc
      obtain ⟨⟨e', L1⟩, he, hr⟩ := bind_eq_ok.1 hr
      obtain ⟨hm, hend⟩ := h.next hc (by simp)
      obtain ⟨hmethod, h1⟩ := method_sound hexpr e hend he
      obtain ⟨hs, h2⟩ := ih e' h1 hr
      exact ⟨hm ▸ .cons hmethod hs, h2⟩
    · cases hr
      exact ⟨.nil, h⟩

theorem postfixed_sound (hexpr : Sound expr (Derives 1)) :
    Sound (postfixed expr) (Derives 7) := by
  intro L R r h hr
  obtain ⟨⟨e, L1⟩, he, hr⟩ := bind_eq_ok.1 hr
  obtain ⟨hd, h1⟩ := primary_sound hexpr h he
  obtain ⟨hs, h2⟩ := methods_sound hexpr _ e h1 hr
  exact ⟨.calls hd hs, h2⟩

theorem negated_cases (e : Expr) :
    (∃ n, e = .literal (.long n)) ∨ (∃ x, e = .literal (.double x)) ∨
      isNumber e = false ∧ negated e = .unary .negate e := by
  cases e with
  | literal a =>
    cases a with
    | long n => exact .inl ⟨n, rfl⟩
    | double x => exact .inr (.inl ⟨x, rfl⟩)
    | _ => exact .inr (.inr ⟨rfl, rfl⟩)
  | _ => exact .inr (.inr ⟨rfl, rfl⟩)

theorem derives_negated {e : Expr} {ts rest : List Token} (h : Derives 6 e ts rest)
    (he : ∀ n, e = .literal (.long n) → Int64.minValue < n) :
    Derives 6 (negated e) (.minus :: ts) rest := by
  rcases negated_cases e with ⟨n, rfl⟩ | ⟨x, rfl⟩ | ⟨hnum, heq⟩
  · exact .negateLong h (toInt_neg (he n rfl))
  · exact .negateDouble h
  · rw [heq]
    exact .negate h hnum

theorem signed_sound (hexpr : Sound expr (Derives 1)) (fuel : Nat) :
    Sound (signed expr fuel) (Derives 6) := by
  intro L R r h hr
  induction fuel generalizing L r with
  | zero => cases hr
  | succ fuel ih =>
    rw [signed] at hr
    split at hr
    · rename_i hc
      obtain ⟨⟨e, L1⟩, he, hr⟩ := bind_eq_ok.1 hr
      cases hr
      obtain ⟨hm, hend⟩ := h.next hc (by simp)
      obtain ⟨hd, h1⟩ := ih hend he
      exact ⟨hm ▸ .not hd, h1⟩
    · rename_i hc
      obtain ⟨⟨e, L1⟩, he, hr⟩ := bind_eq_ok.1 hr
      cases hr
      obtain ⟨hm, hend⟩ := h.next hc (by simp)
      obtain ⟨hd, h1⟩ := ih hend he
      have hlong (n : Int64) (hn : e = .literal (.long n)) : Int64.minValue < n :=
        Formed.long (hn ▸ hd.formed hend.fine)
      exact ⟨hm ▸ derives_negated hd hlong, h1⟩
    · obtain ⟨hd, h1⟩ := postfixed_sound hexpr h hr
      exact ⟨.single (by decide) hd, h1⟩

end

/-! ### Operators between operands -/

section

variable {operand : Phrase Expr} {n : Nat}

theorem chainRest_sound {op? : Token → Option BinaryOp} (hoperand : Sound operand (Derives (n + 1)))
    (hop : ∀ {t op}, op? t = some op → (n, t, op) ∈ chains) (fuel : Nat) (l : Expr) :
    Sound (chainRest op? operand fuel l) (Terms n l) := by
  intro L R e h hr
  induction fuel generalizing L l with
  | zero =>
    cases hr
    exact ⟨.nil, h⟩
  | succ fuel ih =>
    rw [chainRest] at hr
    split at hr
    · rename_i op hsome
      obtain ⟨⟨r, L1⟩, he, hr⟩ := bind_eq_ok.1 hr
      have hmem := hop hsome
      have hne : current L ≠ .eof := by
        rintro hc
        rw [hc] at hmem
        simp [chains] at hmem
      obtain ⟨hm, hend⟩ := h.next rfl hne
      obtain ⟨hd, h1⟩ := hoperand hend he
      obtain ⟨hs, h2⟩ := ih _ h1 hr
      exact ⟨hm ▸ .cons hmem hd hs, h2⟩
    · cases hr
      exact ⟨.nil, h⟩

theorem chain_sound {op? : Token → Option BinaryOp} (hoperand : Sound operand (Derives (n + 1)))
    (hop : ∀ {t op}, op? t = some op → (n, t, op) ∈ chains) (hn : n = 4 ∨ n = 5) :
    Sound (chain op? operand) (Derives n) := by
  intro L R e h hr
  obtain ⟨⟨l, L1⟩, hl, hr⟩ := bind_eq_ok.1 hr
  obtain ⟨hd, h1⟩ := hoperand h hl
  obtain ⟨hs, h2⟩ := chainRest_sound hoperand hop _ l h1 hr
  exact ⟨.chain hn hd hs, h2⟩

theorem operandsRest_sound {mark : Token} (hoperand : Sound operand (Derives (n + 1)))
    (hmark : mark ≠ .eof) (fuel : Nat) :
    Sound (operandsRest mark operand fuel) (Operands n mark) := by
  intro L R es h hr
  induction fuel generalizing L es with
  | zero =>
    cases hr
    exact ⟨.nil, h⟩
  | succ fuel ih =>
    rw [operandsRest] at hr
    split at hr
    · rename_i hc
      obtain ⟨⟨e, L1⟩, he, hr⟩ := bind_eq_ok.1 hr
      obtain ⟨⟨es', L2⟩, hes, hr⟩ := bind_eq_ok.1 hr
      cases hr
      obtain ⟨hm, hend⟩ := h.next hc hmark
      obtain ⟨hd, h1⟩ := hoperand hend he
      obtain ⟨hs, h2⟩ := ih h1 hes
      exact ⟨hm ▸ .cons hd hs, h2⟩
    · cases hr
      exact ⟨.nil, h⟩

theorem connected_sound {k : Connective} {mark : Token} (hoperand : Sound operand (Derives (n + 1)))
    (hk : (n, mark, k) ∈ connectives) : Sound (connected k mark operand) (Derives n) := by
  intro L R r h hr
  have hn : n < 8 ∧ mark ≠ .eof := by
    simp only [connectives, List.mem_cons, Prod.mk.injEq, List.not_mem_nil, or_false] at hk
    rcases hk with ⟨rfl, rfl, -⟩ | ⟨rfl, rfl, -⟩ <;> simp
  obtain ⟨⟨e, L1⟩, he, hr⟩ := bind_eq_ok.1 hr
  obtain ⟨⟨es, L2⟩, hes, hr⟩ := bind_eq_ok.1 hr
  obtain ⟨hd, h1⟩ := hoperand h he
  obtain ⟨hs, h2⟩ := operandsRest_sound hoperand hn.2 _ h1 hes
  dsimp only at hr
  split at hr
  · cases hr
    exact ⟨.single hn.1 (hs.eq_of_nil ▸ hd), h2⟩
  · rename_i hne
    cases hr
    exact ⟨.connect hk hd hs hne, h2⟩

end

section

variable {expr : Phrase Expr}

theorem multiplicative_sound (hexpr : Sound expr (Derives 1)) :
    Sound (multiplicative expr) (Derives 5) :=
  chain_sound (fun h hr => signed_sound hexpr _ h hr) multiplicativeOp?_eq_some (.inr rfl)

theorem additive_sound (hexpr : Sound expr (Derives 1)) : Sound (additive expr) (Derives 4) :=
  chain_sound (multiplicative_sound hexpr) additiveOp?_eq_some (.inl rfl)

theorem comparison_sound (hexpr : Sound expr (Derives 1)) :
    Sound (comparison expr) (Derives 3) := by
  intro L R e h hr
  obtain ⟨⟨l, L1⟩, hl, hr⟩ := bind_eq_ok.1 hr
  obtain ⟨hd, h1⟩ := additive_sound hexpr h hl
  dsimp only at hr
  split at hr
  · rename_i op hop
    obtain ⟨⟨r, L2⟩, hr', hr⟩ := bind_eq_ok.1 hr
    cases hr
    have hne : current L1 ≠ .eof := by
      rintro hc
      simp [hc, comparisonOp?] at hop
    obtain ⟨hm, hend⟩ := h1.next rfl hne
    obtain ⟨hd', h2⟩ := additive_sound hexpr hend hr'
    exact ⟨.compare (comparisonOp?_eq_some hop) (hm ▸ hd) hd', h2⟩
  · cases hr
    exact ⟨.single (by decide) hd, h1⟩

theorem disjunction_sound (hexpr : Sound expr (Derives 1)) :
    Sound (disjunction expr) (Derives 1) :=
  connected_sound (connected_sound (comparison_sound hexpr) (by decide)) (by decide)

end

theorem expression_sound (depth : Nat) : Sound (expression depth) (Derives 1) := by
  induction depth with
  | zero =>
    intro L R e h hr
    cases hr
  | succ depth ih => exact disjunction_sound ih

theorem whole_sound {e : Expr} (h : Ended (marks L)) (hr : whole L = .ok e) :
    Derives 1 e (marks L) [.eof] := by
  obtain ⟨⟨e', L1⟩, he, hr⟩ := bind_eq_ok.1 hr
  obtain ⟨L2, heof, hr⟩ := bind_eq_ok.1 hr
  cases hr
  obtain ⟨hd, h1⟩ := expression_sound _ h he
  rwa [h1.last (expect_eq_ok.1 heof).1] at hd

end Parser

end Quarry.Expr
