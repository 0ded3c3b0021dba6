import Quarry.Proofs.Expr.Failing
import Quarry.Proofs.Expr.Summing
import Quarry.Proofs.Expr.Typed
import Quarry.Proofs.Projection

/-!
Quantifiers as counts. Some predicate holds if the count of those that hold is positive, and all
hold if it is the number of elements, which 64 bits hold for every document that is read from a
text.
-/

namespace Quarry

open Json Text

/-! ### Sizes of documents -/

theorem Json.Passage.count_le_length {o s : Bool} (p : Passage o s) :
    p.count ≤ p.text.length := by
  induction p with
  | close sp => exact Nat.zero_le _
  | token l t rest ih =>
    obtain ⟨b, bs, hb, -⟩ := t.head
    simp only [count, text, hb, List.length_cons, List.length_append]
    omega
  | nested l k inside rest ih1 ih2 =>
    simp only [count, text, List.length_cons, List.length_append]
    omega

theorem Json.Spelling.size_node_le (v : Spelling) (start k : Nat) :
    (v.node start k).size ≤ v.text.length := by
  rw [← Node.length_ids]
  cases v with
  | token t =>
    obtain ⟨b, bs, hb, -⟩ := t.head
    rw [text, hb]
    exact Nat.succ_le_succ (Nat.zero_le _)
  | nested b inside =>
    have hinside := inside.count_le_length
    rw [node, Node.ids_group, inside.ids_nodes]
    simp only [List.length_cons, List.length_range', text]
    omega

namespace Node

variable {n m : Node}

theorem size_eq (n : Node) : n.size = 1 + (n.parts.map size).sum := by
  rw [← length_ids, ids_eq, List.length_cons, List.length_flatMap, Nat.add_comm]
  simp only [length_ids]

theorem size_pos (n : Node) : 0 < n.size := by
  rw [size_eq]
  omega

theorem size_le_of_mem_parts (h : m ∈ n.parts) : m.size ≤ n.size := by
  have hle := List.le_sum_of_mem (List.mem_map_of_mem (f := size) h)
  rw [n.size_eq]
  omega

end Node

theorem Document.size_le {depth : Nat} {input : Bytes} {d : Document}
    (hd : Document.read depth input = .ok d) : d.size ≤ input.length := by
  rcases read_cases hd with ⟨sp, rfl⟩ | ⟨p, rfl, hp⟩
  · rw [read_space] at hd
    cases hd
    exact Nat.zero_le _
  · rw [read_value p hp] at hd
    cases hd
    have hsize := p.value.size_node_le p.before.bytes.length 0
    simp only [size, Option.map_some, Option.getD_some, Page.text, List.length_append]
    omega

theorem Document.size_node_le {d : Document} {k : Nat} {n : Node} (h : d.node? k = some n) :
    n.size ≤ d.size := by
  obtain ⟨root, hroot, hn⟩ := Option.bind_eq_some_iff.1 h
  rw [size, hroot]
  refine Node.of_withId? (P := fun m => m.size ≤ root.size) ?_ le_rfl hn
  intro c hc m hm
  exact (Node.size_le_of_mem_parts hm).trans hc

namespace Expr

/-! ### Numbers of elements -/

variable {bindings : Bindings} {f p : Expr} {x : String} {nodes : List Node}

/-- The nodes below all nodes that steps have led to. -/
def weight (nodes : List (Option Node)) : Nat :=
  (nodes.map fun n => (n.map Node.size).getD 0).sum

theorem weight_cons (n : Option Node) (nodes : List (Option Node)) :
    weight (n :: nodes) = (n.map Node.size).getD 0 + weight nodes := by
  rw [weight, List.map_cons, List.sum_cons, weight]

theorem weight_append (nodes nodes' : List (Option Node)) :
    weight (nodes ++ nodes') = weight nodes + weight nodes' := by
  rw [weight, List.map_append, List.sum_append, weight, weight]

theorem length_le_weight (nodes : List (Option Node)) :
    (nodes.filterMap id).length ≤ weight nodes := by
  induction nodes with
  | nil => exact le_rfl
  | cons n nodes ih =>
    rw [weight_cons]
    cases n with
    | none =>
      rw [List.filterMap_cons_none rfl]
      omega
    | some n =>
      have hpos := n.size_pos
      have hlength : ((some n :: nodes).filterMap id).length =
          (nodes.filterMap id).length + 1 := rfl
      rw [hlength, Option.map_some, Option.getD_some]
      omega

theorem weight_some (nodes : List Node) : weight (nodes.map some) = (nodes.map Node.size).sum := by
  rw [weight, List.map_map]
  rfl

theorem size_of_elements? {n : Node} {items : List Node} (h : n.elements? = some items) :
    (items.map Node.size).sum < n.size := by
  cases n with
  | array mark ns =>
    obtain rfl := Option.some.inj h
    rw [Node.size_eq, Nat.add_comm]
    exact Nat.lt_succ_self _
  | _ => cases h

theorem weight_wildcard (nodes : List (Option Node)) :
    weight (nodes.flatMap fun n => ((n.bind Node.elements?).getD []).map some) ≤ weight nodes := by
  induction nodes with
  | nil => exact le_rfl
  | cons n nodes ih =>
    rw [List.flatMap_cons, weight_append, weight_cons]
    refine Nat.add_le_add ?_ ih
    cases helements : n.bind Node.elements? with
    | none => exact Nat.zero_le _
    | some items =>
      obtain ⟨m, rfl, hm⟩ := Option.bind_eq_some_iff.1 helements
      exact (weight_some items).trans_le (size_of_elements? hm).le

theorem weight_step (step : Segment) (nodes : List (Option Node)) :
    weight (nodes.map fun n => n.bind fun m => m.step? step) ≤ weight nodes := by
  induction nodes with
  | nil => exact le_rfl
  | cons n nodes ih =>
    rw [List.map_cons, weight_cons, weight_cons]
    refine Nat.add_le_add ?_ ih
    cases hstep : n.bind fun m => m.step? step with
    | none => exact Nat.zero_le _
    | some c =>
      obtain ⟨m, rfl, hm⟩ := Option.bind_eq_some_iff.1 hstep
      exact Node.size_le_of_mem_parts (Node.mem_parts_of_step? hm)

theorem weight_resolveSteps (steps : List Segment) (nodes : List (Option Node)) :
    weight (resolveSteps steps nodes) ≤ weight nodes := by
  induction steps generalizing nodes with
  | nil => exact le_rfl
  | cons step steps ih =>
    cases step with
    | wildcard => exact (ih _).trans (weight_wildcard nodes)
    | key name => exact (ih _).trans (weight_step (.key name) nodes)
    | index i => exact (ih _).trans (weight_step (.index i) nodes)

theorem size_follow {n m : Node} {steps : List Segment} (h : follow n steps = some m) :
    m.size ≤ n.size := by
  induction steps generalizing n with
  | nil => exact (Option.some.inj h) ▸ le_rfl
  | cons step steps ih =>
    obtain ⟨c, hc, hm⟩ := Option.bind_eq_some_iff.1 h
    exact (ih hm).trans (Node.size_le_of_mem_parts (Node.mem_parts_of_step? hc))

theorem mem_of_anchor {name : String} {path : Option Path} {n : Node} {steps : List Segment}
    (h : anchor bindings name path = .ok (n, steps)) : ∃ x, (x, n) ∈ bindings := by
  unfold anchor at h
  split at h
  · cases h
  · rename_i x steps _
    split at h
    · rename_i hfind
      cases h
      exact ⟨x, mem_of_find? hfind⟩
    · cases h
  · cases h

/-- A range has no more elements than one of the bound nodes has nodes below it. -/
theorem length_elements (h : elements bindings f = .ok nodes) :
    ∃ b ∈ bindings, nodes.length ≤ b.2.size := by
  cases f with
  | field name path =>
    rw [elements] at h
    split at h
    · cases h
    · rename_i n steps hanchor
      obtain ⟨x, hmem⟩ := mem_of_anchor hanchor
      refine ⟨(x, n), hmem, ?_⟩
      split at h
      · obtain rfl := Except.ok.inj h
        refine (length_le_weight _).trans ((weight_resolveSteps steps [some n]).trans ?_)
        simp [weight]
      · split at h
        · rename_i items hitems
          obtain rfl := Except.ok.inj h
          obtain ⟨m, hm, helements⟩ := Option.bind_eq_some_iff.1 hitems
          have hlength : items.length ≤ (items.map Node.size).sum := by
            rw [← weight_some]
            simpa using length_le_weight (items.map some)
          exact hlength.trans ((size_of_elements? helements).le.trans (size_follow hm))
        · cases h
  | _ => cases h

/-! ### Counts -/

variable {range : String} {q : Quantifier} {ss : List Scalar}

theorem countTrue_le {n m : Nat} (h : countTrue range q n ss = .ok m) : m ≤ n + ss.length := by
  induction ss generalizing n with
  | nil => exact (Except.ok.inj h).ge
  | cons s ss ih =>
    rw [List.length_cons]
    cases s with
    | bool b =>
      cases b with
      | true =>
        have hle := ih (show countTrue range q (n + 1) ss = .ok m from h)
        omega
      | false =>
        have hle := ih (show countTrue range q n ss = .ok m from h)
        omega
    | null =>
      have hle := ih (show countTrue range q n ss = .ok m from h)
      omega
    | _ => cases h

/-- All quantifiers count alike, or fail alike. -/
theorem countTrue_cases (range : String) (q q' : Quantifier) (ss : List Scalar) :
    (∃ n, n ≤ ss.length ∧ countTrue range q 0 ss = .ok n ∧ countTrue range q' 0 ss = .ok n) ∨
      ∃ s s', countTrue range q 0 ss = .error s ∧ countTrue range q' 0 ss = .error s' ∧
        s.muted = s'.muted ∧ s'.isError = true := by
  rcases mapError_muted_cases (mapError_countTrue range range q' q 0 ss) with
    ⟨n, hn, hn'⟩ | ⟨s', s, hs, hs', heq⟩
  · have hle := countTrue_le hn
    rw [Nat.zero_add] at hle
    exact .inl ⟨n, hle, hn, hn'⟩
  · exact .inr ⟨s, s', hs, hs', heq, countTrue_error hs'⟩

theorem greater_zero {n : Nat} (h : n < 2 ^ 63) :
    (Scalar.long (Int64.ofNat n)).greater (.long 0) = .bool (0 < n) := by
  have hvalue : (Scalar.long (Int64.ofNat n)).greater (.long 0) =
      .bool (compare (Int64.ofNat n) 0).isGT := rfl
  rw [hvalue, Scalar.bool.injEq, Bool.eq_iff_iff, Ordering.isGT_iff_eq_gt, Std.compare_eq_gt,
    Int64.lt_iff_toInt_lt, Int64.toInt_ofNat_of_lt h, decide_eq_true_iff]
  exact Int.natCast_pos

theorem equals_count {m n : Nat} (hm : m < 2 ^ 63) (hn : n < 2 ^ 63) :
    (Scalar.long (Int64.ofNat m)).equals (.long (Int64.ofNat n)) = .bool (m = n) := by
  have hvalue : (Scalar.long (Int64.ofNat m)).equals (.long (Int64.ofNat n)) =
      .bool (Int64.ofNat m == Int64.ofNat n) := rfl
  rw [hvalue, Scalar.bool.injEq, Bool.eq_iff_iff, beq_iff_eq, decide_eq_true_iff,
    ← Int64.toInt_inj, Int64.toInt_ofNat_of_lt hm, Int64.toInt_ofNat_of_lt hn]
  exact Int.natCast_inj

/-! ### Quantifiers -/

theorem eval_quantifier (q : Quantifier) (hnodes : elements bindings f = .ok nodes) :
    eval bindings (.quantifier q f x p) =
      .single (quantified f.text q (elementValues bindings x p nodes)) := by
  rw [eval, hnodes]
  rfl

theorem eval_quantifier_error (q : Quantifier) {s : Scalar} (h : elements bindings f = .error s) :
    eval bindings (.quantifier q f x p) = .single s := by
  rw [eval, h]

/-- What a quantifier answers if `n` predicates of `total` hold. -/
def answer (q : Quantifier) (n total : Nat) : Scalar :=
  match q with
  | .any => .bool (0 < n)
  | .all => .bool (n = total)
  | .count => .long (Int64.ofNat n)

theorem quantified_of_ok {n : Nat} (h : countTrue range q 0 ss = .ok n) :
    quantified range q ss = answer q n ss.length := by
  rw [quantified, h]
  rfl

theorem quantified_of_error {s : Scalar} (h : countTrue range q 0 ss = .error s) :
    quantified range q ss = s := by
  rw [quantified, h]

variable {op : BinaryOp} {r : Expr} {b s : Scalar}

theorem muted_eval_of_error (hs : eval bindings f = .single s) (hr : eval bindings r = .single b)
    (herror : s.isError = true) : (eval bindings (.binary op f r)).muted = .single s.muted := by
  rw [eval, hs, hr, muted_annotate]
  show Result.single (op.apply s b).muted = _
  rw [op.apply_of_firstError? (Scalar.firstError?_of_isError herror b) herror]

/-- An operation on the count gives what a quantifier gives if it does for every count. -/
theorem muted_eval_counted (hnodes : elements bindings f = .ok nodes)
    (hr : eval bindings r = .single b)
    (h : ∀ n ≤ nodes.length, answer q n nodes.length = op.apply (.long (Int64.ofNat n)) b) :
    (eval bindings (.quantifier q f x p)).muted =
      (eval bindings (.binary op (.quantifier .count f x p) r)).muted := by
  have hcount := eval_quantifier (x := x) (p := p) .count hnodes
  have hlength : (elementValues bindings x p nodes).length = nodes.length := List.length_map _
  rw [eval_quantifier q hnodes, Result.muted_single]
  rcases countTrue_cases f.text q .count (elementValues bindings x p nodes) with
    ⟨n, hle, hn, hn'⟩ | ⟨s, s', hs, hs', heq, herror⟩
  · rw [hlength] at hle
    rw [quantified_of_ok hn'] at hcount
    rw [quantified_of_ok hn, hlength, h n hle, eval, hcount, hr, muted_annotate]
    rfl
  · rw [quantified_of_error hs'] at hcount
    rw [quantified_of_error hs, muted_eval_of_error hcount hr herror, heq]

theorem muted_eval_any
    (hshort : ∀ nodes, elements bindings f = .ok nodes → nodes.length < 2 ^ 63) :
    (eval bindings (.quantifier .any f x p)).muted =
      (eval bindings
        (.binary .greaterThan (.quantifier .count f x p) (.literal (.long 0)))).muted := by
  cases hnodes : elements bindings f with
  | error s =>
    rw [muted_eval_of_error (eval_quantifier_error .count hnodes) rfl (elements_error hnodes),
      eval_quantifier_error .any hnodes, Result.muted_single]
  | ok nodes =>
    refine muted_eval_counted hnodes rfl fun n hn => ?_
    exact (greater_zero (hn.trans_lt (hshort nodes hnodes))).symm

theorem muted_eval_all
    (hshort : ∀ nodes, elements bindings f = .ok nodes → nodes.length < 2 ^ 63) :
    (eval bindings (.quantifier .all f x p)).muted =
      (eval bindings (.binary .equal (.quantifier .count f x p) (.count f))).muted := by
  cases hnodes : elements bindings f with
  | error s =>
    have hall : eval bindings (.count f) = .single s := by rw [eval, hnodes]
    rw [muted_eval_of_error (eval_quantifier_error .count hnodes) hall (elements_error hnodes),
      eval_quantifier_error .all hnodes, Result.muted_single]
  | ok nodes =>
    have hall : eval bindings (.count f) = .single (.long (Int64.ofNat nodes.length)) := by
      rw [eval, hnodes]
    have hlength := hshort nodes hnodes
    refine muted_eval_counted hnodes hall fun n hn => ?_
    exact (equals_count (hn.trans_lt hlength) hlength).symm

/-! ### Negated predicates -/

theorem countTrue_bools (range : String) (q : Quantifier) (n : Nat) (bs : List Bool) :
    countTrue range q n (bs.map .bool) = .ok (n + bs.count true) := by
  induction bs generalizing n with
  | nil => rfl
  | cons b bs ih =>
    cases b with
    | true =>
      rw [List.count_cons_self, Nat.add_comm _ 1, ← Nat.add_assoc]
      exact ih (n + 1)
    | false =>
      rw [List.count_cons_of_ne (by simp)]
      exact ih n

theorem exists_bools (h : ∀ s ∈ ss, ∃ b, s = .bool b) : ∃ bs : List Bool, ss = bs.map .bool := by
  induction ss with
  | nil => exact ⟨[], rfl⟩
  | cons s ss ih =>
    obtain ⟨⟨b, rfl⟩, hss⟩ := List.forall_mem_cons.1 h
    obtain ⟨bs, rfl⟩ := ih hss
    exact ⟨b :: bs, rfl⟩

theorem eval_not_bool {b : Bool} (h : (eval bindings p).toScalar = .bool b) :
    eval bindings (.not p) = .single (.bool !b) := by
  rw [eval, h]
  rfl

theorem elementValues_not {bs : List Bool} (h : elementValues bindings x p nodes = bs.map .bool) :
    elementValues bindings x (.not p) nodes = (bs.map (!·)).map .bool := by
  have hnot : ∀ n ∈ nodes, (eval ((x, n) :: bindings) (.not p)).toScalar =
      (eval ((x, n) :: bindings) p).toScalar.not := by
    intro n hn
    obtain ⟨b, -, hb⟩ : ∃ b ∈ bs, Scalar.bool b = (eval ((x, n) :: bindings) p).toScalar :=
      List.mem_map.1 (h ▸ List.mem_map_of_mem hn)
    rw [eval_not_bool hb.symm, ← hb]
    rfl
  calc elementValues bindings x (.not p) nodes
      = (elementValues bindings x p nodes).map Scalar.not := by
        rw [elementValues, elementValues, List.map_map]
        exact List.map_congr_left hnot
    _ = (bs.map (!·)).map .bool := by
        rw [h, List.map_map, List.map_map]
        rfl

theorem count_not_eq_zero_iff (bs : List Bool) :
    (bs.map (!·)).count true = 0 ↔ bs.count true = bs.length := by
  rw [List.count_eq_zero, List.count_eq_length]
  simp

theorem eval_all_of_bools
    (h : ∀ nodes, elements bindings f = .ok nodes →
      ∀ s ∈ elementValues bindings x p nodes, ∃ b, s = .bool b) :
    eval bindings (.quantifier .all f x p) =
      eval bindings (.not (.quantifier .any f x (.not p))) := by
  cases hnodes : elements bindings f with
  | error s =>
    rw [eval_quantifier_error .all hnodes,
      eval_not_failing (eval_quantifier_error .any hnodes) (elements_error hnodes)]
  | ok nodes =>
    obtain ⟨bs, hbs⟩ := exists_bools (h nodes hnodes)
    have hall : eval bindings (.quantifier .all f x p) =
        .single (.bool (bs.count true = bs.length)) := by
      rw [eval_quantifier .all hnodes, hbs, quantified_of_ok (countTrue_bools _ _ 0 bs),
        List.length_map, Nat.zero_add]
      rfl
    have hany : eval bindings (.quantifier .any f x (.not p)) =
        .single (.bool (0 < (bs.map (!·)).count true)) := by
      rw [eval_quantifier .any hnodes, elementValues_not hbs,
        quantified_of_ok (countTrue_bools _ _ 0 _), Nat.zero_add]
      rfl
    have hiff : bs.count true = bs.length ↔ ¬ 0 < (bs.map (!·)).count true := by
      rw [← count_not_eq_zero_iff]
      omega
    rw [hall, eval_not_bool (congrArg Result.toScalar hany), ← decide_not]
    simp only [hiff]

/-! ### Documents -/

section

variable {depth : Nat} {input : Bytes} {d : Document}

theorem length_elements_of_read (hd : Document.read depth input = .ok d)
    (hbound : ∀ b ∈ bindings, ∃ id, d.node? id = some b.2)
    (h : elements bindings f = .ok nodes) : nodes.length ≤ input.length := by
  obtain ⟨b, hb, hlength⟩ := length_elements h
  obtain ⟨id, hid⟩ := hbound b hb
  exact hlength.trans ((Document.size_node_le hid).trans (Document.size_le hd))

/-- In the nodes of a document whose text has fewer than `2 ^ 63` bytes, that a predicate holds of
some element is that the count of those is positive, and that it holds of all elements is that the
count is the number of elements, up to the messages of errors. If it is true or false of each
element, it holds of all exactly if its negation does not hold of any. -/
theorem eval_quantifiers (hd : Document.read depth input = .ok d) (hlen : input.length < 2 ^ 63)
    (hbound : ∀ b ∈ bindings, ∃ id, d.node? id = some b.2) (f p : Expr) (x : String) :
    (eval bindings (.quantifier .any f x p)).muted =
      (eval bindings
        (.binary .greaterThan (.quantifier .count f x p) (.literal (.long 0)))).muted ∧
    (eval bindings (.quantifier .all f x p)).muted =
      (eval bindings (.binary .equal (.quantifier .count f x p) (.count f))).muted ∧
    ((∀ nodes, elements bindings f = .ok nodes →
        ∀ s ∈ elementValues bindings x p nodes, ∃ b, s = .bool b) →
      eval bindings (.quantifier .all f x p) =
        eval bindings (.not (.quantifier .any f x (.not p)))) := by
  have hshort : ∀ nodes, elements bindings f = .ok nodes → nodes.length < 2 ^ 63 :=
    fun nodes h => (length_elements_of_read hd hbound h).trans_lt hlen
  exact ⟨muted_eval_any hshort, muted_eval_all hshort, eval_all_of_bools⟩

/-- The messages differ where a predicate is a number. -/
theorem eval_quantifiers_of_number :
    let field (name : String) : Expr := .field name (some [.key name])
    let any : Expr := .quantifier .any (field "o") "x" (field "x")
    let counted : Expr := .quantifier .count (field "o") "x" (field "x")
    let positive : Expr := .binary .greaterThan counted (.literal (.long 0))
    let root : Node := .array ⟨0, ⟨0, 8⟩⟩ [.atom ⟨1, ⟨1, 5⟩⟩ (.bool true),
      .atom ⟨2, ⟨6, 7⟩⟩ (.long 1)]
    let d : Document := ⟨512, some root⟩
    Document.read 512 (bytes "[true,1]") = .ok d ∧ (bytes "[true,1]").length < 2 ^ 63 ∧
      (∀ b ∈ [("o", root)], ∃ id, d.node? id = some b.2) ∧
      (eval [("o", root)] any).muted = (eval [("o", root)] positive).muted ∧
      eval [("o", root)] any =
        .single (.error "predicate of o.Any must be bool, got 1 (long)") ∧
      eval [("o", root)] positive =
        .single (.error "predicate of o.Count must be bool, got 1 (long)") := by
  intro field any counted positive root d
  have hd : Document.read 512 (bytes "[true,1]") = .ok d := by cbv
  have hlen : (bytes "[true,1]").length < 2 ^ 63 := by decide
  have hbound : ∀ b ∈ [("o", root)], ∃ id, d.node? id = some b.2 := by
    rw [List.forall_mem_singleton]
    exact ⟨0, rfl⟩
  exact ⟨hd, hlen, hbound, (eval_quantifiers hd hlen hbound (field "o") (field "x") "x").1,
    by rfl, by rfl⟩

end

end Expr

end Quarry
