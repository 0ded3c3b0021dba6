import Quarry.Proofs.Document.Equality
import Quarry.Proofs.Document.Pointers
import Quarry.Proofs.Document.Printing

/-!
Comparing a node with a JSON value is structural equality. An object is read as the map from its
names to the last member of each name, and numbers are equal by value.
-/

namespace Quarry

open Json

namespace Node

/-- A node and a JSON value of one structure. Of the members of one name only the last counts. -/
inductive Matches : Node → Value → Prop
  | null (m : Mark) : Matches (.atom m .null) .null
  | bool (m : Mark) (b : Bool) : Matches (.atom m (.bool b)) (.bool b)
  | string (m : Mark) (s : String) : Matches (.atom m (.string s)) (.string s)
  | number (m : Mark) {a : Atom} {x : Number} (isNumber : a.toScalar.isNumber = true)
      (equal : a.toScalar.equals (Scalar.ofNumber x) = .bool true) :
      Matches (.atom m a) (.number x)
  | array {m : Mark} {items : List Node} {vs : List Value} (length : items.length = vs.length)
      (each : ∀ (i : Nat) (n : Node) (v : Value), items[i]? = some n → vs[i]? = some v →
        Matches n v) :
      Matches (.array m items) (.array vs)
  | object {m : Mark} {ms : List (String × Node)} {expected : List (String × Value)}
      (same : ∀ k, k ∈ names ms ↔ k ∈ names expected)
      (each : ∀ (k : String) (n : Node) (v : Value), find? k ms.reverse = some n →
        find? k expected = some v → Matches n v) :
      Matches (.object m ms) (.object expected)

/-- Nodes that hold the same, wherever they stand, but for the order of members and for members
that a later one of their name overrides. -/
inductive Same : Node → Node → Prop
  | atom (m m' : Mark) (a : Atom) : Same (.atom m a) (.atom m' a)
  | array {m m' : Mark} {items items' : List Node} (length : items.length = items'.length)
      (each : ∀ (i : Nat) (n n' : Node), items[i]? = some n → items'[i]? = some n' → Same n n') :
      Same (.array m items) (.array m' items')
  | object {m m' : Mark} {ms ms' : List (String × Node)}
      (same : ∀ k, k ∈ names ms ↔ k ∈ names ms')
      (each : ∀ (k : String) (n n' : Node), find? k ms.reverse = some n →
        find? k ms'.reverse = some n' → Same n n') :
      Same (.object m ms) (.object m' ms')

/-! ### Atoms -/

theorem equals_null_iff (a : Atom) : a.toScalar.equals .null = .bool true ↔ a = .null := by
  cases a <;> simp [Atom.toScalar, Scalar.equals, Scalar.firstError?, Scalar.isError]

theorem equals_bool_iff (a : Atom) (b : Bool) :
    a.toScalar.equals (.bool b) = .bool true ↔ a = .bool b := by
  cases a <;>
    simp [Atom.toScalar, Scalar.equals, Scalar.firstError?, Scalar.isError, Scalar.toFloat?,
      Scalar.incompatible]

theorem equals_string_iff (a : Atom) (s : String) :
    a.toScalar.equals (.string s) = .bool true ↔ a = .string s := by
  cases a <;>
    simp [Atom.toScalar, Scalar.equals, Scalar.firstError?, Scalar.isError, Scalar.toFloat?,
      Scalar.incompatible]

theorem isNumber_ofNumber (x : Number) : (Scalar.ofNumber x).isNumber = true := by
  cases x with
  | int n =>
    rw [Scalar.ofNumber]
    split <;> rfl
  | float x => rfl

theorem isNumber_of_equals {a : Atom} {x : Number}
    (h : a.toScalar.equals (Scalar.ofNumber x) = .bool true) : a.toScalar.isNumber = true := by
  have hx := isNumber_ofNumber x
  generalize Scalar.ofNumber x = s at h hx
  cases s <;> simp [Scalar.isNumber] at hx <;> cases a <;>
    simp [Atom.toScalar, Scalar.equals, Scalar.firstError?, Scalar.isError, Scalar.toFloat?,
      Scalar.incompatible, Scalar.isNumber] at h ⊢

theorem atomEquals_iff {n : Node} {v : Value} :
    n.atomEquals v = true ↔
      ∃ m a, n = .atom m a ∧ a.toScalar.equals (Scalar.ofJson v) = .bool true := by
  cases n with
  | atom m a => simp [atomEquals]
  | array m items => simp [atomEquals]
  | object m ms => simp [atomEquals]

/-! ### Containers -/

theorem itemsEqual_iff {ns : List Node} {vs : List Value} :
    itemsEqual ns vs = true ↔ ns.length = vs.length ∧
      ∀ (i : Nat) (n : Node) (v : Value), ns[i]? = some n → vs[i]? = some v →
        n.equalsJson v = true := by
  induction ns generalizing vs with
  | nil => cases vs <;> simp [itemsEqual]
  | cons n ns ih =>
    cases vs with
    | nil => simp [itemsEqual]
    | cons v vs =>
      rw [itemsEqual, Bool.and_eq_true, ih, List.length_cons, List.length_cons,
        Nat.add_right_cancel_iff]
      constructor
      · rintro ⟨hhead, hlength, htail⟩
        refine ⟨hlength, fun i m w hm hw => ?_⟩
        cases i with
        | zero =>
          obtain rfl := Option.some.inj hm
          obtain rfl := Option.some.inj hw
          exact hhead
        | succ i => exact htail i m w hm hw
      · rintro ⟨hlength, heach⟩
        exact ⟨heach 0 n v rfl rfl, hlength, fun i => heach (i + 1)⟩

theorem membersEqual_iff {n : Node} {expected : List (String × Value)} :
    membersEqual n expected = true ↔
      ∀ m ∈ expected, ∃ c, n.member? m.1 = some c ∧ c.equalsJson m.2 = true := by
  induction expected with
  | nil => simp [membersEqual]
  | cons m expected ih =>
    obtain ⟨k, v⟩ := m
    rw [membersEqual, Bool.and_eq_true, ih, List.forall_mem_cons]
    cases n.member? k <;> simp

theorem any_fst_iff {k : String} {ms : List (String × Node)} :
    ms.any (·.1 == k) = true ↔ k ∈ names ms := by
  simp [names]

theorem distinctNames_eq_card (ms : List (String × Node)) :
    distinctNames ms = (names ms).toFinset.card := by
  induction ms with
  | nil => rfl
  | cons m ms ih =>
    rw [distinctNames, names_cons, List.toFinset_cons, ih]
    split
    · rename_i h
      rw [Finset.insert_eq_of_mem (List.mem_toFinset.2 (any_fst_iff.1 h))]
    · rename_i h
      rw [Finset.card_insert_of_notMem (mt List.mem_toFinset.1 (mt any_fst_iff.2 h)), Nat.add_comm]

theorem distinctNames_eq_iff {ms : List (String × Node)} {expected : List (String × Value)}
    (nodup : (names expected).Nodup) (hsub : ∀ k ∈ names expected, k ∈ names ms) :
    distinctNames ms = expected.length ↔ ∀ k, k ∈ names ms ↔ k ∈ names expected := by
  have hsubset : (names expected).toFinset ⊆ (names ms).toFinset := by
    intro k hk
    rw [List.mem_toFinset] at hk ⊢
    exact hsub k hk
  have hcard : (names expected).toFinset.card = expected.length := by
    rw [List.toFinset_card_of_nodup nodup, names, List.length_map]
  rw [distinctNames_eq_card, ← hcard]
  constructor
  · intro h k
    have hall := Finset.eq_of_subset_of_card_le hsubset h.le
    rw [← List.mem_toFinset, ← hall, List.mem_toFinset]
  · intro h
    congr 1
    ext k
    rw [List.mem_toFinset, List.mem_toFinset, h]

theorem distinctNames_eq_countP {mark : Mark} {ms : List (String × Node)}
    (hn : (Node.object mark ms).ids.Nodup) :
    distinctNames ms =
      ms.countP fun m => ((Node.object mark ms).member? m.1).map id = some m.2.id := by
  rw [ids_eq, List.nodup_cons] at hn
  replace hn := hn.2
  induction ms with
  | nil => rfl
  | cons m ms ih =>
    have hrest : ∀ k ∈ names ms, (Node.object mark (m :: ms)).member? k =
        (Node.object mark ms).member? k := by
      intro k hk
      have hfound : (find? k ms.reverse).isSome := find?_isSome.2 (mem_names_reverse.2 hk)
      rw [member?, member?, List.reverse_cons, find?_append, Option.or_of_isSome hfound]
    obtain ⟨-, hms, hapart⟩ := List.nodup_append.1 hn
    rw [distinctNames, ih hms, List.countP_cons]
    have hcount :
        (ms.countP fun n => ((Node.object mark (m :: ms)).member? n.1).map id = some n.2.id) =
          ms.countP fun n => ((Node.object mark ms).member? n.1).map id = some n.2.id :=
      List.countP_congr fun n hmem => by rw [hrest n.1 (mem_names hmem)]
    rw [hcount]
    by_cases hm : m.1 ∈ names ms
    · -- A later member of that name is found, which has another number.
      obtain ⟨c, hc⟩ := Option.isSome_iff_exists.1 (find?_isSome.2 (mem_names_reverse.2 hm))
      have hpart : c ∈ ms.map Prod.snd :=
        List.mem_map.2 ⟨_, List.mem_reverse.1 (mem_of_find? hc), rfl⟩
      have hne : m.2.id ≠ c.id :=
        hapart _ (id_mem_ids m.2) _ (List.mem_flatMap.2 ⟨c, hpart, id_mem_ids c⟩)
      have hfound : (Node.object mark ms).member? m.1 = some c := hc
      simp [any_fst_iff.2 hm, hrest m.1 hm, hfound, hne.symm]
    · have hany : ms.any (·.1 == m.1) = false := Bool.eq_false_iff.2 (mt any_fst_iff.1 hm)
      have hfound : (Node.object mark (m :: ms)).member? m.1 = some m.2 := by
        have hnone : find? m.1 ms.reverse = none := find?_eq_none.2 (mt mem_names_reverse.1 hm)
        rw [member?, List.reverse_cons, find?_append, hnone, Option.none_or, find?_cons, if_pos rfl]
      simp [hany, hfound, Nat.add_comm]

/-! ### Structural equality -/

theorem equalsJson_iff_matches {v : Value} (hv : v.Distinct) (n : Node) :
    n.equalsJson v = true ↔ n.Matches v := by
  induction hv generalizing n with
  | null =>
    rw [equalsJson, atomEquals_iff]
    constructor
    · rintro ⟨m, a, rfl, h⟩
      obtain rfl := (equals_null_iff a).1 h
      exact .null m
    · rintro ⟨m⟩
      exact ⟨m, .null, rfl, (equals_null_iff _).2 rfl⟩
  | bool b =>
    rw [equalsJson, atomEquals_iff]
    constructor
    · rintro ⟨m, a, rfl, h⟩
      obtain rfl := (equals_bool_iff a b).1 h
      exact .bool m b
    · rintro ⟨m⟩
      exact ⟨_, .bool b, rfl, (equals_bool_iff _ b).2 rfl⟩
  | number x =>
    rw [equalsJson, atomEquals_iff]
    constructor
    · rintro ⟨m, a, rfl, h⟩
      exact .number m (isNumber_of_equals h) h
    · intro h
      cases h with
      | number m _ equal => exact ⟨m, _, rfl, equal⟩
  | string s =>
    rw [equalsJson, atomEquals_iff]
    constructor
    · rintro ⟨m, a, rfl, h⟩
      obtain rfl := (equals_string_iff a s).1 h
      exact .string m s
    · rintro ⟨m⟩
      exact ⟨_, .string s, rfl, (equals_string_iff _ s).2 rfl⟩
  | @array vs all ih =>
    cases n with
    | atom m a => simp only [equalsJson, Bool.false_eq_true, false_iff]; nofun
    | object m ms => simp only [equalsJson, Bool.false_eq_true, false_iff]; nofun
    | array m items =>
      rw [equalsJson, itemsEqual_iff]
      constructor
      · rintro ⟨hlength, heach⟩
        refine .array hlength fun i n v hn hv => ?_
        exact (ih v (List.mem_of_getElem? hv) n).1 (heach i n v hn hv)
      · intro h
        cases h with
        | array hlength heach =>
          refine ⟨hlength, fun i n v hn hv => ?_⟩
          exact (ih v (List.mem_of_getElem? hv) n).2 (heach i n v hn hv)
  | @object expected nodup all ih =>
    cases n with
    | atom m a => simp only [equalsJson, Bool.false_eq_true, false_iff]; nofun
    | array m ms => simp only [equalsJson, Bool.false_eq_true, false_iff]; nofun
    | object m ms =>
      rw [equalsJson, Bool.and_eq_true, beq_iff_eq, membersEqual_iff]
      constructor
      · rintro ⟨hcount, hmembers⟩
        have hsub : ∀ k ∈ names expected, k ∈ names ms := by
          intro k hk
          obtain ⟨m', hm', rfl⟩ := List.mem_map.1 hk
          obtain ⟨c, hc, -⟩ := hmembers m' hm'
          exact mem_names_reverse.1 (mem_names (mem_of_find? hc))
        -- The count leaves no room for a name that is not expected.
        refine .object ((distinctNames_eq_iff nodup hsub).1 hcount) fun k n v hn hv => ?_
        obtain ⟨c, hc, he⟩ := hmembers (k, v) (mem_of_find? hv)
        obtain rfl := Option.some.inj (hc.symm.trans hn)
        exact (ih (k, v) (mem_of_find? hv) c).1 he
      · intro h
        cases h with
        | object same each =>
          refine ⟨(distinctNames_eq_iff nodup fun k => (same k).2).2 same, ?_⟩
          rintro ⟨k, v⟩ hmem
          have hk : k ∈ names ms.reverse := mem_names_reverse.2 ((same k).2 (mem_names hmem))
          obtain ⟨c, hc⟩ := Option.isSome_iff_exists.1 (find?_isSome.2 hk)
          exact ⟨c, hc, (ih (k, v) hmem c).2 (each k c v hc (find?_of_mem nodup hmem))⟩

/-! ### What does not matter -/

theorem Matches.of_same {n n' : Node} {v : Value} (h : n.Matches v) (hs : Same n n') :
    n'.Matches v := by
  induction h generalizing n' with
  | null m =>
    cases hs with
    | atom _ m' => exact .null m'
  | bool m b =>
    cases hs with
    | atom _ m' => exact .bool m' b
  | string m s =>
    cases hs with
    | atom _ m' => exact .string m' s
  | number m isNumber equal =>
    cases hs with
    | atom _ m' => exact .number m' isNumber equal
  | @array _ items _ length each ih =>
    cases hs with
    | array length' each' =>
      refine .array (length'.symm.trans length) fun i n' v hn' hv => ?_
      have hi : i < items.length := by
        rw [length']
        exact (List.getElem?_eq_some_iff.1 hn').1
      have hn := List.getElem?_eq_getElem hi
      exact ih i _ v hn hv (each' i _ n' hn hn')
  | @object _ ms _ same each ih =>
    cases hs with
    | object same' each' =>
      refine .object (fun k => (same' k).symm.trans (same k)) fun k n' v hn' hv => ?_
      have hk : k ∈ names ms.reverse :=
        mem_names_reverse.2 ((same k).2 (mem_names (mem_of_find? hv)))
      obtain ⟨n, hn⟩ := Option.isSome_iff_exists.1 (find?_isSome.2 hk)
      exact ih k n v hn hv (each' k n n' hn hn')

theorem Same.symm {n n' : Node} (h : Same n n') : Same n' n := by
  induction h with
  | atom m m' a => exact .atom m' m a
  | array length each ih => exact .array length.symm fun i n n' hn hn' => ih i n' n hn' hn
  | object same each ih =>
    exact .object (fun k => (same k).symm) fun k n n' hn hn' => ih k n' n hn' hn

theorem matches_iff_of_same {n n' : Node} (h : Same n n') (v : Value) :
    n.Matches v ↔ n'.Matches v :=
  ⟨fun hm => hm.of_same h, fun hm => hm.of_same h.symm⟩

theorem find?_canonical {expected : List (String × Value)} (nodup : (names expected).Nodup)
    (k : String) : find? k (sortMembers (Value.canonicalMembers expected)) =
      (find? k expected).map Value.canonical := by
  rw [find?_sortMembers, Value.canonicalMembers_eq_map, find?_reverse (by rwa [names_map]),
    find?_map]

theorem matches_canonical {v : Value} (hv : v.Distinct) (n : Node) :
    n.Matches v.canonical ↔ n.Matches v := by
  induction hv generalizing n with
  | null => rfl
  | bool b => rfl
  | number x => rfl
  | string s => rfl
  | @array vs all ih =>
    rw [Value.canonical, Value.canonicalItems_eq_map]
    constructor
    · intro h
      cases h with
      | array length each =>
        refine .array (by rwa [List.length_map] at length) fun i n v hn hv => ?_
        refine (ih v (List.mem_of_getElem? hv) n).1 (each i n _ hn ?_)
        rw [List.getElem?_map, hv, Option.map_some]
    · intro h
      cases h with
      | array length each =>
        refine .array (by rwa [List.length_map]) fun i n w hn hw => ?_
        rw [List.getElem?_map] at hw
        obtain ⟨v, hv, rfl⟩ := Option.map_eq_some_iff.1 hw
        exact (ih v (List.mem_of_getElem? hv) n).2 (each i n v hn hv)
  | @object expected nodup all ih =>
    have hnames : ∀ k, k ∈ names (sortMembers (Value.canonicalMembers expected)) ↔
        k ∈ names expected := by
      intro k
      rw [← find?_isSome, find?_canonical nodup, Option.isSome_map, find?_isSome]
    rw [Value.canonical]
    constructor
    · intro h
      cases h with
      | object same each =>
        refine .object (fun k => (same k).trans (hnames k)) fun k n v hn hv => ?_
        refine (ih (k, v) (mem_of_find? hv) n).1 (each k n _ hn ?_)
        rw [find?_canonical nodup, hv, Option.map_some]
    · intro h
      cases h with
      | object same each =>
        refine .object (fun k => (same k).trans (hnames k).symm) fun k n w hn hw => ?_
        rw [find?_canonical nodup] at hw
        obtain ⟨v, hv, rfl⟩ := Option.map_eq_some_iff.1 hw
        exact (ih (k, v) (mem_of_find? hv) n).2 (each k n v hn hv)

/-- A node equals a JSON value exactly when it has the structure of the value. Neither the order
of members nor a member that is overridden makes a difference. -/
theorem equalsJson_iff {v : Value} (hv : v.Distinct) (n : Node) :
    (n.equalsJson v = true ↔ n.Matches v) ∧
    (∀ n', n.Same n' → n'.equalsJson v = n.equalsJson v) ∧
    ∀ w : Value, w.Distinct → w.canonical = v.canonical → n.equalsJson w = n.equalsJson v := by
  refine ⟨equalsJson_iff_matches hv n, fun n' h => ?_, fun w hw h => ?_⟩
  · rw [Bool.eq_iff_iff, equalsJson_iff_matches hv, equalsJson_iff_matches hv]
    exact (matches_iff_of_same h v).symm
  · rw [Bool.eq_iff_iff, equalsJson_iff_matches hw, equalsJson_iff_matches hv,
      ← matches_canonical hw, h, matches_canonical hv]

theorem equalsJson_iff_repeated_name :
    (Value.object [("a", .number (.int 2)), ("b", .null)]).Distinct ∧
      (Node.object ⟨0, 0, 23⟩ [("a", .atom ⟨1, 5, 6⟩ (.long 1)), ("b", .atom ⟨2, 11, 15⟩ .null),
        ("a", .atom ⟨3, 20, 21⟩ (.long 2))]).Matches
          (.object [("a", .number (.int 2)), ("b", .null)]) ∧
      (Node.object ⟨0, 0, 16⟩ [("b", .atom ⟨1, 5, 9⟩ .null),
        ("a", .atom ⟨2, 14, 15⟩ (.long 2))]).equalsJson
          (.object [("a", .number (.int 2)), ("b", .null)]) = true ∧
      (Node.object ⟨0, 0, 23⟩ [("a", .atom ⟨1, 5, 6⟩ (.long 1)), ("b", .atom ⟨2, 11, 15⟩ .null),
        ("a", .atom ⟨3, 20, 21⟩ (.long 2))]).equalsJson
          (.object [("b", .null), ("a", .number (.int 2))]) = true := by
  have hdistinct : (Value.object [("a", .number (.int 2)), ("b", .null)]).Distinct := by
    refine .object (by decide) ?_
    rintro m (_ | ⟨_, _ | ⟨_, ⟨⟩⟩⟩)
    · exact .number _
    · exact .null
  have hswapped : (Value.object [("b", .null), ("a", .number (.int 2))]).Distinct := by
    refine .object (by decide) ?_
    rintro m (_ | ⟨_, _ | ⟨_, ⟨⟩⟩⟩)
    · exact .null
    · exact .number _
  obtain ⟨hmatches, hsame, hcanonical⟩ := equalsJson_iff hdistinct
    (.object ⟨0, 0, 23⟩ [("a", .atom ⟨1, 5, 6⟩ (.long 1)), ("b", .atom ⟨2, 11, 15⟩ .null),
      ("a", .atom ⟨3, 20, 21⟩ (.long 2))])
  have hequal : (Node.object ⟨0, 0, 23⟩ [("a", .atom ⟨1, 5, 6⟩ (.long 1)),
      ("b", .atom ⟨2, 11, 15⟩ .null), ("a", .atom ⟨3, 20, 21⟩ (.long 2))]).equalsJson
        (.object [("a", .number (.int 2)), ("b", .null)]) = true := by
    decide
  refine ⟨hdistinct, hmatches.1 hequal, ?_, ?_⟩
  · rw [hsame, hequal]
    refine .object (by simp [names]) fun k n n' hn hn' => ?_
    have hk : k ∈ ["b", "a"] := List.mem_reverse.1 (mem_names (mem_of_find? hn'))
    rcases hk with _ | ⟨_, _ | ⟨_, ⟨⟩⟩⟩
    · obtain rfl := Option.some.inj hn
      obtain rfl := Option.some.inj hn'
      exact .atom _ _ .null
    · obtain rfl := Option.some.inj hn
      obtain rfl := Option.some.inj hn'
      exact .atom _ _ (.long 2)
  · rw [hcanonical _ hswapped (by rfl), hequal]

end Node

/-- In a document the members that count are those to which their own name leads. -/
theorem Document.distinctNames_eq_countP {depth k : Nat} {input : Text.Bytes} {d : Document}
    {mark : Mark} {ms : List (String × Node)} (hd : read depth input = .ok d)
    (hn : d.node? k = some (.object mark ms)) :
    Node.distinctNames ms =
      ms.countP fun m => ((Node.object mark ms).member? m.1).map Node.id = some m.2.id := by
  obtain ⟨root, hroot, hn⟩ := Option.bind_eq_some_iff.1 hn
  have hnodup : (Node.object mark ms).ids.Nodup :=
    Node.of_withId? (fun _ h _ hc => Node.nodup_ids_part h hc) (nodup_ids hd hroot) hn
  exact Node.distinctNames_eq_countP hnodup

end Quarry
