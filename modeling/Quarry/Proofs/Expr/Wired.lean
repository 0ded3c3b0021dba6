import Quarry.Expr.Wire
import Quarry.Proofs.Expr.Bare
import Quarry.Proofs.Json.Members
import Quarry.Proofs.Json.Tagged

/-!
The JSON of an expression is read as the expression, in whatever order the members of its objects
stand, if it is not nested deeper than a reader allows.
-/

namespace Quarry.Expr

open Json (names)

/-! ### Nodes as members -/

mutual

/-- How deep the JSON of an expression is nested: every node is an object, and the operands of a
connective are an array in it. -/
def nesting : Expr → Nat
  | .field _ _ => 1
  | .literal _ => 1
  | .unary _ e => e.nesting + 1
  | .binary _ l r => max l.nesting r.nesting + 1
  | .aggregate _ f _ b => max f.nesting b.nesting + 1
  | .count f => f.nesting + 1
  | .connect _ es => nestingAll es + 2
  | .not e => e.nesting + 1
  | .quantifier _ f _ b => max f.nesting b.nesting + 1

def nestingAll : List Expr → Nat
  | [] => 0
  | e :: es => max e.nesting (nestingAll es)

end

/-- The members of a node beside its kind. -/
def fields : Expr → List (String × Json.Value)
  | .field name _ => [("name", .string name)]
  | .literal (.long n) => [("value", .number (.int n.toInt))]
  | .literal (.double x) => [("value", .number (.float x))]
  | .literal (.string s) => [("value", .string s)]
  | .literal (.null) => []
  | .literal (.bool _) => []
  | .unary _ e => [("value", e.toJson)]
  | .binary _ l r => [("left", l.toJson), ("right", r.toJson)]
  | .aggregate _ f x b => [("field", f.toJson), ("arg", .string x), ("array", b.toJson)]
  | .count f => [("field", f.toJson)]
  | .connect _ es => [("operands", .array (allToJson es))]
  | .not e => [("operand", e.toJson)]
  | .quantifier _ f x b => [("field", f.toJson), ("arg", .string x), ("predicate", b.toJson)]

theorem toJson_eq (e : Expr) : e.toJson = tagged e.kind e.fields := by
  cases e with
  | literal a => cases a <;> rfl
  | _ => rfl

theorem names_fields (e : Expr) : (Json.tagName :: names e.fields).Nodup := by
  cases e with
  | literal a => cases a <;> simp [fields, names, Json.tagName]
  | _ => simp [fields, names, Json.tagName]

theorem kinds_contains (e : Expr) : kinds.contains e.kind = true := by
  cases e with
  | literal a =>
    cases a with
    | bool b => cases b <;> rfl
    | _ => rfl
  | unary op => cases op <;> rfl
  | binary op => cases op <;> rfl
  | aggregate op => cases op <;> rfl
  | connect k => cases k <;> rfl
  | quantifier q => cases q <;> rfl
  | _ => rfl

/-! ### Members in any order -/

/-- Puts the members of objects into another order and leaves all else as it is. -/
structure Rearranges (g : Json.Value → Json.Value) : Prop where
  string (s : String) : g (.string s) = .string s
  number (n : Json.Number) : g (.number n) = .number n
  array (vs : List Json.Value) : g (.array vs) = .array (vs.map g)
  object {ms : List (String × Json.Value)} (h : (names ms).Nodup) :
    ∃ ms', g (.object ms) = .object ms' ∧ ms'.Perm (ms.map fun m => (m.1, g m.2))

theorem rearranges_id : Rearranges id :=
  ⟨fun _ => rfl, fun _ => rfl, fun vs => by rw [List.map_id, id],
    fun {ms} _ => ⟨ms, rfl, by simp⟩⟩

section

variable {g : Json.Value → Json.Value}

theorem Rearranges.toJson (hg : Rearranges g) (e : Expr) : ∃ before after,
    g e.toJson = .object (before ++ (Json.tagName, .string e.kind) :: after) ∧
      (before ++ after).Perm (e.fields.map fun m => (m.1, g m.2)) ∧
      (∀ m ∈ before, m.1 ≠ Json.tagName) ∧ ∀ m ∈ after, m.1 ≠ Json.tagName := by
  have hnodup : (names ((Json.tagName, .string e.kind) :: e.fields)).Nodup := names_fields e
  obtain ⟨ms, hobject, hperm⟩ := hg.object hnodup
  rw [List.map_cons, hg.string] at hperm
  obtain ⟨before, after, rfl⟩ := List.append_of_mem (hperm.mem_iff.2 List.mem_cons_self)
  have hrest := (List.perm_middle.symm.trans hperm).cons_inv
  have hname : ∀ m ∈ before ++ after, m.1 ≠ Json.tagName := by
    intro m hm heq
    obtain ⟨m', hm', rfl⟩ := List.mem_map.1 (hrest.mem_iff.1 hm)
    have htag : m'.1 = Json.tagName := heq
    exact (List.nodup_cons.1 (names_fields e)).1 (htag ▸ Json.mem_names hm')
  rw [List.forall_mem_append] at hname
  exact ⟨before, after, by rw [toJson_eq]; exact hobject, hrest, hname⟩

/-! ### Nesting -/

theorem Rearranges.nesting_node (hg : Rearranges g) (e : Expr) : (g e.toJson).nesting =
    Json.Value.nestingMembers (e.fields.map fun m => (m.1, g m.2)) + 1 := by
  obtain ⟨before, after, hobject, hperm, -⟩ := hg.toJson e
  rw [hobject, Json.Value.nesting, Json.Value.nestingMembers_append, Json.Value.nestingMembers,
    Json.Value.nesting, Nat.zero_max, ← Json.Value.nestingMembers_append,
    Json.Value.nestingMembers_perm hperm]

mutual

theorem nesting_toJson (hg : Rearranges g) : (e : Expr) → (g e.toJson).nesting = e.nesting
  | .field _ _ => by
    rw [hg.nesting_node]
    simp only [fields, List.map_cons, List.map_nil, hg.string]
    rfl
  | .literal a => by
    rw [hg.nesting_node]
    cases a <;> simp only [fields, List.map_cons, List.map_nil, hg.string, hg.number] <;> rfl
  | .unary _ e => by
    rw [hg.nesting_node, nesting, ← nesting_toJson hg e]
    exact congrArg Nat.succ (Nat.max_zero _)
  | .binary _ l r => by
    rw [hg.nesting_node, nesting, ← nesting_toJson hg l, ← nesting_toJson hg r]
    exact congrArg (fun n => max _ n + 1) (Nat.max_zero _)
  | .aggregate _ f x b => by
    rw [hg.nesting_node, nesting, ← nesting_toJson hg f, ← nesting_toJson hg b]
    simp only [fields, List.map_cons, List.map_nil, hg.string, Json.Value.nestingMembers,
      Json.Value.nesting, Nat.zero_max, Nat.max_zero]
  | .count f => by
    rw [hg.nesting_node, nesting, ← nesting_toJson hg f]
    exact congrArg Nat.succ (Nat.max_zero _)
  | .connect _ es => by
    rw [hg.nesting_node, nesting, ← nestingItems_allToJson hg es]
    simp only [fields, List.map_cons, List.map_nil, hg.array, Json.Value.nestingMembers,
      Json.Value.nesting, Nat.max_zero]
  | .not e => by
    rw [hg.nesting_node, nesting, ← nesting_toJson hg e]
    exact congrArg Nat.succ (Nat.max_zero _)
  | .quantifier _ f x b => by
    rw [hg.nesting_node, nesting, ← nesting_toJson hg f, ← nesting_toJson hg b]
    simp only [fields, List.map_cons, List.map_nil, hg.string, Json.Value.nestingMembers,
      Json.Value.nesting, Nat.zero_max, Nat.max_zero]

theorem nestingItems_allToJson (hg : Rearranges g) : (es : List Expr) →
    Json.Value.nestingItems ((allToJson es).map g) = nestingAll es
  | [] => rfl
  | e :: es => by
    rw [allToJson, List.map_cons, Json.Value.nestingItems, nesting_toJson hg e,
      nestingItems_allToJson hg es, nestingAll]

end

/-! ### Numbers -/

theorem Rearranges.readable_node (hg : Rearranges g) (e : Expr) :
    (g e.toJson).Readable ↔ ∀ m ∈ e.fields, (g m.2).Readable := by
  obtain ⟨before, after, hobject, hperm, -⟩ := hg.toJson e
  have hmem (m : String × Json.Value) := hperm.mem_iff (a := m)
  rw [hobject, Json.Value.Readable, Json.Value.readableMembers_iff]
  simp only [List.mem_append, List.mem_map] at hmem
  constructor
  · intro h m hm
    have hg := (hmem (m.1, g m.2)).2 ⟨m, hm, rfl⟩
    exact h _ (List.mem_append.2 (hg.imp_right (List.mem_cons_of_mem _)))
  · intro h m hm
    rcases List.mem_append.1 hm with hm | hm
    · obtain ⟨m', hm', rfl⟩ := (hmem m).1 (.inl hm)
      exact h m' hm'
    · rcases List.mem_cons.1 hm with rfl | hm
      · trivial
      · obtain ⟨m', hm', rfl⟩ := (hmem m).1 (.inr hm)
        exact h m' hm'

mutual

theorem readable_toJson (hg : Rearranges g) : (e : Expr) →
    (∀ x, .literal (.double x) ∈ e.nodes → (Json.Number.float x).ReadsBack) →
    (g e.toJson).Readable
  | .field _ _, _ => by
    rw [hg.readable_node, fields, List.forall_mem_singleton, hg.string]
    trivial
  | .literal a, h => by
    rw [hg.readable_node]
    cases a with
    | null => exact List.forall_mem_nil _
    | bool b => exact List.forall_mem_nil _
    | long n =>
      rw [fields, List.forall_mem_singleton, hg.number]
      exact Json.Parser.readsBack_int n.le_toInt (n.toInt_lt.trans (by decide))
    | double x =>
      rw [fields, List.forall_mem_singleton, hg.number]
      exact h x (List.mem_singleton.2 rfl)
    | string s =>
      rw [fields, List.forall_mem_singleton, hg.string]
      trivial
  | .unary _ e, h => by
    rw [hg.readable_node, fields, List.forall_mem_singleton]
    exact readable_toJson hg e fun x hx => h x (by simp [nodes, hx])
  | .binary _ l r, h => by
    rw [hg.readable_node, fields, List.forall_mem_cons, List.forall_mem_singleton]
    exact ⟨readable_toJson hg l fun x hx => h x (by simp [nodes, hx]),
      readable_toJson hg r fun x hx => h x (by simp [nodes, hx])⟩
  | .aggregate _ f _ b, h => by
    rw [hg.readable_node, fields, List.forall_mem_cons, List.forall_mem_cons,
      List.forall_mem_singleton, hg.string]
    exact ⟨readable_toJson hg f fun x hx => h x (by simp [nodes, hx]), trivial,
      readable_toJson hg b fun x hx => h x (by simp [nodes, hx])⟩
  | .count f, h => by
    rw [hg.readable_node, fields, List.forall_mem_singleton]
    exact readable_toJson hg f fun x hx => h x (by simp [nodes, hx])
  | .connect _ es, h => by
    rw [hg.readable_node, fields, List.forall_mem_singleton, hg.array]
    exact readable_allToJson hg es fun x hx => h x (by simp [nodes, hx])
  | .not e, h => by
    rw [hg.readable_node, fields, List.forall_mem_singleton]
    exact readable_toJson hg e fun x hx => h x (by simp [nodes, hx])
  | .quantifier _ f _ b, h => by
    rw [hg.readable_node, fields, List.forall_mem_cons, List.forall_mem_cons,
      List.forall_mem_singleton, hg.string]
    exact ⟨readable_toJson hg f fun x hx => h x (by simp [nodes, hx]), trivial,
      readable_toJson hg b fun x hx => h x (by simp [nodes, hx])⟩

theorem readable_allToJson (hg : Rearranges g) : (es : List Expr) →
    (∀ x, .literal (.double x) ∈ nodesAll es → (Json.Number.float x).ReadsBack) →
    Json.Value.ReadableItems ((allToJson es).map g)
  | [], _ => trivial
  | e :: es, h => by
    rw [nodesAll] at h
    exact ⟨readable_toJson hg e fun x hx => h x (List.mem_append_left _ hx),
      readable_allToJson hg es fun x hx => h x (List.mem_append_right _ hx)⟩

end

/-! ### Decoding -/

theorem decodeItems_eq (vs : List Json.Value) : decodeItems vs = vs.map decode := by
  induction vs with
  | nil => rfl
  | cons v vs ih => rw [decodeItems, ih, List.map_cons]

theorem decodeMembers_eq (ms : List (String × Json.Value)) :
    decodeMembers ms = ms.map fun m => (m.1, decode m.2) := by
  induction ms with
  | nil => rfl
  | cons m ms ih => rw [decodeMembers, ih, List.map_cons]

theorem build?_perm {ms ns : List (String × Decoded)} (h : ms.Perm ns) (kind : String) :
    build? ⟨kind, .fields ms⟩ = build? ⟨kind, .fields ns⟩ := by
  unfold build? elementWise? constant?
  simp only [Json.Body.take?_perm h]

section

variable {d d' d'' : Decoded} {e e' : Expr} {x : String}

theorem build?_unary (op : UnaryOp) (h : d.expr = some e) :
    build? ⟨op.kind, .fields [("value", d)]⟩ = some (.unary op e) := by
  obtain ⟨v, _, es⟩ := d
  cases h
  cases op <;> rfl

theorem build?_binary (op : BinaryOp) (h : d.expr = some e) (h' : d'.expr = some e') :
    build? ⟨op.kind, .fields [("left", d), ("right", d')]⟩ = some (.binary op e e') := by
  obtain ⟨v, _, es⟩ := d
  obtain ⟨v', _, es'⟩ := d'
  cases h
  cases h'
  cases op <;> rfl

theorem build?_aggregate (op : AggregateOp) (h : d.expr = some e) (hx : d'.value = .string x)
    (h' : d''.expr = some e') :
    build? ⟨op.kind, .fields [("field", d), ("arg", d'), ("array", d'')]⟩ =
      some (.aggregate op e x e') := by
  obtain ⟨v, _, es⟩ := d
  obtain ⟨_, a, as⟩ := d'
  obtain ⟨v'', _, es''⟩ := d''
  cases h
  cases hx
  cases h'
  cases op <;> rfl

theorem build?_quantifier (q : Quantifier) (h : d.expr = some e) (hx : d'.value = .string x)
    (h' : d''.expr = some e') :
    build? ⟨q.kind, .fields [("field", d), ("arg", d'), ("predicate", d'')]⟩ =
      some (.quantifier q e x e') := by
  obtain ⟨v, _, es⟩ := d
  obtain ⟨_, a, as⟩ := d'
  obtain ⟨v'', _, es''⟩ := d''
  cases h
  cases hx
  cases h'
  cases q <;> rfl

theorem build?_connect (k : Connective) {es : List Expr} (h : d.exprs = some es) :
    build? ⟨k.kind, .fields [("operands", d)]⟩ = some (.connect k es) := by
  obtain ⟨v, e, _⟩ := d
  cases h
  cases k <;> rfl

theorem build?_not (h : d.expr = some e) :
    build? ⟨"not", .fields [("operand", d)]⟩ = some (.not e) := by
  obtain ⟨v, _, es⟩ := d
  cases h
  rfl

theorem build?_count (h : d.expr = some e) :
    build? ⟨"count", .fields [("field", d)]⟩ = some (.count e) := by
  obtain ⟨v, _, es⟩ := d
  cases h
  rfl

theorem build?_field {name : String} (h : d.value = .string name) :
    build? ⟨"field", .fields [("name", d)]⟩ = some (.field name none) := by
  obtain ⟨_, e, es⟩ := d
  cases h
  rfl

end

theorem build?_literal (a : Atom) : build? ⟨a.kind,
    .fields ((literal a).fields.map fun m => (m.1, decode m.2))⟩ = some (.literal a) := by
  cases a with
  | null => rfl
  | bool b => cases b <;> rfl
  | long n =>
    have hlong : (decode (.number (.int n.toInt))).long? = some n := Scalar.long?_toInt n
    show (decode (.number (.int n.toInt))).long?.bind _ = _
    rw [hlong]
    rfl
  | double x => rfl
  | string s => rfl

theorem build?_members {e : Expr} {ms : List (String × Json.Value)}
    (h : ms.Perm (e.fields.map fun m => (m.1, g m.2))) :
    build? ⟨e.kind, .fields (ms.map fun m => (m.1, decode m.2))⟩ =
      build? ⟨e.kind, .fields (e.fields.map fun m => (m.1, decode (g m.2)))⟩ := by
  have hdecoded := h.map fun m => (m.1, decode m.2)
  rw [List.map_map] at hdecoded
  exact build?_perm hdecoded e.kind

theorem Rearranges.decode_node (hg : Rearranges g) (e : Expr) : (decode (g e.toJson)).expr =
    build? ⟨e.kind, .fields (e.fields.map fun m => (m.1, decode (g m.2)))⟩ := by
  obtain ⟨before, after, hobject, hperm, hbefore, hafter⟩ := hg.toJson e
  have hmap {ms : List (String × Json.Value)} (h : ∀ m ∈ ms, m.1 ≠ Json.tagName) :
      ∀ m ∈ ms.map fun m => (m.1, decode m.2), m.1 ≠ Json.tagName := by
    intro m hm
    obtain ⟨m', hm', rfl⟩ := List.mem_map.1 hm
    exact h m' hm'
  have htagged := Json.Tagged.ofMembers?_tagged Decoded.value (a := decode (.string e.kind)) rfl
    (kinds_contains e) (hmap hbefore) (hmap hafter)
  rw [hobject, decode, decodeMembers_eq, List.map_append, List.map_cons]
  dsimp only
  rw [htagged, Option.bind_some, ← List.map_append]
  exact build?_members hperm

mutual

theorem decode_toJson (hg : Rearranges g) : (e : Expr) → (decode (g e.toJson)).expr = some e.bare
  | .field name _ => by
    rw [hg.decode_node, fields, List.map_singleton]
    exact build?_field (congrArg (fun v => (decode v).value) (hg.string name))
  | .literal a => by
    have hfields : (literal a).fields.map (fun m => (m.1, decode (g m.2))) =
        (literal a).fields.map fun m => (m.1, decode m.2) := by
      cases a <;> simp [fields, hg.string, hg.number]
    rw [hg.decode_node, hfields]
    exact build?_literal a
  | .unary op e => by
    rw [hg.decode_node]
    exact build?_unary op (decode_toJson hg e)
  | .binary op l r => by
    rw [hg.decode_node]
    exact build?_binary op (decode_toJson hg l) (decode_toJson hg r)
  | .aggregate op f x b => by
    rw [hg.decode_node]
    exact build?_aggregate op (decode_toJson hg f)
      (congrArg (fun v => (decode v).value) (hg.string x)) (decode_toJson hg b)
  | .count f => by
    rw [hg.decode_node]
    exact build?_count (decode_toJson hg f)
  | .connect k es => by
    rw [hg.decode_node]
    refine build?_connect k ?_
    rw [hg.array, decode, decodeItems_eq]
    exact decode_allToJson hg es
  | .not e => by
    rw [hg.decode_node]
    exact build?_not (decode_toJson hg e)
  | .quantifier q f x b => by
    rw [hg.decode_node]
    exact build?_quantifier q (decode_toJson hg f)
      (congrArg (fun v => (decode v).value) (hg.string x)) (decode_toJson hg b)

theorem decode_allToJson (hg : Rearranges g) : (es : List Expr) →
    (((allToJson es).map g).map decode).mapM Decoded.expr = some (bareAll es)
  | [] => rfl
  | e :: es => by
    rw [allToJson, List.map_cons, List.map_cons, List.mapM_cons, decode_toJson hg e,
      decode_allToJson hg es]
    rfl

end

/-! ### Reading -/

/-- The JSON of an expression is read up to its end, unless it is nested too deep. -/
theorem readWire_toJson (hg : Rearranges g) (e : Expr)
    (h : ∀ x, .literal (.double x) ∈ e.nodes → (Json.Number.float x).ReadsBack)
    (rest : List Char) :
    readWire (Json.Printer.value (g e.toJson) ++ rest) =
      Json.Parser.within Json.Parser.strict e.nesting e.bare rest := by
  obtain ⟨before, after, hobject, hperm, hbefore, hafter⟩ := hg.toJson e
  have hreadable : Json.Value.ReadableMembers (before ++ after) := by
    have hnode := readable_toJson hg e h
    rw [hobject, Json.Value.Readable, Json.Value.readableMembers_iff] at hnode
    rw [Json.Value.readableMembers_iff]
    intro m hm
    exact hnode m (List.mem_append.2 ((List.mem_append.1 hm).imp_right (List.mem_cons_of_mem _)))
  have hnesting : Json.Value.nestingMembers (before ++ after) + 1 = e.nesting := by
    rw [← nesting_toJson hg, hg.nesting_node, Json.Value.nestingMembers_perm hperm]
  have hbuild : build? ⟨e.kind, (Json.Body.fields (before ++ after)).map decode⟩ = some e.bare :=
    (build?_members hperm).trans ((hg.decode_node e).symm.trans (decode_toJson hg e))
  have hread := Json.Tagged.read_printed (kinds_contains e) hbefore hafter hreadable rest
  rw [hnesting] at hread
  rw [readWire, hobject]
  unfold Json.Parser.within at hread ⊢
  by_cases hdepth : e.nesting ≤ Json.Parser.strict.depth
  · rw [if_pos hdepth] at hread
    rw [if_pos hdepth, Json.Parser.bind_of_ok hread]
    dsimp only
    rw [hbuild]
    rfl
  · rw [if_neg hdepth] at hread
    rw [if_neg hdepth]
    exact Json.Parser.bind_of_error hread

/-- Whichever way its members are ordered, a text is read as the expression, paths aside. -/
theorem ofWire_toJson (hg : Rearranges g) (e : Expr)
    (h : ∀ x, .literal (.double x) ∈ e.nodes → (Json.Number.float x).ReadsBack) :
    ofWire (g e.toJson).text =
      if e.nesting ≤ 127 then .ok e.bare else .error .malformed := by
  have hread := readWire_toJson hg e h []
  rw [List.append_nil] at hread
  rw [ofWire, Json.Value.text, String.toList_ofList, hread, Json.Parser.complete_within]

theorem predicateOfWire_toJson (hg : Rearranges g) (e : Expr)
    (h : ∀ x, .literal (.double x) ∈ e.nodes → (Json.Number.float x).ReadsBack) :
    predicateOfWire (g e.toJson).text =
      if e.nesting ≤ 127 then
        if e.bare.isBoolean then .ok e.bare else .error (.notPredicate e.bare.kind)
      else .error (.decode .malformed) := by
  have hread := readWire_toJson hg e h []
  rw [List.append_nil, Json.Parser.within] at hread
  rw [predicateOfWire, Json.Value.text, String.toList_ofList, hread]
  by_cases hdepth : e.nesting ≤ Json.Parser.strict.depth
  · rw [if_pos hdepth, if_pos (show e.nesting ≤ 127 from hdepth)]
    show (if e.bare.isBoolean then
        (Json.Parser.complete (.ok (e.bare, []))).mapError WireError.decode
      else .error (.notPredicate e.bare.kind)) = _
    cases e.bare.isBoolean <;> rfl
  · rw [if_neg hdepth, if_neg (show ¬e.nesting ≤ 127 from hdepth)]
    rfl

end

/-- An expression without paths is read from its JSON, and as a predicate if it is one. The limit of
127 open containers is the only one: deeper expressions are refused. -/
theorem ofWire_toWire {e : Expr} (hpath : ∀ name path, .field name path ∈ e.nodes → path = none)
    (hfinite : ∀ x, .literal (.double x) ∈ e.nodes → x.isFinite = true)
    (hfloat : ∀ x, .literal (.double x) ∈ e.nodes →
      Json.Value.parse (Json.Value.number (.float x)).text = .ok (.number (.float x))) :
    (ofWire e.toWire = if e.toJson.nesting ≤ 127 then .ok e else .error .malformed) ∧
      predicateOfWire e.toWire =
        if e.toJson.nesting ≤ 127 then
          if e.isBoolean then .ok e else .error (.notPredicate e.kind)
        else .error (.decode .malformed) := by
  have hread : ∀ x, .literal (.double x) ∈ e.nodes → (Json.Number.float x).ReadsBack :=
    fun x hx => Json.Number.readsBack_of_parse (hfinite x hx) (hfloat x hx)
  have hnesting : e.toJson.nesting = e.nesting := nesting_toJson rearranges_id e
  have hbare := bare_eq_self e hpath
  rw [hnesting, ← isBoolean_bare, ← kind_bare]
  refine ⟨(ofWire_toJson rearranges_id e hread).trans ?_,
    (predicateOfWire_toJson rearranges_id e hread).trans ?_⟩
  · rw [hbare]
  · rw [hbare]

/-- Numbers of both kinds, a text with escapes, and operands, whose array is a container more. -/
theorem ofWire_toWire_operands :
    let e : Expr := .connect .and [
      .quantifier .any (.field "o.tags" none) "t"
        (.binary .startsWith (.field "t" none) (.literal (.string "\"\n\x01"))),
      .binary .lessThan (.literal (.double (-0.25)))
        (.aggregate .sum (.field "o.items" none) "i" (.unary .negate (.literal (.long (-7)))))]
    e.toJson.nesting = 6 ∧ ofWire e.toWire = .ok e ∧ predicateOfWire e.toWire = .ok e := by
  intro e
  have hx {x : Float} (hx : .literal (.double x) ∈ e.nodes) : x = -0.25 := by
    simpa [e, nodes, nodesAll] using hx
  have hpath {name : String} {path : Option Path} (h : .field name path ∈ e.nodes) :
      path = none := by
    simp [e, nodes, nodesAll] at h
    tauto
  have hfloat : Json.Value.parse (Json.Value.number (.float (-0.25))).text =
      .ok (.number (.float (-0.25))) :=
    Json.Value.parse_eq_float (by decide +kernel)
  have hnesting : e.toJson.nesting = 6 := by rfl
  obtain ⟨hexpr, hpredicate⟩ := ofWire_toWire (e := e) (fun _ _ => hpath)
    (fun x h => by rw [hx h]; decide +kernel) (fun x h => by rw [hx h, hfloat])
  rw [hnesting] at hexpr hpredicate
  exact ⟨hnesting, hexpr, hpredicate⟩

end Quarry.Expr
