import Quarry.Proofs.Document.Pointers

/-!
The nodes of a document mirror its text. They are numbered in the order in which they begin, the
text of a part lies inside the text of its container, and the text of a node read alone is that node
again.
-/

namespace Quarry

open Json Text

/-! ### JSON values of contents -/

namespace Content

mutual

/-- The value of a content, its objects sorted by name. -/
def toJson : Content → Value
  | .atom a => a.toScalar.toJson
  | .group true ms => .object (sortMembers (membersToJson ms))
  | .group false ms => .array ((membersToJson ms).map Prod.snd)

def membersToJson : List (String × Content) → List (String × Value)
  | [] => []
  | (k, c) :: ms => (k, c.toJson) :: membersToJson ms

end

end Content

namespace Node

mutual

theorem toJson_content : (n : Node) → n.content.toJson = n.toJson
  | .atom m a => by rw [content, Content.toJson, toJson]
  | .array m items => by
    rw [content, Content.array, Content.toJson, toJson, map_snd_membersToJson 0 items]
  | .object m ms => by rw [content, Content.toJson, toJson, membersToJson_content ms]

theorem map_snd_membersToJson (i : Nat) : (ns : List Node) →
    (Content.membersToJson (numbered i (contentItems ns))).map Prod.snd = itemsToJson ns
  | [] => rfl
  | n :: ns => by
    rw [contentItems, numbered, Content.membersToJson, itemsToJson, List.map_cons,
      toJson_content n, map_snd_membersToJson (i + 1) ns]

theorem membersToJson_content : (ms : List (String × Node)) →
    Content.membersToJson (contentMembers ms) = membersToJson ms
  | [] => rfl
  | (k, n) :: ms => by
    rw [contentMembers, Content.membersToJson, membersToJson, toJson_content n,
      membersToJson_content ms]

end

variable {n m c : Node} {k : Nat}

theorem toJson_congr (h : n.content = m.content) : n.toJson = m.toJson := by
  rw [← toJson_content, h, toJson_content]

/-! ### Containers of a node -/

theorem part_eq_of_mem_ids {d : Node} (hn : n.ids.Nodup) (hc : c ∈ n.parts) (hd : d ∈ n.parts)
    (hkc : k ∈ c.ids) (hkd : k ∈ d.ids) : c = d := by
  rw [ids_eq, List.nodup_cons] at hn
  have hsymm : Std.Symm (Function.onFun List.Disjoint ids) := ⟨fun _ _ h => h.symm⟩
  by_contra hne
  exact (List.nodup_flatMap.1 hn.2).2.forall hc hd hne hkc hkd

theorem mem_ids_of_part_of_withId? (h : n.withId? k = some m) (hc : c ∈ m.parts) :
    c.id ∈ n.ids := by
  have hsub : m.ids ⊆ n.ids :=
    of_withId? (P := fun m => m.ids ⊆ n.ids)
      (fun a ha b hb _ hk => ha (ids_subset_of_mem_parts hb hk)) (List.Subset.refl _) h
  exact hsub (ids_subset_of_mem_parts hc (id_mem_ids c))

theorem id_ne_of_part_of_withId? (hn : n.ids.Nodup) (h : n.withId? k = some m)
    (hc : c ∈ m.parts) : c.id ≠ n.id := by
  rw [withId?_eq] at h
  split at h
  · cases h
    exact fun hid => id_not_mem_part hn hc (hid ▸ id_mem_ids c)
  · obtain ⟨d, hd, hm⟩ := List.exists_of_findSome?_eq_some h
    exact fun hid => id_not_mem_part hn hd (hid ▸ mem_ids_of_part_of_withId? hm hc)

/-- A number belongs to a part of one container only. -/
theorem container_unique {i j : Nat} {x y d : Node} (hn : n.ids.Nodup)
    (hx : n.withId? i = some x) (hy : n.withId? j = some y) (hc : c ∈ x.parts) (hd : d ∈ y.parts)
    (hid : c.id = d.id) : x = y := by
  induction n using parts_induction with
  | make n ih =>
    rw [withId?_eq] at hx hy
    split at hx
    · cases hx
      split at hy
      · cases hy
        rfl
      · -- The other container stands in one of the parts, where this part would be itself.
        obtain ⟨e, he, hy⟩ := List.exists_of_findSome?_eq_some hy
        have hmem : c.id ∈ e.ids := hid ▸ mem_ids_of_part_of_withId? hy hd
        obtain rfl := part_eq_of_mem_ids hn hc he (id_mem_ids c) hmem
        exact absurd hid.symm (id_ne_of_part_of_withId? (nodup_ids_part hn he) hy hd)
    · obtain ⟨e, he, hx⟩ := List.exists_of_findSome?_eq_some hx
      have hmem : c.id ∈ e.ids := mem_ids_of_part_of_withId? hx hc
      split at hy
      · cases hy
        obtain rfl := part_eq_of_mem_ids hn hd he (id_mem_ids d) (hid ▸ hmem)
        exact absurd hid (id_ne_of_part_of_withId? (nodup_ids_part hn he) hx hc)
      · obtain ⟨f, hf, hy⟩ := List.exists_of_findSome?_eq_some hy
        have hmem' : c.id ∈ f.ids := hid ▸ mem_ids_of_part_of_withId? hy hd
        obtain rfl := part_eq_of_mem_ids hn he hf hmem hmem'
        exact ih e he (nodup_ids_part hn he) hx hy

theorem exists_container (hn : n.ids.Nodup) (hk : k ∈ n.ids) (hne : k ≠ n.id) :
    ∃ x, n.withId? x.id = some x ∧ ∃ c ∈ x.parts, c.id = k := by
  induction n using parts_induction with
  | make n ih =>
    have hbelow := hk
    rw [ids_eq, List.mem_cons] at hbelow
    obtain ⟨c, hc, hkc⟩ := List.mem_flatMap.1 (hbelow.resolve_left hne)
    by_cases hid : k = c.id
    · exact ⟨n, withId?_self n, c, hc, hid.symm⟩
    · obtain ⟨x, hx, hpart⟩ := ih c hc (nodup_ids_part hn hc) hkc hid
      exact ⟨x, withId?_of_part hn hc hx, hpart⟩

/-! ### Numbers and spans of the parts -/

/-- The parts of a node are numbered after it and stand inside it, one after the other. -/
structure Encloses (n : Node) : Prop where
  later : ∀ c ∈ n.parts, n.id < c.id
  inside : ∀ c ∈ n.parts, n.span.start < c.span.start ∧ c.span.stop < n.span.stop
  apart : n.parts.Pairwise fun a b => a.id < b.id ∧ a.span.stop < b.span.start

/-- Every node of a tree encloses its parts. -/
inductive Nested : Node → Prop
  | make {n : Node} (here : n.Encloses) (below : ∀ c ∈ n.parts, Nested c) : Nested n

theorem Nested.encloses (h : n.Nested) : n.Encloses := by
  cases h with
  | make here below => exact here

theorem Nested.part (h : n.Nested) (hc : c ∈ n.parts) : c.Nested := by
  cases h with
  | make here below => exact below c hc

theorem nested_atom (m : Mark) (a : Atom) : (Node.atom m a).Nested :=
  .make ⟨nofun, nofun, .nil⟩ nofun

theorem Written.read_alone {input : Bytes} {depth : Nat} (h : n.Written input depth) :
    ∃ r, Document.read depth (n.span.of input) = .ok ⟨depth, some r⟩ ∧ r.toJson = n.toJson := by
  cases h with
  | make v text content fits all =>
    obtain ⟨r, hr, hc⟩ := holds_text v depth (by rwa [v.nesting_content])
    exact ⟨r, text ▸ hr, toJson_congr (hc.trans content)⟩

end Node

namespace Json

variable {o s : Bool}

theorem Lead.le_length_text (l : Lead o s) : s.toNat ≤ l.text.length := by
  obtain ⟨space, comma, label, rfl, hlabel⟩ := l
  cases comma with
  | none => exact Nat.zero_le _
  | some sp =>
    simp only [text, Option.elim_some, List.length_append, List.length_cons, Option.isSome_some,
      Bool.toNat_true]
    omega

namespace Passage

theorem length_text_pos (p : Passage o s) : 0 < p.text.length := by
  have hsteps : 0 < p.steps := by cases p <;> exact Nat.succ_pos _
  exact hsteps.trans_le p.steps_le_length

/-- The nodes of a passage are numbered from its first number on and end before its last byte. What
follows another value begins after a comma. -/
theorem bounds_nodes (p : Passage o s) (start k : Nat) : ∀ n ∈ p.nodes start k,
    k ≤ n.2.id ∧ start + s.toNat ≤ n.2.span.start ∧ n.2.span.stop < start + p.text.length := by
  induction p generalizing start k with
  | close sp => nofun
  | token l t rest ih =>
    have hlead := l.le_length_text
    have hrest := rest.length_text_pos
    rw [nodes]
    intro n hn
    simp only [text, List.length_append]
    rcases List.mem_cons.1 hn with rfl | hn
    · refine ⟨Nat.le_refl k, ?_, ?_⟩
      · show _ ≤ start + l.text.length
        omega
      · show start + l.text.length + t.text.length < _
        omega
    · obtain ⟨hid, hstart, hstop⟩ := ih _ _ n hn
      omega
  | nested l b inside rest ih1 ih2 =>
    have hlead := l.le_length_text
    have hrest := rest.length_text_pos
    rw [nodes]
    intro n hn
    simp only [text, List.length_append, List.length_cons]
    rcases List.mem_cons.1 hn with rfl | hn
    · rw [Node.id_group, Node.span_group]
      refine ⟨Nat.le_refl k, ?_, ?_⟩
      · show _ ≤ start + l.text.length
        omega
      · show start + l.text.length + 1 + inside.text.length < _
        omega
    · obtain ⟨hid, hstart, hstop⟩ := ih2 _ _ n hn
      omega

theorem apart_nodes (p : Passage o s) (start k : Nat) : (p.nodes start k).Pairwise fun a b =>
    a.2.id < b.2.id ∧ a.2.span.stop < b.2.span.start := by
  induction p generalizing start k with
  | close sp => exact .nil
  | token l t rest ih =>
    rw [nodes]
    refine List.pairwise_cons.2 ⟨fun n hn => ?_, ih _ _⟩
    obtain ⟨hid, hstart, -⟩ := rest.bounds_nodes _ _ n hn
    exact ⟨hid, hstart⟩
  | nested l b inside rest ih1 ih2 =>
    rw [nodes]
    refine List.pairwise_cons.2 ⟨fun n hn => ?_, ih2 _ _⟩
    obtain ⟨hid, hstart, -⟩ := rest.bounds_nodes _ _ n hn
    rw [Node.id_group, Node.span_group]
    exact ⟨by show k < _; omega, hstart⟩

theorem nested_group {b : Bool} (inside : Passage b false) {start k : Nat}
    (h : ∀ n ∈ inside.nodes (start + 1) (k + 1), n.2.Nested) :
    (Node.group b ⟨k, ⟨start, start + 1 + inside.text.length⟩⟩
      (inside.nodes (start + 1) (k + 1))).Nested := by
  have hparts : ∀ c ∈ (inside.nodes (start + 1) (k + 1)).map Prod.snd,
      ∃ n ∈ inside.nodes (start + 1) (k + 1), n.2 = c := fun c hc => List.mem_map.1 hc
  refine .make ⟨?_, ?_, ?_⟩ ?_ <;> rw [Node.parts_group]
  · intro c hc
    obtain ⟨n, hn, rfl⟩ := hparts c hc
    rw [Node.id_group]
    exact (inside.bounds_nodes _ _ n hn).1
  · intro c hc
    obtain ⟨n, hn, rfl⟩ := hparts c hc
    rw [Node.span_group]
    exact (inside.bounds_nodes _ _ n hn).2
  · exact List.pairwise_map.2 (inside.apart_nodes _ _)
  · intro c hc
    obtain ⟨n, hn, rfl⟩ := hparts c hc
    exact h n hn

theorem nested_nodes (p : Passage o s) (start k : Nat) : ∀ n ∈ p.nodes start k, n.2.Nested := by
  induction p generalizing start k with
  | close sp => nofun
  | token l t rest ih =>
    rw [nodes]
    intro n hn
    rcases List.mem_cons.1 hn with rfl | hn
    · exact Node.nested_atom _ _
    · exact ih _ _ n hn
  | nested l b inside rest ih1 ih2 =>
    rw [nodes]
    intro n hn
    rcases List.mem_cons.1 hn with rfl | hn
    · exact inside.nested_group (ih1 _ _)
    · exact ih2 _ _ n hn

end Passage

theorem Spelling.id_node (v : Spelling) (start k : Nat) : (v.node start k).id = k := by
  cases v with
  | token t => rfl
  | nested b inside => rw [node, Node.id_group]

theorem Spelling.nested_node (v : Spelling) (start k : Nat) : (v.node start k).Nested := by
  cases v with
  | token t => exact Node.nested_atom _ _
  | nested b inside => exact inside.nested_group (inside.nested_nodes _ _)

end Json

namespace Document

variable {depth : Nat} {input : Bytes} {d d₀ : Document} {root : Node}

theorem read_layout (hd : read depth input = .ok d) (hroot : d.root = some root) :
    root.id = 0 ∧ root.ids = List.range d.size ∧ root.Nested ∧ root.Written input depth := by
  rcases read_cases hd with ⟨sp, rfl⟩ | ⟨p, rfl, hp⟩
  · rw [read_space] at hd
    cases hd
    cases hroot
  · rw [read_value p hp] at hd
    cases hd
    obtain rfl := Option.some.inj hroot
    refine ⟨p.value.id_node _ _, ?_, p.value.nested_node _ _, p.value.written_node hp 0⟩
    rw [List.range_eq_range']
    exact p.value.ids_node _ _

/-- The nodes of a document that is read are numbered as they begin in the text. Each is a part of
one container, stands inside it after the parts before it, and its text alone is read as it is. -/
theorem parse_mirrors (hd : d₀.parse input = (d, none)) (hroot : d.root = some root) :
    root.ids = List.range d.size ∧
    (∀ k, (d.node? k).isSome ↔ k < d.size) ∧
    (∀ k n, d.node? k = some n → n.id = k ∧ n.Encloses ∧ (∀ c ∈ n.parts, d.node? c.id = some c) ∧
      ∃ d' r, d₀.parse (n.span.of input) = (d', none) ∧ d'.root = some r ∧ r.toJson = n.toJson) ∧
    ∀ k, 0 < k → k < d.size → ∃! n, d.node? n.id = some n ∧ ∃ c ∈ n.parts, c.id = k := by
  have hread := read_of_parse hd
  obtain ⟨hfirst, hids, hnested, hwritten⟩ := read_layout hread hroot
  have hnode : ∀ k, d.node? k = root.withId? k := by
    intro k
    rw [node?, hroot, Option.bind_some]
  have hnodup : root.ids.Nodup := nodup_ids hread hroot
  have hmem : ∀ k, k ∈ root.ids ↔ k < d.size := by
    intro k
    rw [hids, List.mem_range]
  refine ⟨hids, fun k => ?_, fun k n hn => ?_, fun k hpos hlt => ?_⟩
  · rw [hnode, Node.isSome_withId?, hmem]
  · have hpart : ∀ c ∈ n.parts, d.node? c.id = some c := fun c hc => node?_part hread hn hc
    rw [hnode] at hn
    have hencloses : n.Encloses :=
      (Node.of_withId? (fun _ h _ hm => Node.Nested.part h hm) hnested hn).encloses
    have hw : n.Written input d₀.maxDepth :=
      Node.of_withId? (fun _ h _ hm => Node.Written.part h hm) hwritten hn
    obtain ⟨r, hr, hjson⟩ := hw.read_alone
    exact ⟨Node.id_of_withId? hn, hencloses, hpart, _, r, parse_of_read hr, rfl, hjson⟩
  · have hne : k ≠ root.id := by omega
    obtain ⟨n, hn, hpart⟩ := Node.exists_container hnodup ((hmem k).2 hlt) hne
    refine ⟨n, ⟨(hnode _).trans hn, hpart⟩, ?_⟩
    rintro m ⟨hm, c, hc, hck⟩
    obtain ⟨e, he, hek⟩ := hpart
    rw [hnode] at hm
    exact Node.container_unique hnodup hm hn hc he (hck.trans hek.symm)

theorem parse_mirrors_nested : ∃ (d : Document) (root n : Node),
    (Document.empty 3).parse (bytes "\x7b\"a\":[1,\x7b\x7d],\"b\":null\x7d") = (d, none) ∧
      d.root = some root ∧ root.ids = List.range 5 ∧ d.node? 1 = some n ∧ n.Encloses ∧
      (∃ d' r, (Document.empty 3).parse (bytes "[1,\x7b\x7d]") = (d', none) ∧ d'.root = some r ∧
        r.toJson = n.toJson) ∧
      ∃! m, d.node? m.id = some m ∧ ∃ c ∈ m.parts, c.id = 3 := by
  let inner : Node := .array ⟨1, ⟨5, 11⟩⟩ [.atom ⟨2, ⟨6, 7⟩⟩ (.long 1), .object ⟨3, ⟨8, 10⟩⟩ []]
  let root : Node := .object ⟨0, ⟨0, 21⟩⟩ [("a", inner), ("b", .atom ⟨4, ⟨16, 20⟩⟩ .null)]
  have hd : (Document.empty 3).parse (bytes "\x7b\"a\":[1,\x7b\x7d],\"b\":null\x7d") =
      (⟨3, some root⟩, none) := by
    rfl
  have hn : (⟨3, some root⟩ : Document).node? 1 = some inner := rfl
  obtain ⟨hids, -, hnodes, hcontainer⟩ := parse_mirrors hd rfl
  obtain ⟨-, hencloses, -, halone⟩ := hnodes 1 inner hn
  exact ⟨_, root, inner, hd, rfl, hids, hn, hencloses, halone,
    hcontainer 3 (by decide) (by decide)⟩

end Document

end Quarry
