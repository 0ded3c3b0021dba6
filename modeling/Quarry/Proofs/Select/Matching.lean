import Quarry.Proofs.Document.Reading
import Quarry.Proofs.Select.PathTree
import Quarry.Select.Selector

/-!
What a path meets in a document, and what a tree of paths meets there: each collector meets what
its own path does, unless a wildcard stands in the way of an index.
-/

namespace Quarry

open Json

/-! ### One path -/

/-- A step that was asked for leads along the step from a container to one of its values. -/
def Segment.leads : Segment → Segment → Bool
  | .wildcard, .index _ => true
  | s, t => s == t

namespace Node

/-- Values behind the steps that lead to them; elements are counted from `i` on. -/
def behind (isObject : Bool) : Nat → List (String × Node) → List (Segment × Node)
  | _, [] => []
  | i, (name, n) :: ns =>
    (if isObject then .key name else .index i, n) :: behind isObject (i + 1) ns

/-- The values of a container in order, behind the steps that lead to them. -/
def entries : Node → List (Segment × Node)
  | .atom _ _ => []
  | .array _ items => behind false 0 (items.map fun n => ("", n))
  | .object _ members => behind true 0 members

/-- What a path meets below a value, in the order of the document. -/
def matched : Path → Node → List Node
  | [], n => [n]
  | s :: path, n => n.entries.flatMap fun e => if s.leads e.1 then matched path e.2 else []

theorem behind_elements (i : Nat) (ns : List (String × Node)) :
    behind false i ((ns.map Prod.snd).map fun n => ("", n)) = behind false i ns := by
  induction ns generalizing i with
  | nil => rfl
  | cons n ns ih =>
    rw [List.map_cons, List.map_cons, behind, behind, ih]
    rfl

theorem entries_group (isObject : Bool) (mark : Mark) (ns : List (String × Node)) :
    (group isObject mark ns).entries = behind isObject 0 ns := by
  cases isObject with
  | true => rfl
  | false => exact behind_elements 0 ns

theorem mem_of_behind {o : Bool} {i : Nat} {ns : List (String × Node)} {e : Segment × Node}
    (h : e ∈ behind o i ns) : ∃ n ∈ ns, e.2 = n.2 := by
  induction ns generalizing i with
  | nil => simp [behind] at h
  | cons n ns ih =>
    rw [behind] at h
    rcases List.mem_cons.1 h with rfl | h
    · exact ⟨n, List.mem_cons_self, rfl⟩
    · obtain ⟨m, hm, he⟩ := ih h
      exact ⟨m, List.mem_cons_of_mem n hm, he⟩

theorem mem_parts_of_entries {n : Node} {e : Segment × Node} (h : e ∈ n.entries) :
    e.2 ∈ n.parts := by
  cases n with
  | atom mark a => simp [entries] at h
  | array mark items =>
    obtain ⟨m, hm, he⟩ := mem_of_behind h
    obtain ⟨item, hitem, rfl⟩ := List.mem_map.1 hm
    rw [he]
    exact hitem
  | object mark members =>
    obtain ⟨m, hm, he⟩ := mem_of_behind h
    rw [he]
    exact List.mem_map_of_mem hm

theorem Written.matched {input : Text.Bytes} {depth : Nat} {n : Node}
    (h : n.Written input depth) (path : Path) : ∀ m ∈ n.matched path, m.Written input depth := by
  induction path generalizing n with
  | nil =>
    intro m hm
    rwa [List.mem_singleton.1 hm]
  | cons s path ih =>
    intro m hm
    rw [Node.matched] at hm
    obtain ⟨e, he, hm⟩ := List.mem_flatMap.1 hm
    split at hm
    · exact ih (h.part (mem_parts_of_entries he)) m hm
    · simp at hm

end Node

/-! ### The way through a tree -/

namespace PathNode

variable {α : Type}

/-- The step at which the child for a value stands: a wildcard takes the place of any index. -/
def pick (t : PathNode α) : Segment → Segment
  | .index i => if (t.child? .wildcard).isSome then .wildcard else .index i
  | s => s

theorem childAt?_eq (i : Nat) (t : PathNode α) : t.childAt? i = t.child? (t.pick (.index i)) := by
  rw [childAt?, pick]
  cases h : t.child? .wildcard with
  | none => rfl
  | some c => exact h.symm

/-- What a path meets when it is followed through a tree. -/
def followed : Path → PathNode α → Node → List Node
  | [], _, n => [n]
  | s :: path, t, n =>
    n.entries.flatMap fun e =>
      if t.pick e.1 = s then (t.child? s).elim [] fun c => followed path c e.2 else []

/-- On its way through a tree a path comes to an index that stands beside a wildcard. -/
def Covered (t : PathNode α) (path : Path) : Prop :=
  ∃ p i rest, path = p ++ .index i :: rest ∧ (t.at? (p ++ [.wildcard])).isSome

theorem covered_index {t c : PathNode α} (h : t.child? .wildcard = some c) (i : Nat) (path : Path) :
    t.Covered (.index i :: path) :=
  ⟨[], i, path, rfl, by simp [at?, h]⟩

theorem Covered.cons {t c : PathNode α} {s : Segment} {path : Path} (hc : t.child? s = some c)
    (h : c.Covered path) : t.Covered (s :: path) := by
  obtain ⟨p, i, rest, rfl, hp⟩ := h
  refine ⟨s :: p, i, rest, rfl, ?_⟩
  rw [List.cons_append, at?, hc]
  exact hp

theorem Covered.cases {t : PathNode α} {s : Segment} {path : Path} (h : t.Covered (s :: path)) :
    (∃ i, s = .index i ∧ (t.child? .wildcard).isSome) ∨
      ∀ c, t.child? s = some c → c.Covered path := by
  obtain ⟨p, i, rest, hp, hw⟩ := h
  cases p with
  | nil =>
    obtain ⟨rfl, -⟩ := List.cons.inj hp
    refine .inl ⟨i, rfl, ?_⟩
    rw [List.nil_append, at?] at hw
    cases hc : t.child? .wildcard with
    | none => simp [hc] at hw
    | some c => rfl
  | cons u p =>
    obtain ⟨rfl, rfl⟩ := List.cons.inj hp
    refine .inr fun c hc => ⟨p, i, rest, rfl, ?_⟩
    rwa [List.cons_append, at?, hc] at hw

/-- A covered path meets nothing. -/
theorem followed_covered {path : Path} {t : PathNode α} (h : t.Covered path) (n : Node) :
    followed path t n = [] := by
  induction path generalizing t n with
  | nil =>
    obtain ⟨p, i, rest, hp, -⟩ := h
    simp at hp
  | cons s path ih =>
    rw [followed, List.flatMap_eq_nil_iff]
    intro e _
    split
    · rename_i hpick
      cases hc : t.child? s with
      | none => rfl
      | some c =>
        rcases h.cases with ⟨i, rfl, hw⟩ | h
        · -- No step is picked that the wildcard beside it takes the place of.
          exfalso
          cases hs : e.1 with
          | key name => simp [hs, pick] at hpick
          | index j => simp [hs, pick, hw] at hpick
          | wildcard => simp [hs, pick] at hpick
        · exact ih (h c hc) e.2
    · rfl

theorem steps_behind {o : Bool} {i : Nat} {ns : List (String × Node)} {e : Segment × Node}
    (h : e ∈ Node.behind o i ns) : e.1 ≠ .wildcard := by
  induction ns generalizing i with
  | nil => simp [Node.behind] at h
  | cons n ns ih =>
    rw [Node.behind] at h
    rcases List.mem_cons.1 h with rfl | h
    · cases o <;> simp
    · exact ih h

theorem steps_entries {n : Node} {e : Segment × Node} (h : e ∈ n.entries) : e.1 ≠ .wildcard := by
  cases n with
  | atom mark a => simp [Node.entries] at h
  | array mark items => exact steps_behind h
  | object mark members => exact steps_behind h

theorem pick_eq_iff {t c : PathNode α} {s u : Segment} (hc : t.child? s = some c)
    (hi : ∀ i, s = .index i → t.child? .wildcard = none) (hu : u ≠ .wildcard) :
    t.pick u = s ↔ s.leads u = true := by
  cases u with
  | wildcard => exact absurd rfl hu
  | key name =>
    rw [pick]
    · cases s <;> simp only [Segment.leads, beq_iff_eq] <;> exact eq_comm
    · simp
  | index j =>
    cases s with
    | key name =>
      rw [pick]
      split <;> simp [Segment.leads]
    | wildcard => simp [pick, hc, Segment.leads]
    | index i =>
      rw [pick, hi i rfl, Option.isSome_none, if_neg (by simp), Segment.leads, beq_iff_eq]
      · exact eq_comm
      · simp

/-- A path that is not covered meets what it meets without the tree. -/
theorem followed_eq_matched {path : Path} {t : PathNode α} (h : ¬t.Covered path)
    (ht : (t.at? path).isSome) (n : Node) : followed path t n = n.matched path := by
  induction path generalizing t n with
  | nil => rfl
  | cons s path ih =>
    rw [at?] at ht
    rw [followed, Node.matched]
    cases hc : t.child? s with
    | none => simp [hc] at ht
    | some c =>
      rw [hc, Option.bind_some] at ht
      have hi : ∀ i, s = .index i → t.child? .wildcard = none := by
        rintro i rfl
        cases hw : t.child? .wildcard with
        | none => rfl
        | some d => exact absurd (covered_index hw i path) h
      apply List.flatMap_congr
      intro e he
      rw [Option.elim_some, ih (fun hcov => h (hcov.cons hc)) ht]
      exact if_congr (pick_eq_iff hc hi (steps_entries he)) rfl rfl

end PathNode

/-! ### All collectors of a tree -/

/-- A collector and a value that it meets. -/
abbrev Hit := Nat × Node

namespace Walk

/-- What the collectors behind one step meet, where `inner` tells of what is inside the value. -/
def hitsAt (t : Tree) (s : Segment) (n : Node) (inner : Tree → List Hit) : List Hit :=
  match t.child? (t.pick s) with
  | none => []
  | some c => (c.collectors.map fun j => (j, n)) ++ inner c

end Walk

/-- What the collectors of a tree meet in the rest of a container. -/
def Json.Passage.hits : {o s : Bool} → Passage o s → Walk.Tree → (i start k : Nat) → List Hit
  | _, _, .close _, _, _, _, _ => []
  | o, _, .token l t rest, tree, i, start, k =>
    let first := start + l.text.length
    let stop := first + t.text.length
    Walk.hitsAt tree (if o then .key (l.key.getD "") else .index i) (.atom ⟨k, ⟨first, stop⟩⟩ t.atom)
      (fun _ => []) ++ rest.hits tree (i + 1) stop (k + 1)
  | o, _, .nested l b inside rest, tree, i, start, k =>
    let first := start + l.text.length
    let stop := first + 1 + inside.text.length
    Walk.hitsAt tree (if o then .key (l.key.getD "") else .index i)
      (.group b ⟨k, ⟨first, stop⟩⟩ (inside.nodes (first + 1) (k + 1)))
      (fun c => inside.hits c 0 (first + 1) (k + 1)) ++
        rest.hits tree (i + 1) stop (k + 1 + inside.count)

namespace Walk

/-- What one collector meets. -/
def hitsOf (j : Nat) (hs : List Hit) : List Node := (hs.filter fun h => h.1 == j).map Prod.snd

theorem hitsOf_append (j : Nat) (hs hs' : List Hit) :
    hitsOf j (hs ++ hs') = hitsOf j hs ++ hitsOf j hs' := by
  rw [hitsOf, List.filter_append, List.map_append]
  rfl

theorem hitsOf_collectors {cs : List Nat} (h : cs.Nodup) (j : Nat) (n : Node) :
    hitsOf j (cs.map fun i => (i, n)) = if j ∈ cs then [n] else [] := by
  induction cs with
  | nil => rfl
  | cons i cs ih =>
    obtain ⟨hi, hcs⟩ := List.nodup_cons.1 h
    rw [List.map_cons, ← List.singleton_append, hitsOf_append, ih hcs]
    by_cases hij : i = j
    · subst hij
      simp [hitsOf, hi]
    · have hji : j ≠ i := Ne.symm hij
      simp [hitsOf, hij, hji]

/-- A collector is attached at the end of one path, or nowhere. -/
def Aims (j : Nat) (target : Option Path) (t : Tree) : Prop :=
  ∀ path, j ∈ t.collected path ↔ target = some path

/-- The rest of a path that begins with a step. -/
def after (s : Segment) : Option Path → Option Path
  | some (u :: path) => if u = s then some path else none
  | _ => none

theorem after_eq_some {s : Segment} {target : Option Path} {path : Path} :
    after s target = some path ↔ target = some (s :: path) := by
  cases target with
  | none => simp [after]
  | some q =>
    cases q with
    | nil => simp [after]
    | cons u q =>
      rw [after]
      by_cases h : u = s
      · subst h
        simp
      · simp [h]

theorem Aims.child {j : Nat} {target : Option Path} {t c : Tree} {s : Segment}
    (h : Aims j target t) (hc : t.child? s = some c) : Aims j (after s target) c := by
  intro path
  rw [after_eq_some, ← h (s :: path), PathNode.collected_cons, hc]
  rfl

theorem nodup_child {t c : Tree} {s : Segment} (hn : ∀ path, (t.collected path).Nodup)
    (hc : t.child? s = some c) (path : Path) : (c.collected path).Nodup := by
  have hnodup := hn (s :: path)
  rwa [PathNode.collected_cons, hc] at hnodup

/-- What a collector meets at one value, when it is attached at the end of this path. -/
def reach (t : Tree) (e : Segment × Node) : Option Path → List Node
  | some (s :: path) =>
    if t.pick e.1 = s then (t.child? s).elim [] fun c => PathNode.followed path c e.2 else []
  | _ => []

theorem hitsOf_hitsAt {j : Nat} {target : Option Path} {t : Tree} {s : Segment} {n : Node}
    {inner : Tree → List Hit} (h : Aims j target t) (hn : ∀ path, (t.collected path).Nodup)
    (hi : ∀ c, t.child? (t.pick s) = some c →
      hitsOf j (inner c) = n.entries.flatMap (reach c · (after (t.pick s) target))) :
    hitsOf j (hitsAt t s n inner) = reach t (s, n) target := by
  have hreach : reach t (s, n) target =
      (t.child? (t.pick s)).elim [] fun c =>
        ((after (t.pick s) target).map fun path => PathNode.followed path c n).getD [] := by
    match target with
    | none => cases t.child? (t.pick s) <;> rfl
    | some [] => cases t.child? (t.pick s) <;> rfl
    | some (u :: path) =>
      rw [reach, after]
      by_cases hu : t.pick s = u
      · subst hu
        simp
      · have hu' : u ≠ t.pick s := Ne.symm hu
        simp only [hu, hu', ↓reduceIte]
        cases t.child? (t.pick s) <;> rfl
  rw [hreach, hitsAt]
  cases hc : t.child? (t.pick s) with
  | none => rfl
  | some c =>
    have haims := h.child hc
    have hcs : c.collectors.Nodup := nodup_child hn hc []
    have hmem : j ∈ c.collectors ↔ after (t.pick s) target = some [] := haims []
    simp only [Option.elim_some]
    rw [hitsOf_append, hitsOf_collectors hcs, hi c hc]
    match hafter : after (t.pick s) target with
    | none => simp [hmem, hafter, reach]
    | some [] => simp [hmem, hafter, reach, PathNode.followed]
    | some (u :: path) => simp [hmem, hafter, reach, PathNode.followed]

theorem hitsOf_hits {o s : Bool} (p : Passage o s) {j : Nat} {target : Option Path} {t : Tree}
    (h : Aims j target t) (hn : ∀ path, (t.collected path).Nodup) (i start k : Nat) :
    hitsOf j (p.hits t i start k) =
      (Node.behind o i (p.nodes start k)).flatMap (reach t · target) := by
  induction p generalizing t target i start k with
  | close sp => rfl
  | token l tok rest ih =>
    rw [Passage.hits, hitsOf_append, ih h hn, hitsOf_hitsAt h hn]
    · rfl
    · intro c hc
      rfl
  | nested l b inside rest ih1 ih2 =>
    rw [Passage.hits, hitsOf_append, ih2 h hn, hitsOf_hitsAt h hn]
    · rfl
    · intro c hc
      rw [Node.entries_group]
      exact ih1 (h.child hc) (nodup_child hn hc) 0 _ _

end Walk

end Quarry
