import Quarry.Patch.Patcher
import Quarry.Proofs.Json.Stacked
import Quarry.Proofs.Patch.Accepted
import Quarry.Proofs.Patch.Arena

/-!
The pass of a patch with the containers it is in on a stack. The edits stand in an arena, where each
that is met is taken off its parent. What is left of them afterwards does not come into the next
patch.
-/

namespace Quarry.Patch

open Json Text

namespace Arena

def pathAt (id : Nat) (a : Arena) : String := ((a.slot id).edit.map Edit.path).getD ""

/-- The pointer of the first edit at a slot or below it. -/
def firstTarget (a : Arena) : Nat → Nat → String
  | 0, id => a.pathAt id
  | fuel + 1, id =>
    match (a.slot id).edit, (a.slot id).children with
    | none, (_, c) :: _ => firstTarget a fuel c
    | _, _ => a.pathAt id

/-- Takes a child off. -/
def detach (id : Nat) (name : String) (a : Arena) : Arena :=
  a.modify id fun s => { s with children := erase name s.children }

def target (id : Nat) (a : Arena) : String := a.firstTarget a.length id

end Arena

namespace Splice

/-- A container that the pass is in, by the slot of its node. -/
structure Level where
  node : Nat
  isObject : Bool
  next : Nat

/-- The same with the children of the node that have not been met. -/
structure Open extends Level where
  left : List (String × Node)

/-- Only elements are counted. -/
def Level.passed (f : Level) : Level := if f.isObject then f else { f with next := f.next + 1 }

theorem Level.passed_node (f : Level) : f.passed.node = f.node := by
  rw [passed]
  split
  · rfl
  · rfl

def Level.name (f : Level) (r : Reader) : String :=
  if f.isObject then r.key.getD "" else toString f.next

def staying {F : Type} (f : F) (p : Answer) : Move F Error × Splice :=
  match p with
  | (.ok _, s) => (.stay f, s)
  | (.error e, s) => (.fail e, s)

/-- The value the reader stands on has an edit, or edits below it. -/
def meet {F : Type} (edit : Option Edit) (target : String) (inner : Bool → F) (f : F) (o : Bool)
    (key : Option String) (s : Splice) : Move F Error × Splice :=
  match edit with
  | some e => staying f (change o key e s)
  | none =>
    if s.reader.event = .objectStart then
      (.enter (inner true) f, s.write (Writer.objectStart key))
    else if s.reader.event = .arrayStart then
      (.enter (inner false) f, s.write (Writer.arrayStart key))
    else (.fail (.notFound target), s)

def byNode : Descent Open Splice Error where
  reader s := s.reader
  next s := s.next
  fault s := .read s.reader.fault
  visit f s :=
    let name := f.name s.reader
    let key := keyFor f.isObject name
    let f' : Open := { f with toLevel := f.passed }
    match Node.takeChild name f.left with
    | none => staying f' (s.copyValue key)
    | some (n, left) =>
      meet n.edit n.firstTarget (fun o => ⟨⟨n.id, o, 0⟩, n.children⟩) { f' with left := left }
        f.isObject key s
  close f s := if f.isObject then s.finishObject f.left else s.finishArray f.left

/-- Appends the members that the text did not have. -/
def addSlots (a : Arena) : List (String × Nat) → Splice → Answer
  | [], s => (.ok (), s)
  | (k, id) :: rest, s =>
    match (a.slot id).edit.bind Edit.value? with
    | some payload => addSlots a rest (s.write (Writer.raw (some k) payload))
    | none => s.fail (.notFound (a.target id))

def finishObjectAt (a : Arena) (id : Nat) (s : Splice) : Answer :=
  andThen (addSlots a (a.slot id).children s) fun s => (.ok (), s.write Writer.objectEnd)

def finishArrayAt (a : Arena) (id : Nat) (s : Splice) : Answer :=
  match (a.slot id).children with
  | [] => (.ok (), s.write Writer.arrayEnd)
  | (_, c) :: _ =>
    match (a.slot c).edit with
    | some ⟨.add, path, _⟩ => s.fail (.unsupported path EditKind.add.name)
    | some ⟨.remove, path, _⟩ => s.fail (.unsupported path EditKind.remove.name)
    | _ => s.fail (.notFound (a.target c))

def beside {α : Type} (a : Arena) (p : α × Splice) : α × Arena × Splice := (p.1, a, p.2)

def bySlot : Descent Level (Arena × Splice) Error where
  reader m := m.2.reader
  next m := (m.1, m.2.next)
  fault m := .read m.2.reader.fault
  visit f m :=
    let name := f.name m.2.reader
    let key := keyFor f.isObject name
    match find? name (m.1.slot f.node).children with
    | none => beside m.1 (staying f.passed (m.2.copyValue key))
    | some c =>
      let a := m.1.detach f.node name
      beside a
        (meet (a.slot c).edit (a.target c) (fun o => ⟨c, o, 0⟩) f.passed f.isObject key m.2)
  close f m :=
    beside m.1 (if f.isObject then finishObjectAt m.1 f.node m.2 else finishArrayAt m.1 f.node m.2)

/-! ### The stack and the recursion -/

section

variable {s s' : Splice}

theorem ahead_pass {span : Span} (h : s.reader.failure = none) (hok : s.pass = (.ok span, s')) :
    s.reader.Ahead s'.reader := by
  rw [pass] at hok
  split at hok
  · have hskip (span : Span) (hs : s.reader.skip.1 = .ok span) := Reader.ahead_skip hs
    generalize s.reader.skip = p at hok hskip
    obtain ⟨a, r⟩ := p
    cases a with
    | error e => cases hok
    | ok span' =>
      cases hok
      exact hskip _ rfl
  · cases hok
    exact ⟨h, le_rfl⟩

theorem ahead_dropValue (h : s.reader.failure = none) (hok : s.dropValue = (.ok (), s')) :
    s.reader.Ahead s'.reader := by
  rw [dropValue] at hok
  split at hok
  · rename_i span s1 hp
    cases hok
    exact ahead_pass h hp
  · cases hok

theorem ahead_copyValue {key : Option String} (h : s.reader.failure = none)
    (hok : s.copyValue key = (.ok (), s')) : s.reader.Ahead s'.reader := by
  rw [copyValue] at hok
  split at hok
  · rename_i span s1 hp
    have hahead := ahead_pass h hp
    cases hok
    exact hahead
  · cases hok

theorem ahead_change {o : Bool} {key : Option String} {e : Edit} (h : s.reader.failure = none)
    (hok : change o key e s = (.ok (), s')) : s.reader.Ahead s'.reader := by
  rw [change] at hok
  split at hok
  · obtain ⟨s1, hdrop, hwrite⟩ := andThen_ok hok
    have hahead := ahead_dropValue h hdrop
    cases hwrite
    exact hahead
  · exact ahead_dropValue h hok
  · cases hok

variable {F : Type} {f : F} {move : Move F Error}

theorem ahead_staying {p : Answer} (hp : ∀ s', p = (.ok (), s') → s.reader.Ahead s'.reader)
    (h : staying f p = (move, s')) (hfail : ∀ e, move ≠ .fail e) : s.reader.Ahead s'.reader := by
  obtain ⟨a, s1⟩ := p
  cases a with
  | error e =>
    cases h
    exact absurd rfl (hfail e)
  | ok _ =>
    cases h
    exact hp _ rfl

theorem ahead_meet {edit : Option Edit} {target : String} {inner : Bool → F} {o : Bool}
    {key : Option String} (h : meet edit target inner f o key s = (move, s'))
    (hfail : ∀ e, move ≠ .fail e) (hs : s.reader.failure = none) : s.reader.Ahead s'.reader := by
  unfold meet at h
  split at h
  · exact ahead_staying (fun _ => ahead_change hs) h hfail
  · split at h
    · cases h
      exact ⟨hs, le_rfl⟩
    · split at h
      · cases h
        exact ⟨hs, le_rfl⟩
      · cases h
        exact absurd rfl (hfail _)

end

theorem byNode_orderly : byNode.Orderly where
  next _ := rfl
  visit {f s s' move} h hfail hs := by
    change (match Node.takeChild (f.name s.reader) f.left with
      | none => staying _ (s.copyValue (keyFor f.isObject (f.name s.reader)))
      | some (n, left) => meet n.edit n.firstTarget _ _ f.isObject
          (keyFor f.isObject (f.name s.reader)) s) = (move, s') at h
    split at h
    · exact ahead_staying (fun _ => ahead_copyValue hs) h hfail
    · exact ahead_meet h hfail hs
  close {f s s'} h hs := by
    have hreader : s'.reader = s.reader := reader_finish h
    rw [show byNode.reader s' = s.reader from hreader]
    exact ⟨hs, le_rfl⟩

theorem machine_andThen (a : Answer) (k : Splice → Answer) : Machine.andThen a k = andThen a k := by
  obtain ⟨a, s⟩ := a
  cases a <;> rfl

theorem inside_object (fuel i j : Nat) (left : List (String × Node)) :
    inside fuel true i left = inside fuel true j left := by
  induction fuel generalizing i j left with
  | zero => rfl
  | succ fuel ih =>
    funext s
    rw [inside_succ, inside_succ]
    simp only [↓reduceIte, ih (i + 1) (j + 1)]

theorem inside_passed (fuel : Nat) (f : Level) (left : List (String × Node)) :
    inside fuel f.isObject f.passed.next left = inside fuel f.isObject (f.next + 1) left := by
  rw [Level.passed]
  split
  · rename_i ho
    rw [ho]
    exact inside_object fuel _ _ left
  · rfl

theorem proceed_staying (k : Open → Splice → Answer) (f : Open) (a : Answer) :
    Descent.proceed k (staying f a) = andThen a (k f) := by
  obtain ⟨a, s⟩ := a
  cases a <;> rfl

theorem proceed_meet {k : Open → Splice → Answer} {fuel : Nat} {n : Node} {inner : Bool → Open}
    (hinner : ∀ o, k (inner o) = inside fuel o 0 n.children) (f : Open) (o : Bool)
    (key : Option String) (s : Splice) :
    Descent.proceed k (meet n.edit n.firstTarget inner f o key s) =
      andThen (match n.edit with
        | some e => change o key e s
        | none => enter fuel key n s) (k f) := by
  unfold meet
  cases n.edit with
  | some e => exact proceed_staying k f _
  | none =>
    simp only [enter]
    split
    · show Machine.andThen (k (inner true) _) (k f) = _
      rw [machine_andThen, hinner]
    · split
      · show Machine.andThen (k (inner false) _) (k f) = _
        rw [machine_andThen, hinner]
      · rfl

/-- The pass by frames is the pass by recursion. -/
theorem inside_byNode (fuel : Nat) (f : Open) :
    byNode.inside fuel f = inside fuel f.isObject f.next f.left := by
  induction fuel generalizing f with
  | zero => rfl
  | succ fuel ih =>
    funext s
    have hpassed (left : List (String × Node)) :
        byNode.inside fuel { toLevel := f.passed, left := left } =
          inside fuel f.isObject (f.next + 1) left := by
      have hobject : f.passed.isObject = f.isObject := by
        rw [Level.passed]
        split <;> rfl
      rw [ih, ← inside_passed]
      simp only [hobject]
    rw [Descent.inside, inside_succ]
    show (if s.next.reader.event.isLast then s.next.fault
      else if s.next.reader.event.isEnd then
        if f.isObject then s.next.finishObject f.left else s.next.finishArray f.left
      else Descent.proceed (byNode.inside fuel) (byNode.visit f s.next)) = _
    simp only
    split
    · rfl
    split
    · rfl
    have hvisit : byNode.visit f s.next =
        match Node.takeChild (f.name s.next.reader) f.left with
        | none => staying { toLevel := f.passed, left := f.left }
            (s.next.copyValue (keyFor f.isObject (f.name s.next.reader)))
        | some (n, left) =>
          meet n.edit n.firstTarget (fun o => ⟨⟨n.id, o, 0⟩, n.children⟩)
            { toLevel := f.passed, left := left } f.isObject
            (keyFor f.isObject (f.name s.next.reader)) s.next := rfl
    rw [hvisit]
    show _ = match Node.takeChild (f.name s.next.reader) f.left with
      | none => andThen (s.next.copyValue (keyFor f.isObject (f.name s.next.reader)))
          (inside fuel f.isObject (f.next + 1) f.left)
      | some (n, left) =>
        andThen (match n.edit with
          | some e => change f.isObject (keyFor f.isObject (f.name s.next.reader)) e s.next
          | none => enter fuel (keyFor f.isObject (f.name s.next.reader)) n s.next)
          (inside fuel f.isObject (f.next + 1) left)
    cases Node.takeChild (f.name s.next.reader) f.left with
    | none => exact (proceed_staying _ _ _).trans (congrArg _ (hpassed f.left))
    | some c =>
      obtain ⟨n, left⟩ := c
      have hinner (o : Bool) : byNode.inside fuel ⟨⟨n.id, o, 0⟩, n.children⟩ =
          inside fuel o 0 n.children := ih _
      exact (proceed_meet hinner _ _ _ _).trans (congrArg _ (hpassed left))

/-! ### Slots and nodes -/

section

variable {a a' : Arena} {n : Node} {g : Open} {left : List (String × Node)}

theorem length_family_le (h : a.Shows n.family) (hnodup : n.ids.Nodup) :
    n.family.length ≤ a.length := by
  have hsub : n.ids ⊆ List.range a.length := by
    intro k hk
    obtain ⟨m, hm, rfl⟩ := List.mem_map.1 hk
    rw [List.mem_range]
    obtain ⟨hlt, -⟩ := List.getElem?_eq_some_iff.1 (h m hm)
    exact hlt
  have hle := (List.subperm_of_subset hnodup hsub).length_le
  rwa [Node.ids, List.length_map, List.length_range] at hle

theorem pathAt_eq (h : a.Shows n.family) : a.pathAt n.id = (n.edit.map Edit.path).getD "" := by
  rw [Arena.pathAt, h.slot]
  rfl

theorem firstTarget_eq {fuel : Nat} (h : a.Shows n.family) (hfuel : n.family.length ≤ fuel + 1) :
    a.firstTarget fuel n.id = n.firstTarget := by
  induction fuel generalizing n with
  | zero =>
    obtain ⟨id, edit, cs⟩ := n
    rw [Arena.firstTarget, pathAt_eq h]
    cases cs with
    | nil => cases edit <;> rfl
    | cons c cs =>
      obtain ⟨t, c⟩ := c
      rw [Node.family, Node.familyBelow, Node.family_eq] at hfuel
      simp at hfuel
  | succ fuel ih =>
    have hslot := h.slot
    have hpath := pathAt_eq h
    obtain ⟨id, edit, cs⟩ := n
    rw [Arena.firstTarget, hslot]
    cases edit with
    | some e => exact hpath
    | none =>
      cases cs with
      | nil => exact hpath
      | cons c cs =>
        obtain ⟨t, c⟩ := c
        rw [Node.family, Node.familyBelow, List.length_cons, List.length_append] at hfuel
        have hc : c.family.length ≤ fuel + 1 := by omega
        exact ih (Arena.shows_of_mem h List.mem_cons_self) hc

theorem target_eq (h : a.Shows n.family) (hnodup : n.ids.Nodup) : a.target n.id = n.firstTarget :=
  firstTarget_eq h ((length_family_le h hnodup).trans (Nat.le_succ _))

theorem addSlots_eq (h : a.Shows (Node.familyBelow left)) (hnodup : (Node.idsBelow left).Nodup)
    (s : Splice) : addSlots a (childIds left) s = addMembers left s := by
  induction left generalizing s with
  | nil => rfl
  | cons c left ih =>
    obtain ⟨t, c⟩ := c
    rw [Node.familyBelow, Arena.shows_append] at h
    rw [Node.idsBelow_cons, List.nodup_append] at hnodup
    show addSlots a ((t, c.id) :: childIds left) s = _
    rw [addSlots, addMembers_cons, h.1.slot, target_eq h.1 hnodup.1]
    simp only [Node.slot]
    cases c.edit.bind Edit.value? with
    | some payload => exact ih h.2 hnodup.2.1 _
    | none => rfl

/-- The numbers a frame holds on to. -/
def Open.ids (g : Open) : List Nat := g.node :: Node.idsBelow g.left

/-- The slot of a frame has the children that have not been met. -/
def Open.Stands (a : Arena) (g : Open) : Prop :=
  (∃ edit, a[g.node]? = some ⟨edit, childIds g.left⟩) ∧ a.Shows (Node.familyBelow g.left)

theorem Open.Stands.children (h : g.Stands a) : (a.slot g.node).children = childIds g.left := by
  obtain ⟨⟨edit, hslot⟩, -⟩ := h
  rw [Arena.slot, hslot]
  rfl

theorem Open.Stands.congr (h : g.Stands a) (hsame : ∀ k ∈ g.ids, a'[k]? = a[k]?) : g.Stands a' := by
  obtain ⟨⟨edit, hslot⟩, hshows⟩ := h
  refine ⟨⟨edit, ?_⟩, hshows.congr fun k hk => hsame k (List.mem_cons_of_mem _ hk)⟩
  rw [hsame _ List.mem_cons_self, hslot]

theorem finish_eq_finish (h : g.Stands a) (hnodup : g.ids.Nodup) (s : Splice) :
    (if g.isObject then finishObjectAt a g.node s else finishArrayAt a g.node s) =
      if g.isObject then s.finishObject g.left else s.finishArray g.left := by
  have hbelow := (List.nodup_cons.1 hnodup).2
  split
  · rw [finishObjectAt, finishObject, h.children, addSlots_eq h.2 hbelow]
  · rw [finishArrayAt, h.children]
    cases hleft : g.left with
    | nil => rfl
    | cons c left =>
      obtain ⟨t, c⟩ := c
      have hshows : a.Shows c.family :=
        h.2.mono (Node.family_sublist (hleft ▸ List.mem_cons_self)).subset
      have hnodup : c.ids.Nodup :=
        (Node.ids_sublist (hleft ▸ List.mem_cons_self)).nodup hbelow
      unfold finishArray
      simp only [childIds, List.map_cons, hshows.slot, target_eq hshows hnodup]
      rfl

theorem erase_childIds (name : String) (cs : List (String × Node)) :
    erase name (childIds cs) = childIds (erase name cs) := by
  induction cs with
  | nil => rfl
  | cons c cs ih =>
    obtain ⟨t, c⟩ := c
    have hcons : childIds ((t, c) :: cs) = (t, c.id) :: childIds cs := rfl
    rw [hcons, erase_cons, erase_cons, ih]
    split
    · rfl
    · rfl

/-- Every frame has what it needs in the arena, and none of it is held by another frame. -/
structure Standing (a : Arena) (gs : List Open) : Prop where
  all : ∀ g ∈ gs, g.Stands a
  apart : (gs.flatMap Open.ids).Nodup

theorem Standing.tail {gs : List Open} (h : Standing a (g :: gs)) : Standing a gs := by
  refine ⟨fun h' hh => h.all h' (List.mem_cons_of_mem _ hh), ?_⟩
  have hapart := h.apart
  rw [List.flatMap_cons] at hapart
  exact hapart.of_append_right

theorem Standing.nodup {gs : List Open} (h : Standing a (g :: gs)) : g.ids.Nodup := by
  have hapart := h.apart
  rw [List.flatMap_cons] at hapart
  exact hapart.of_append_left

theorem Standing.ne_nil {gs : List Open} (h : Standing a (g :: gs)) : a ≠ [] := by
  obtain ⟨⟨edit, hslot⟩, -⟩ := h.all g List.mem_cons_self
  rintro rfl
  cases hslot

theorem Standing.passed {gs : List Open} (h : Standing a (g :: gs)) :
    Standing a ({ g with toLevel := g.passed } :: gs) := by
  have hids : Open.ids { g with toLevel := g.passed } = g.ids := by
    rw [Open.ids, Open.ids, g.passed_node]
  refine ⟨?_, ?_⟩
  · rw [List.forall_mem_cons]
    refine ⟨?_, h.tail.all⟩
    rw [Open.Stands, g.passed_node]
    exact h.all g List.mem_cons_self
  · have hapart := h.apart
    rw [List.flatMap_cons] at hapart ⊢
    rwa [hids]

theorem Open.Stands.detach {id : Nat} (h : g.Stands a) (hid : id ∉ g.ids) (name : String) :
    g.Stands (a.detach id name) := by
  apply h.congr
  intro k hk
  apply Arena.getElem?_modify_of_ne
  rintro rfl
  exact hid hk

/-- Taking a child off a frame leaves the numbers of the child to it alone. -/
theorem Standing.apart_take {gs : List Open} {name : String} (h : Standing a (g :: gs))
    (hn : find? name g.left = some n) :
    (n.ids ++ (g.node :: Node.idsBelow (erase name g.left) ++ gs.flatMap Open.ids)).Nodup := by
  have hbelow : List.Perm (Node.idsBelow g.left) (n.ids ++ Node.idsBelow (erase name g.left)) := by
    rw [List.perm_iff_count]
    intro k
    rw [List.count_append, Node.count_erase k hn]
  have hperm : List.Perm ((g :: gs).flatMap Open.ids)
      (n.ids ++ (g.node :: Node.idsBelow (erase name g.left) ++ gs.flatMap Open.ids)) := by
    calc (g :: gs).flatMap Open.ids
        = g.node :: (Node.idsBelow g.left ++ gs.flatMap Open.ids) := rfl
      List.Perm _
          (g.node :: (n.ids ++ Node.idsBelow (erase name g.left) ++ gs.flatMap Open.ids)) :=
        (hbelow.append_right _).cons _
      List.Perm _
          (n.ids ++ (g.node :: Node.idsBelow (erase name g.left) ++ gs.flatMap Open.ids)) := by
        rw [List.append_assoc, List.cons_append]
        exact List.perm_middle.symm
  exact hperm.nodup_iff.1 h.apart

theorem Standing.shows_take {gs : List Open} {name : String} (h : Standing a (g :: gs))
    (hn : find? name g.left = some n) : (a.detach g.node name).Shows n.family := by
  have hshows := (h.all g List.mem_cons_self).2
  apply (hshows.mono (Node.family_sublist (mem_of_find? hn)).subset).congr
  intro k hk
  apply Arena.getElem?_modify_of_ne
  rintro rfl
  exact (List.nodup_append.1 (h.apart_take hn)).2.2 _ hk _ List.mem_cons_self rfl

/-- The child may be entered next to what is left of its parent. -/
theorem Standing.take {gs : List Open} {name : String} (h : Standing a (g :: gs))
    (hn : find? name g.left = some n) {f : Level} (hf : f.node = g.node) (o : Bool) :
    Standing (a.detach g.node name)
      (⟨⟨n.id, o, 0⟩, n.children⟩ :: ⟨f, erase name g.left⟩ :: gs) := by
  have hapart := h.apart_take hn
  obtain ⟨hleft, -, hgs⟩ := List.nodup_append.1 (List.nodup_append.1 hapart).2.1
  refine ⟨?_, ?_⟩
  · rw [List.forall_mem_cons, List.forall_mem_cons]
    refine ⟨?_, ?_, ?_⟩
    · have hfamily := h.shows_take hn
      rw [Node.family_eq, Arena.shows_cons] at hfamily
      exact ⟨⟨n.edit, hfamily.1⟩, hfamily.2⟩
    · obtain ⟨⟨edit, hslot⟩, hshows⟩ := h.all g List.mem_cons_self
      have herased : a.Shows (Node.familyBelow (erase name g.left)) :=
        Arena.shows_below.2 fun c hc => Arena.shows_below.1 hshows c (mem_of_mem_erase hc)
      refine ⟨⟨edit, ?_⟩, ?_⟩
      · show (a.detach g.node name)[f.node]? = some ⟨edit, childIds (erase name g.left)⟩
        rw [hf, Arena.detach, Arena.getElem?_modify_self, hslot, ← erase_childIds]
        rfl
      · apply herased.congr
        intro k hk
        apply Arena.getElem?_modify_of_ne
        rintro rfl
        exact (List.nodup_cons.1 hleft).1 hk
    · intro g' hg'
      refine (h.tail.all g' hg').detach ?_ name
      intro hk
      exact hgs _ List.mem_cons_self _ (List.mem_flatMap.2 ⟨g', hg', hk⟩) rfl
  · rw [← hf, n.ids_eq] at hapart
    exact hapart

/-! ### The two side by side -/

/-- The same pass, by slots and by nodes. -/
structure Alike (m : List Level × Arena × Splice) (n : List Open × Splice) : Prop where
  levels : m.1 = n.1.map Open.toLevel
  standing : Standing m.2.1 n.1
  filled : m.2.1 ≠ []
  splice : m.2.2 = n.2

inductive MovesAlike (gs : List Open) :
    Move Level Error × Arena × Splice → Move Open Error × Splice → Prop
  | fail (e : Error) {a : Arena} (h : a ≠ []) (s : Splice) :
      MovesAlike gs (.fail e, a, s) (.fail e, s)
  | stay {a : Arena} {g : Open} (h : Standing a (g :: gs)) (s : Splice) :
      MovesAlike gs (.stay g.toLevel, a, s) (.stay g, s)
  | enter {a : Arena} {i g : Open} (h : Standing a (i :: g :: gs)) (s : Splice) :
      MovesAlike gs (.enter i.toLevel g.toLevel, a, s) (.enter i g, s)

variable {gs : List Open}

theorem alike_staying (h : Standing a (g :: gs)) (p : Answer) :
    MovesAlike gs (beside a (staying g.toLevel p)) (staying g p) := by
  obtain ⟨answer, s⟩ := p
  cases answer with
  | error e => exact .fail e h.ne_nil s
  | ok _ => exact .stay h s

theorem alike_meet {inner : Bool → Open} (h : ∀ o, Standing a (inner o :: g :: gs))
    (edit : Option Edit) (target : String) (o : Bool) (key : Option String) (s : Splice) :
    MovesAlike gs (beside a (meet edit target (fun o => (inner o).toLevel) g.toLevel o key s))
      (meet edit target inner g o key s) := by
  unfold meet
  cases edit with
  | some e => exact alike_staying (h true).tail _
  | none =>
    simp only
    split
    · exact .enter (h true) _
    · split
      · exact .enter (h false) _
      · exact .fail _ (h true).ne_nil _

theorem alike_visit (h : Standing a (g :: gs)) (s : Splice) :
    MovesAlike gs (bySlot.visit g.toLevel (a, s)) (byNode.visit g s) := by
  have hstands := h.all g List.mem_cons_self
  have hvisit : bySlot.visit g.toLevel (a, s) =
      match find? (g.name s.reader) (a.slot g.node).children with
      | none => beside a (staying g.passed (s.copyValue (keyFor g.isObject (g.name s.reader))))
      | some c =>
        beside (a.detach g.node (g.name s.reader))
          (meet ((a.detach g.node (g.name s.reader)).slot c).edit
            ((a.detach g.node (g.name s.reader)).target c) (fun o => ⟨c, o, 0⟩) g.passed g.isObject
            (keyFor g.isObject (g.name s.reader)) s) := rfl
  have hvisit' : byNode.visit g s =
      match Node.takeChild (g.name s.reader) g.left with
      | none => staying { g with toLevel := g.passed }
          (s.copyValue (keyFor g.isObject (g.name s.reader)))
      | some (n, left) =>
        meet n.edit n.firstTarget (fun o => ⟨⟨n.id, o, 0⟩, n.children⟩)
          { toLevel := g.passed, left := left } g.isObject
          (keyFor g.isObject (g.name s.reader)) s := rfl
  rw [hvisit, hvisit', hstands.children, childIds, find?_map Node.id, Node.takeChild_eq]
  cases hn : find? (g.name s.reader) g.left with
  | none => exact alike_staying h.passed _
  | some n =>
    have hshows := h.shows_take hn
    have hnodup : n.ids.Nodup := (List.nodup_append.1 (h.apart_take hn)).1
    simp only [Option.map_some, hshows.slot, target_eq hshows hnodup]
    exact alike_meet (fun o => h.take hn g.passed_node o) _ _ _ _ _

theorem bySlot_mirrors : bySlot.Mirrors byNode Alike fun m s => m.1 ≠ [] ∧ m.2 = s where
  length h := (congrArg List.length h.levels).trans (List.length_map _)
  weak h := ⟨h.filled, h.splice⟩
  reader h := congrArg Splice.reader h.2
  fault h := congrArg (fun s : Splice => Error.read s.reader.fault) h.2
  next h := ⟨h.levels, h.standing, h.filled, congrArg Splice.next h.splice⟩
  close {f fs m g gs s} h := by
    obtain ⟨hlevels, hstanding, hfilled, hsplice⟩ := h
    obtain ⟨rfl, hfs⟩ := List.cons.inj hlevels
    obtain ⟨a, s'⟩ := m
    obtain rfl : s' = s := hsplice
    have hfinish := finish_eq_finish (hstanding.all g List.mem_cons_self) hstanding.nodup s'
    have hclose : bySlot.close g.toLevel (a, s') = beside a (byNode.close g s') :=
      congrArg (beside a) hfinish
    rw [hclose]
    exact ⟨rfl, ⟨hfilled, rfl⟩, fun _ => ⟨hfs, hstanding.tail, hfilled, rfl⟩⟩
  visit {f fs m g gs s} h := by
    obtain ⟨hlevels, hstanding, -, hsplice⟩ := h
    obtain ⟨rfl, hfs⟩ := List.cons.inj hlevels
    obtain ⟨a, s'⟩ := m
    obtain rfl : s' = s := hsplice
    have hmoves := alike_visit hstanding s'
    obtain rfl : fs = gs.map Open.toLevel := hfs
    generalize bySlot.visit g.toLevel (a, s') = p at hmoves
    generalize byNode.visit g s' = q at hmoves
    cases hmoves with
    | fail e h s => exact ⟨rfl, h, rfl⟩
    | stay h s => exact ⟨rfl, h, h.ne_nil, rfl⟩
    | enter h s => exact ⟨rfl, h, h.ne_nil, rfl⟩

end

/-! ### Documents -/

/-- The stack, the arena and the pass over the text. -/
abbrev Stacked := List Level × Arena × Splice

/-- Nothing but the end may come behind the value of a text. -/
def stop (m : Stacked) : Except Error Unit × Stacked :=
  let m := (m.1, bySlot.next m.2)
  if m.2.2.reader.event = .error then (.error (bySlot.fault m.2), m) else (.ok (), m)

/-- The container at the beginning of a text, and all after it. -/
def enterRoot (isObject : Bool) (m : Stacked) : Except Error Unit × Stacked :=
  let first := if isObject then Writer.objectStart none else Writer.arrayStart none
  let m := (⟨0, isObject, 0⟩ :: m.1, m.2.1, m.2.2.write first)
  Machine.andThen (bySlot.machine.run (m.2.2.reader.input.length + 2) m) stop

def documentOnStack (m : Stacked) : Except Error Unit × Stacked :=
  let m := (m.1, bySlot.next m.2)
  match m.2.2.reader.event with
  | .error => (.error (bySlot.fault m.2), m)
  | .eof => (.error (.read ⟨.emptyDocument, 0⟩), m)
  | .objectStart => enterRoot true m
  | .arrayStart => enterRoot false m
  | _ => (.error (.notFound (m.2.1.target 0)), m)

/-- The answer of a pass on the stack, next to that by recursion. -/
def Agrees (p : Except Error Unit × Stacked) (q : Answer) : Prop :=
  p.1 = q.1 ∧ p.2.2.1 ≠ [] ∧ p.2.2.2 = q.2

section

variable {a : Arena} {root : Node} {s : Splice}

theorem agrees_inside (hshows : a.Shows root.family) (hnodup : root.ids.Nodup)
    (hroot : root.id = 0) (hs : s.reader.failure = none) {fuel : Nat}
    (hfuel : s.reader.cursor.rest.length < fuel) (o : Bool) :
    Agrees (bySlot.machine.run fuel ([⟨0, o, 0⟩], a, s)) (inside fuel o 0 root.children s) := by
  let g : Open := ⟨⟨0, o, 0⟩, root.children⟩
  have hstands : g.Stands a := by
    rw [Node.family_eq, Arena.shows_cons, hroot] at hshows
    exact ⟨⟨root.edit, hshows.1⟩, hshows.2⟩
  have hids : [g].flatMap Open.ids = root.ids := by
    rw [root.ids_eq, hroot, List.flatMap_singleton]
    rfl
  have hstanding : Standing a [g] := ⟨List.forall_mem_singleton.2 hstands, hids ▸ hnodup⟩
  have halike : Alike ([⟨0, o, 0⟩], a, s) ([g], s) := ⟨rfl, hstanding, hstanding.ne_nil, rfl⟩
  have hinside : byNode.inside fuel g s = inside fuel o 0 root.children s :=
    congrFun (inside_byNode fuel g) s
  rw [← hinside]
  exact bySlot_mirrors.run_inside byNode_orderly halike hs hfuel

theorem agrees_stop {p : Except Error Unit × Stacked} {q : Answer} (h : Agrees p q) :
    Agrees (Machine.andThen p stop) (andThen q fun s =>
      let s := s.next
      if s.reader.event = .error then s.fault else (.ok (), s)) := by
  obtain ⟨answer, stack, a, s⟩ := p
  obtain ⟨answer', s'⟩ := q
  obtain ⟨hanswer, hfilled, hsplice⟩ := h
  obtain rfl : answer = answer' := hanswer
  obtain rfl : s = s' := hsplice
  cases answer with
  | error e => exact ⟨rfl, hfilled, rfl⟩
  | ok _ =>
    show Agrees (if s.next.reader.event = .error then _ else _)
      (if s.next.reader.event = .error then _ else _)
    split
    · exact ⟨rfl, hfilled, rfl⟩
    · exact ⟨rfl, hfilled, rfl⟩

/-- On an empty stack a text is gone through as by recursion. -/
theorem documentOnStack_agrees (hshows : a.Shows root.family) (hnodup : root.ids.Nodup)
    (hroot : root.id = 0) (depth : Nat) (source : Bytes) (w : Writer) :
    Agrees (documentOnStack ([], a, ⟨.ofBytes depth source, w⟩))
      (document root ⟨.ofBytes depth source, w⟩) := by
  let s : Splice := ⟨(Reader.ofBytes depth source).next, w⟩
  have hfilled : a ≠ [] := by
    rw [Node.family_eq, Arena.shows_cons] at hshows
    rintro rfl
    cases hshows.1
  have htarget : a.target 0 = root.firstTarget := hroot ▸ target_eq hshows hnodup
  have hentered (hl : s.reader.event.isLast = false) (o : Bool) (first : Writer → Writer) :
      Agrees (bySlot.machine.run (s.reader.input.length + 2) ([⟨0, o, 0⟩], a, s.write first))
        (inside (s.reader.input.length + 2) o 0 root.children (s.write first)) := by
    have hs : s.reader.failure = none := (Reader.sound_next rfl).failure_eq_none hl
    have hle : s.reader.cursor.rest.length ≤ s.reader.input.length := Reader.rest_next_first hl
    have hfuel : (s.write first).reader.cursor.rest.length < s.reader.input.length + 2 := by
      show s.reader.cursor.rest.length < _
      omega
    exact agrees_inside (s := s.write first) hshows hnodup hroot hs hfuel o
  unfold documentOnStack document
  show Agrees (match s.reader.event with
    | .error => (.error (.read s.reader.fault), [], a, s)
    | .eof => (.error (.read ⟨.emptyDocument, 0⟩), [], a, s)
    | .objectStart => enterRoot true ([], a, s)
    | .arrayStart => enterRoot false ([], a, s)
    | _ => (.error (.notFound (a.target 0)), [], a, s))
    (andThen (match s.reader.event with
      | .error => s.fault
      | .eof => s.fail (.read ⟨.emptyDocument, 0⟩)
      | .objectStart =>
        inside (s.reader.input.length + 2) true 0 root.children (s.write (Writer.objectStart none))
      | .arrayStart =>
        inside (s.reader.input.length + 2) false 0 root.children (s.write (Writer.arrayStart none))
      | _ => s.fail (.notFound root.firstTarget)) _)
  cases hevent : s.reader.event with
  | objectStart => exact agrees_stop (hentered (hevent ▸ rfl) true _)
  | arrayStart => exact agrees_stop (hentered (hevent ▸ rfl) false _)
  | error => exact ⟨rfl, hfilled, rfl⟩
  | eof => exact ⟨rfl, hfilled, rfl⟩
  | _ =>
    rw [htarget]
    exact ⟨rfl, hfilled, rfl⟩

end

end Splice

end Quarry.Patch
