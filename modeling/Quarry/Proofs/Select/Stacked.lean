import Quarry.Proofs.Json.Stacked
import Quarry.Proofs.Select.Calls
import Quarry.Proofs.Select.Numbering

/-!
A selection that keeps the containers it is in on a stack, and knows the nodes of its tree by their
numbers. It finds what the selection by recursion finds, and what it leaves behind on the stack and
at the nodes does not come into the next one.
-/

namespace Quarry

open Json Text

namespace Walk

/-- A container that is open; `pending` are the places that wait for its text. -/
structure Open (N : Type) where
  node : N
  isObject : Bool
  next : Nat
  start : Nat
  pending : List (Nat × Nat)

namespace Open

variable {N : Type}

/-- Only elements are counted. -/
def passed (f : Open N) : Open N := if f.isObject then f else { f with next := f.next + 1 }

end Open

variable {N : Type}

def staying (f : Open N) (p : Except ReadError Unit × Walk) : Move (Open N) ReadError × Walk :=
  match p with
  | (.ok _, w) => (.stay f, w)
  | (.error e, w) => (.fail e, w)

/-- No path leads to the value the reader stands on. -/
def miss (f : Open N) (w : Walk) : Move (Open N) ReadError × Walk :=
  if w.reader.event.isStart then staying f (w.passOver fun _ w => w) else (.stay f, w)

/-- The value the reader stands on is at the node `n`, which goes by `c`. -/
def meet (c : N) (n : Tree) (f : Open N) (w : Walk) : Move (Open N) ReadError × Walk :=
  if w.reader.event.isStart then
    let w' := w.record n.collectors (scalarOf w.reader.event) ""
    let places := w'.slots n.collectors
    if n.hasChildren then
      (.enter ⟨c, w.reader.event == .objectStart, 0, w.reader.valueStart, places⟩ f, w')
    else staying f (w'.passOver fun s w => w.fill places (w.textOf s))
  else (.stay f, w.record n.collectors (scalarOf w.reader.event) (w.textOf w.reader.span))

/-- At the end of a container its text is known. -/
def finish (f : Open N) (w : Walk) : Walk :=
  w.fill f.pending (w.textOf ⟨f.start, w.reader.position⟩)

def byNode : Descent (Open Tree) Walk ReadError where
  reader w := w.reader
  next w := { w with reader := w.reader.next }
  fault w := w.reader.fault
  visit f w :=
    match w.childFor f.isObject f.next f.node with
    | none => w.miss f.passed
    | some c => w.meet c c f.passed
  close f w := (.ok (), w.finish f)

/-- The nodes are looked up in a tree, where visits are noted. -/
def byNumber : Descent (Open Nat) (PathTree Nat × Walk) ReadError where
  reader m := m.2.reader
  next m := (m.1, { m.2 with reader := m.2.reader.next })
  fault m := m.2.reader.fault
  visit f m :=
    match m.1.childFor? f.isObject (m.2.reader.key.getD "") f.next f.node with
    | (none, t) => ((m.2.miss f.passed).1, t, (m.2.miss f.passed).2)
    | (some c, t) =>
      ((m.2.meet c (t.nodeAt c) f.passed).1, t, (m.2.meet c (t.nodeAt c) f.passed).2)
  close f m := (.ok (), m.1, m.2.finish f)

/-! ### The stack and the recursion -/

section

variable {f : Open N} {w : Walk}

theorem ahead_staying {done : Span → Walk → Walk} {move : Move (Open N) ReadError} {w' : Walk}
    (hd : ∀ s w, (done s w).reader = w.reader) (h : staying f (w.passOver done) = (move, w'))
    (hfail : ∀ e, move ≠ .fail e) : w.reader.Ahead w'.reader := by
  have hskip (s : Span) (h : w.reader.skip.1 = .ok s) := Reader.ahead_skip h
  rw [passOver, skip] at h
  generalize w.reader.skip = p at h hskip
  obtain ⟨a, r⟩ := p
  cases a with
  | error e =>
    cases h
    exact absurd rfl (hfail e)
  | ok s =>
    cases h
    rw [hd]
    exact hskip s rfl

theorem ahead_miss {move : Move (Open N) ReadError} {w' : Walk} (h : w.miss f = (move, w'))
    (hfail : ∀ e, move ≠ .fail e) (hw : w.reader.failure = none) :
    w.reader.Ahead w'.reader := by
  rw [miss] at h
  split at h
  · exact ahead_staying (fun _ _ => rfl) h hfail
  · cases h
    exact ⟨hw, le_rfl⟩

theorem ahead_meet {c : N} {n : Tree} {move : Move (Open N) ReadError} {w' : Walk}
    (h : w.meet c n f = (move, w')) (hfail : ∀ e, move ≠ .fail e)
    (hw : w.reader.failure = none) : w.reader.Ahead w'.reader := by
  rw [meet] at h
  split at h
  · simp only at h
    split at h
    · cases h
      exact ⟨hw, le_rfl⟩
    · refine ahead_staying (w := w.record n.collectors (scalarOf w.reader.event) "") ?_ h hfail
      exact fun _ _ => rfl
  · cases h
    exact ⟨hw, le_rfl⟩

end

theorem byNode_orderly : byNode.Orderly where
  next _ := rfl
  visit {f w w' move} h hfail hw := by
    change (match w.childFor f.isObject f.next f.node with
      | none => w.miss f.passed
      | some c => w.meet c c f.passed) = (move, w') at h
    split at h
    · exact ahead_miss h hfail hw
    · exact ahead_meet h hfail hw
  close h hw := by
    cases h
    exact ⟨hw, le_rfl⟩

theorem machine_andThen (p : Except ReadError Unit × Walk)
    (k : Walk → Except ReadError Unit × Walk) : Machine.andThen p k = andThen p k := by
  obtain ⟨a, w⟩ := p
  cases a <;> rfl

theorem andThen_assoc (p : Except ReadError Unit × Walk)
    (k l : Walk → Except ReadError Unit × Walk) :
    andThen (andThen p k) l = andThen p fun w => andThen (k w) l := by
  simp only [← machine_andThen, Machine.andThen_assoc]

theorem inside_object (fuel : Nat) (n : Tree) (i j : Nat) (w : Walk) :
    inside fuel n true i w = inside fuel n true j w := by
  induction fuel generalizing i j w with
  | zero => rfl
  | succ fuel ih =>
    rw [inside_succ, inside_succ, funext (ih (i + 1) (j + 1))]
    rfl

theorem inside_passed (fuel : Nat) (f : Open Tree) :
    inside fuel f.node f.isObject f.passed.next = inside fuel f.node f.isObject (f.next + 1) := by
  rw [Open.passed]
  split
  · rename_i ho
    rw [ho]
    exact funext (inside_object fuel f.node _ _)
  · rfl

/-- What comes of a move, but for what is left of the container around. -/
def moved (enter : Tree → Bool → Walk → Except ReadError Unit × Walk)
    (p : Move (Open Tree) ReadError × Walk) : Except ReadError Unit × Walk :=
  match p with
  | (.fail e, w) => (.error e, w)
  | (.stay _, w) => (.ok (), w)
  | (.enter c _, w) => andThen (enter c.node c.isObject w) fun w => (.ok (), w.finish c)

theorem moved_staying (enter : Tree → Bool → Walk → Except ReadError Unit × Walk) (f : Open Tree)
    (p : Except ReadError Unit × Walk) : moved enter (staying f p) = p := by
  obtain ⟨a, w⟩ := p
  cases a <;> rfl

theorem visit_eq_moved (enter : Tree → Bool → Walk → Except ReadError Unit × Walk) (f : Open Tree)
    (w : Walk) : visit enter f.node f.isObject f.next w = moved enter (byNode.visit f w) := by
  have hvisit : byNode.visit f w = match w.childFor f.isObject f.next f.node with
    | none => w.miss f.passed
    | some c => w.meet c c f.passed := rfl
  rw [hvisit, visit]
  cases w.childFor f.isObject f.next f.node with
  | none =>
    simp only [miss]
    by_cases hstart : w.reader.event.isStart = true
    · rw [if_pos hstart, if_pos hstart, moved_staying]
    · rw [if_neg hstart, if_neg hstart, moved]
  | some c =>
    simp only [meet]
    by_cases hstart : w.reader.event.isStart = true
    · rw [if_pos hstart, if_pos hstart]
      by_cases hchildren : c.hasChildren = true
      · rw [if_pos hchildren, if_pos hchildren]
        rfl
      · rw [if_neg hchildren, if_neg hchildren, moved_staying]
    · rw [if_neg hstart, if_neg hstart, moved]

/-- The frames of a move: a container that is entered is at its beginning, and the one around it has
come past it. -/
inductive Moves {N : Type} (f : Open N) : Move (Open N) ReadError → Prop
  | fail (e : ReadError) : Moves f (.fail e)
  | stay : Moves f (.stay f)
  | enter {c : Open N} (h : c.next = 0) : Moves f (.enter c f)

theorem moves_staying (f : Open N) (p : Except ReadError Unit × Walk) :
    Moves f (staying f p).1 := by
  obtain ⟨a, w⟩ := p
  cases a with
  | error e => exact .fail e
  | ok _ => exact .stay

theorem moves_miss (f : Open N) (w : Walk) : Moves f (w.miss f).1 := by
  rw [miss]
  split
  · exact moves_staying _ _
  · exact .stay

theorem moves_meet (c : N) (n : Tree) (f : Open N) (w : Walk) : Moves f (w.meet c n f).1 := by
  rw [meet]
  split
  · simp only
    split
    · exact .enter rfl
    · exact moves_staying _ _
  · exact .stay

theorem moves_visit (f : Open Tree) (w : Walk) : Moves f.passed (byNode.visit f w).1 := by
  show Moves f.passed (match w.childFor f.isObject f.next f.node with
    | none => w.miss f.passed
    | some c => w.meet c c f.passed).1
  split
  · exact moves_miss _ _
  · exact moves_meet _ _ _ _

/-- A container by its frame is its members or elements, and then its text. -/
theorem inside_byNode (fuel : Nat) (f : Open Tree) (w : Walk) :
    byNode.inside fuel f w =
      andThen (inside fuel f.node f.isObject f.next w) fun w => (.ok (), w.finish f) := by
  induction fuel generalizing f w with
  | zero => rfl
  | succ fuel ih =>
    have hpassed (w : Walk) : byNode.inside fuel f.passed w =
        andThen (inside fuel f.node f.isObject (f.next + 1) w) fun w => (.ok (), w.finish f) := by
      rw [ih, ← inside_passed]
      unfold Open.passed
      split <;> rfl
    let w₁ : Walk := { w with reader := w.reader.next }
    rw [Descent.inside, inside_succ]
    show (if w₁.reader.event.isLast then (.error w₁.reader.fault, w₁)
      else if w₁.reader.event.isEnd then (.ok (), w₁.finish f)
      else Descent.proceed (byNode.inside fuel) (byNode.visit f w₁)) =
      andThen (if w₁.reader.event.isLast then (.error w₁.reader.fault, w₁)
        else if w₁.reader.event.isEnd then (.ok (), w₁)
        else andThen (visit (inside fuel · · 0 ·) f.node f.isObject f.next w₁)
          (inside fuel f.node f.isObject (f.next + 1))) fun w => (.ok (), w.finish f)
    split
    · rfl
    split
    · rfl
    have hmoves := moves_visit f w₁
    rw [visit_eq_moved, andThen_assoc]
    generalize byNode.visit f w₁ = p at hmoves ⊢
    obtain ⟨move, w₂⟩ := p
    cases hmoves with
    | fail e => rfl
    | stay => exact hpassed w₂
    | @enter c hnext =>
      show Machine.andThen (byNode.inside fuel c w₂) (byNode.inside fuel f.passed) = _
      rw [machine_andThen, ih, hnext, funext hpassed]
      rfl

/-! ### Numbers and nodes -/

section

variable {tree : PathTree Nat}

/-- A frame that goes by the number of a node instead of the node. -/
def Stands (tree : PathTree Nat) (f : Open Nat) (g : Open Tree) : Prop :=
  tree.node? f.node = some g.node ∧ f = { g with node := f.node }

/-- The same selection, by number and by node. -/
structure Alike (tree : PathTree Nat) (m : List (Open Nat) × PathTree Nat × Walk)
    (n : List (Open Tree) × Walk) : Prop where
  frames : List.Forall₂ (Stands tree) m.1 n.1
  tree : m.2.1.unvisited = tree
  walk : m.2.2 = n.2

inductive MovesAlike (tree : PathTree Nat) :
    Move (Open Nat) ReadError × Walk → Move (Open Tree) ReadError × Walk → Prop
  | fail (e : ReadError) (w : Walk) : MovesAlike tree (.fail e, w) (.fail e, w)
  | stay {f : Open Nat} {g : Open Tree} (h : Stands tree f g) (w : Walk) :
      MovesAlike tree (.stay f, w) (.stay g, w)
  | enter {c f : Open Nat} {d g : Open Tree} (hc : Stands tree c d) (h : Stands tree f g)
      (w : Walk) : MovesAlike tree (.enter c f, w) (.enter d g, w)

variable {f : Open Nat} {g : Open Tree}

theorem Stands.passed (h : Stands tree f g) : Stands tree f.passed g.passed := by
  obtain ⟨hnode, hf⟩ := h
  rw [hf, Open.passed, Open.passed]
  show Stands tree (if g.isObject then _ else _) (if g.isObject then _ else _)
  split
  · exact ⟨hnode, rfl⟩
  · exact ⟨hnode, rfl⟩

theorem alike_staying (h : Stands tree f g) (p : Except ReadError Unit × Walk) :
    MovesAlike tree (staying f p) (staying g p) := by
  obtain ⟨a, w⟩ := p
  cases a with
  | error e => exact .fail e w
  | ok _ => exact .stay h w

theorem alike_miss (h : Stands tree f g) (w : Walk) :
    MovesAlike tree (w.miss f) (w.miss g) := by
  rw [miss, miss]
  split
  · exact alike_staying h _
  · exact .stay h w

theorem alike_meet {c : Nat} {m n : Tree} (h : Stands tree f g) (hc : tree.node? c = some n)
    (hcollectors : m.collectors = n.collectors) (hchildren : m.hasChildren = n.hasChildren)
    (w : Walk) : MovesAlike tree (w.meet c m f) (w.meet n n g) := by
  rw [meet, meet, hcollectors, hchildren]
  split
  · simp only
    split
    · exact .enter ⟨hc, rfl⟩ h _
    · exact alike_staying h _
  · exact .stay h _

theorem mem_of_childFor {n c : Tree} {o : Bool} {i : Nat} {w : Walk}
    (h : w.childFor o i n = some c) : ∃ s, (s, c) ∈ n.children := by
  rw [childFor] at h
  split at h
  · exact ⟨_, PathNode.mem_of_child? h⟩
  · rw [PathNode.childAt?, Option.or_eq_some_iff] at h
    rcases h with h | ⟨-, h⟩
    · exact ⟨_, PathNode.mem_of_child? h⟩
    · exact ⟨_, PathNode.mem_of_child? h⟩

theorem alike_visit {t : PathTree Nat} (hnodup : tree.root.ids.Nodup) (ht : t.unvisited = tree)
    (h : Stands tree f g) (w : Walk) :
    (byNumber.visit f (t, w)).2.1.unvisited = tree ∧
      MovesAlike tree ((byNumber.visit f (t, w)).1, (byNumber.visit f (t, w)).2.2)
        (byNode.visit g w) := by
  have hpassed := h.passed
  obtain ⟨hnode, hf⟩ := h
  have hobject : f.isObject = g.isObject := by rw [hf]
  have hnext : f.next = g.next := by rw [hf]
  obtain ⟨t', ht', hchild⟩ :=
    PathTree.childFor?_eq ht hnode g.isObject (w.reader.key.getD "") g.next
  have hvisit : byNumber.visit f (t, w) =
      match t.childFor? f.isObject (w.reader.key.getD "") f.next f.node with
      | (none, t) => ((w.miss f.passed).1, t, (w.miss f.passed).2)
      | (some c, t) =>
        ((w.meet c (t.nodeAt c) f.passed).1, t, (w.meet c (t.nodeAt c) f.passed).2) := rfl
  have hvisit' : byNode.visit g w = match w.childFor g.isObject g.next g.node with
    | none => w.miss g.passed
    | some c => w.meet c c g.passed := rfl
  rw [hvisit, hvisit', hobject, hnext, hchild]
  have hmem := fun c =>
    mem_of_childFor (n := g.node) (c := c) (o := g.isObject) (i := g.next) (w := w)
  change ∀ c, (if g.isObject then g.node.child? (.key (w.reader.key.getD ""))
    else g.node.childAt? g.next) = some c → _ at hmem
  show _ ∧ MovesAlike tree _ (match (if g.isObject then
      g.node.child? (.key (w.reader.key.getD "")) else g.node.childAt? g.next : Option Tree) with
    | none => w.miss g.passed
    | some c => w.meet c c g.passed)
  generalize (if g.isObject then g.node.child? (.key (w.reader.key.getD ""))
    else g.node.childAt? g.next) = child at hmem
  cases child with
  | none => exact ⟨ht', alike_miss hpassed w⟩
  | some c =>
    obtain ⟨s, hs⟩ := hmem c rfl
    have hc : tree.node? c.id = some c := PathNode.withId?_child hs hnodup hnode
    obtain ⟨hcollectors, hchildren⟩ := PathTree.collectors_nodeAt ht' hc
    exact ⟨ht', alike_meet hpassed hc hcollectors hchildren w⟩

theorem byNumber_mirrors (hnodup : tree.root.ids.Nodup) :
    byNumber.Mirrors byNode (Alike tree) fun m w => m.1.unvisited = tree ∧ m.2 = w where
  length h := h.frames.length_eq
  weak h := ⟨h.tree, h.walk⟩
  reader h := congrArg Walk.reader h.2
  fault h := congrArg (fun w : Walk => w.reader.fault) h.2
  next h := ⟨h.frames, h.tree, congrArg byNode.next h.walk⟩
  close {f fs m g gs w} h := by
    obtain ⟨hframes, htree, hwalk⟩ := h
    obtain ⟨hf, hfs⟩ := List.forall₂_cons.1 hframes
    have hfinish : m.2.finish f = w.finish g := by
      rw [show m.2 = w from hwalk, hf.2]
      rfl
    exact ⟨rfl, ⟨htree, hfinish⟩, fun _ => ⟨hfs, htree, hfinish⟩⟩
  visit {f fs m g gs w} h := by
    obtain ⟨hframes, htree, hwalk⟩ := h
    obtain ⟨hf, hfs⟩ := List.forall₂_cons.1 hframes
    obtain ⟨t, w'⟩ := m
    obtain rfl : w' = w := hwalk
    obtain ⟨ht, hmoves⟩ := alike_visit hnodup htree hf w'
    generalize byNumber.visit f (t, w') = p at ht hmoves
    generalize byNode.visit g w' = q at hmoves
    obtain ⟨move, t', w₁⟩ := p
    cases hmoves with
    | fail e => exact ⟨rfl, ht, rfl⟩
    | stay hf => exact ⟨.cons hf hfs, ht, rfl⟩
    | enter hc hf => exact ⟨.cons hc (.cons hf hfs), ht, rfl⟩

end

/-! ### Documents -/

/-- The stack, the tree and the pass over the text. -/
abbrev Stacked := List (Open Nat) × PathTree Nat × Walk

/-- A container at the beginning of a text is entered if there are paths to follow. -/
def start (m : Stacked) : Except ReadError Unit × Stacked :=
  match m with
  | (stack, tree, w) =>
    if w.reader.event.isStart then
      if tree.isEmpty then
        match w.passOver fun _ w => w with
        | (a, w) => (a, stack, tree, w)
      else
        (.ok (), ⟨0, w.reader.event == .objectStart, 0, w.reader.valueStart, []⟩ :: stack, tree, w)
    else (.ok (), stack, tree, w)

/-- Nothing but the end may come behind the value of a text. -/
def stop (m : Stacked) : Except ReadError Unit × Stacked :=
  let m := (m.1, byNumber.next m.2)
  if m.2.2.reader.event = .error then (.error m.2.2.reader.fault, m) else (.ok (), m)

def documentOnStack (m : Stacked) : Except ReadError Unit × Stacked :=
  let m := (m.1, byNumber.next m.2)
  let reader := m.2.2.reader
  if reader.event = .eof then (.ok (), m)
  else if reader.event = .error then (.error reader.fault, m)
  else
    Machine.andThen (start m) fun m =>
      Machine.andThen (byNumber.machine.run (reader.input.length + 2) m) stop

/-- The answer of a selection on the stack, next to that by recursion. -/
def Agrees (tree : PathTree Nat) (p : Except ReadError Unit × Stacked)
    (q : Except ReadError Unit × Walk) : Prop :=
  p.1 = q.1 ∧ p.2.2.1.unvisited = tree ∧ p.2.2.2 = q.2

/-- A container that is at the beginning of a text. -/
theorem agrees_inside {t tree : PathTree Nat} {w : Walk} (htree : tree.Numbered)
    (ht : t.unvisited = tree) (hw : w.reader.failure = none) {fuel : Nat}
    (hfuel : w.reader.cursor.rest.length < fuel) (o : Bool) (begin : Nat) :
    Agrees tree (byNumber.machine.run fuel ([⟨0, o, 0, begin, []⟩], t, w))
      (inside fuel tree.root o 0 w) := by
  let f : Open Nat := ⟨0, o, 0, begin, []⟩
  let g : Open Tree := ⟨tree.root, o, 0, begin, []⟩
  have hstands : Stands tree f g := by
    refine ⟨?_, rfl⟩
    show tree.root.withId? 0 = some tree.root
    rw [← htree.root]
    exact PathNode.withId?_self tree.root
  have halike : Alike tree ([f], t, w) ([g], w) := ⟨.cons hstands .nil, ht, rfl⟩
  have hinside : byNode.inside fuel g w = inside fuel tree.root o 0 w := by
    rw [inside_byNode]
    show andThen (inside fuel tree.root o 0 w) (fun w => (.ok (), w)) = _
    generalize inside fuel tree.root o 0 w = p
    obtain ⟨a, w'⟩ := p
    cases a <;> rfl
  rw [← hinside]
  exact (byNumber_mirrors htree.nodes.nodup).run_inside byNode_orderly halike hw hfuel

theorem run_nil (fuel : Nat) (m : PathTree Nat × Walk) :
    byNumber.machine.run fuel ([], m) = (.ok (), [], m) := by
  cases fuel <;> rfl

theorem agrees_stop {tree : PathTree Nat} {p : Except ReadError Unit × Stacked}
    {q : Except ReadError Unit × Walk} (h : Agrees tree p q) :
    Agrees tree (Machine.andThen p stop) (andThen q fun w =>
      let w := { w with reader := w.reader.next }
      if w.reader.event = .error then (.error w.reader.fault, w) else (.ok (), w)) := by
  obtain ⟨a, stack, t, w⟩ := p
  obtain ⟨b, w'⟩ := q
  obtain ⟨hanswer, htree, hwalk⟩ := h
  obtain rfl : a = b := hanswer
  obtain rfl : w = w' := hwalk
  cases a with
  | error e => exact ⟨rfl, htree, rfl⟩
  | ok _ =>
    show Agrees tree (stop (stack, t, w)) _
    unfold stop
    simp only [andThen]
    show Agrees tree (if w.reader.next.event = .error then _ else _)
      (if w.reader.next.event = .error then _ else _)
    split
    · exact ⟨rfl, htree, rfl⟩
    · exact ⟨rfl, htree, rfl⟩

/-- On an empty stack a text is read as by recursion. -/
theorem documentOnStack_agrees {t tree : PathTree Nat} (htree : tree.Numbered)
    (ht : t.unvisited = tree) (depth : Nat) (input : Bytes) (results : List Matches) :
    Agrees tree (documentOnStack ([], t, ⟨.ofBytes depth input, results⟩))
      (document tree.root ⟨.ofBytes depth input, results⟩) := by
  let w : Walk := ⟨(Reader.ofBytes depth input).next, results⟩
  rw [document_eq]
  show Agrees tree
    (if w.reader.event = .eof then (.ok (), [], t, w)
      else if w.reader.event = .error then (.error w.reader.fault, [], t, w)
      else Machine.andThen (start ([], t, w)) fun m =>
        Machine.andThen (byNumber.machine.run (w.reader.input.length + 2) m) stop)
    (if w.reader.event = .eof then (.ok (), w)
      else if w.reader.event = .error then (.error w.reader.fault, w)
      else andThen (if w.reader.event.isStart then
          if tree.root.hasChildren then
            inside (w.reader.input.length + 2) tree.root (w.reader.event == .objectStart) 0 w
          else w.passOver fun _ w => w
        else (.ok (), w)) _)
  split
  · exact ⟨rfl, ht, rfl⟩
  rename_i heof
  split
  · exact ⟨rfl, ht, rfl⟩
  rename_i herror
  have hl : w.reader.event.isLast = false := by
    rw [Bool.eq_false_iff]
    intro hl
    rcases Reader.eof_or_error hl with h | h
    · exact heof h
    · exact herror h
  rw [start]
  split
  · rename_i hstart
    have hempty : t.isEmpty = !tree.root.hasChildren := by
      rw [← ht, PathTree.isEmpty, PathTree.unvisited, PathNode.hasChildren_unvisited]
    rw [hempty]
    cases tree.root.hasChildren with
    | true =>
      have hw : w.reader.failure = none := (Reader.sound_next rfl).failure_eq_none hl
      have hfuel : w.reader.cursor.rest.length < w.reader.input.length + 2 := by
        have hle : w.reader.cursor.rest.length ≤ w.reader.input.length :=
          Reader.rest_next_first hl
        omega
      exact agrees_stop (agrees_inside htree ht hw hfuel _ _)
    | false =>
      show Agrees tree (Machine.andThen (match w.passOver fun _ w => w with
        | (a, w) => (a, [], t, w)) _) (andThen (w.passOver fun _ w => w) _)
      generalize w.passOver (fun _ w => w) = p
      obtain ⟨a, w'⟩ := p
      cases a with
      | error e => exact ⟨rfl, ht, rfl⟩
      | ok _ =>
        show Agrees tree
          (Machine.andThen (byNumber.machine.run (w.reader.input.length + 2) ([], t, w')) stop) _
        rw [run_nil]
        exact agrees_stop (q := (.ok (), w')) ⟨rfl, ht, rfl⟩
  · show Agrees tree (Machine.andThen (byNumber.machine.run (w.reader.input.length + 2) ([], t, w))
      stop) _
    rw [run_nil]
    exact agrees_stop ⟨rfl, ht, rfl⟩

end Walk

namespace Selector

/-- A selector with its stack; the visits of its nodes stay noted. -/
structure Engine where
  selector : Selector
  stack : List (Walk.Open Nat)

namespace Engine

def empty (maxDepth : Nat) : Engine := ⟨.empty maxDepth, []⟩

def reset (e : Engine) : Engine := ⟨e.selector.reset, []⟩

def setPaths (paths : List String) (e : Engine) : Except Path.Error Unit × Engine :=
  match addPaths paths e.reset.selector with
  | (.error err, s) => (.error err, { e.reset with selector := s })
  | (.ok _, s) =>
    (.ok (), { e.reset with selector := { s with results := s.paths.map fun _ => .empty } })

/-- What is forgotten before a document is read. -/
def clear (e : Engine) : Engine :=
  ⟨{ e.selector with results := e.selector.cleared, failure := none }, []⟩

/-- What stays of a pass over a document; without an answer there are no matches. -/
def keep (s : Selector) (p : Except ReadError Unit × Walk.Stacked) :
    Except ReadError Unit × Engine :=
  match p with
  | (answer, stack, tree, w) =>
    let s : Selector := { s with
      tree := tree
      results := w.results
      skipped := w.reader.skipped
      eventsRead := w.reader.eventsRead }
    match answer with
    | .ok _ => (.ok (), ⟨s, stack⟩)
    | .error err => (.error err, ⟨{ s with results := s.cleared, failure := some err }, stack⟩)

def select (input : Bytes) (e : Engine) : Except ReadError Unit × Engine :=
  let e := e.clear
  keep e.selector (Walk.documentOnStack (e.stack, e.selector.tree,
    ⟨.ofBytes e.selector.depthLimit input, e.selector.results⟩))

/-- The selector without what only selections look at. -/
def plain (e : Engine) : Selector := { e.selector with tree := e.selector.tree.unvisited }

variable {e : Engine}

theorem select_agrees (h : e.selector.tree.Numbered) (input : Bytes) :
    (e.select input).1 = (e.plain.select input).1 ∧
      (e.select input).2.plain = (e.plain.select input).2 := by
  let w : Walk := ⟨.ofBytes e.selector.depthLimit input, e.selector.cleared⟩
  let tree := e.selector.tree.unvisited
  have hlength := Walk.length_document tree.root w
  have hagrees := Walk.documentOnStack_agrees (PathTree.numbered_unvisited.2 h) rfl
    e.selector.depthLimit input e.selector.cleared
  change Walk.Agrees tree (Walk.documentOnStack ([], e.selector.tree, w))
    (Walk.document tree.root w) at hagrees
  have hplain : e.plain.select input =
      match Walk.document tree.root w with
      | (answer, w) =>
        let s := { e.plain with skipped := w.reader.skipped, eventsRead := w.reader.eventsRead }
        match answer with
        | .ok _ => (.ok (), { s with results := w.results, failure := none })
        | .error err => (.error err, { s with results := s.cleared, failure := some err }) := rfl
  have hselect : e.select input =
      keep e.clear.selector (Walk.documentOnStack ([], e.selector.tree, w)) := rfl
  rw [hplain, hselect]
  generalize Walk.documentOnStack ([], e.selector.tree, w) = p at hagrees
  generalize Walk.document tree.root w = q at hagrees hlength
  obtain ⟨a, stack, t, w₁⟩ := p
  obtain ⟨b, w₂⟩ := q
  obtain ⟨hanswer, ht, hwalk⟩ := hagrees
  obtain rfl : a = b := hanswer
  obtain rfl : w₁ = w₂ := hwalk
  cases a with
  | ok _ => exact ⟨rfl, by simp only [keep, plain, ht]; rfl⟩
  | error err =>
    refine ⟨rfl, ?_⟩
    have hlength : w₁.results.length = e.selector.results.length := by
      rw [hlength]
      exact List.length_map _
    simp only [keep, plain, ht, cleared, List.map_const', hlength]
    rfl

theorem numbered_select (h : e.selector.tree.Numbered) (input : Bytes) :
    (e.select input).2.selector.tree.Numbered := by
  rw [← PathTree.numbered_unvisited]
  have hplain := congrArg Selector.tree (select_agrees h input).2
  rw [(select_keeps input e.plain).2.1] at hplain
  show (e.select input).2.plain.tree.Numbered
  rw [hplain]
  exact PathTree.numbered_unvisited.2 h

theorem addPaths_tree {s : Selector} (texts : List String) (h : s.tree.Numbered)
    (hs : s.tree.unvisited = s.tree) :
    (addPaths texts s).2.tree.Numbered ∧
      (addPaths texts s).2.tree.unvisited = (addPaths texts s).2.tree := by
  induction texts generalizing s with
  | nil => exact ⟨h, hs⟩
  | cons text texts ih =>
    rw [addPaths]
    split
    · exact ⟨h, hs⟩
    · rename_i path _
      apply ih
      · exact h.insert path s.paths.length
      · show (s.tree.insert path s.paths.length).2.unvisited = _
        rw [← PathTree.insert_unvisited, hs]

theorem setPaths_agrees (paths : List String) (e : Engine) :
    (e.setPaths paths).2.selector.tree.Numbered ∧
      (e.setPaths paths).1 = (e.plain.setPaths paths).1 ∧
      (e.setPaths paths).2.plain = (e.plain.setPaths paths).2 := by
  obtain ⟨hnumbered, htree⟩ :=
    addPaths_tree (s := e.reset.selector) paths PathTree.numbered_empty rfl
  have hplain : e.plain.setPaths paths =
      match addPaths paths e.reset.selector with
      | (.error err, s) => (.error err, s)
      | (.ok _, s) => (.ok (), { s with results := s.paths.map fun _ => .empty }) := rfl
  rw [hplain, setPaths]
  generalize addPaths paths e.reset.selector = p at hnumbered htree
  obtain ⟨a, s⟩ := p
  cases a with
  | error err => exact ⟨hnumbered, rfl, by simp only [plain, htree]⟩
  | ok _ => exact ⟨hnumbered, rfl, by simp only [plain, htree]⟩

def call (e : Engine) : Call → Engine
  | .setPaths paths => (e.setPaths paths).2
  | .reset => e.reset
  | .select input => (e.select input).2

theorem call_agrees (h : e.selector.tree.Numbered) (c : Call) :
    (e.call c).selector.tree.Numbered ∧ (e.call c).plain = e.plain.call c := by
  cases c with
  | setPaths paths =>
    obtain ⟨hnumbered, -, hplain⟩ := setPaths_agrees paths e
    exact ⟨hnumbered, hplain⟩
  | reset => exact ⟨PathTree.numbered_empty, rfl⟩
  | select input => exact ⟨numbered_select h input, (select_agrees h input).2⟩

theorem calls_agree (h : e.selector.tree.Numbered) (calls : List Call) :
    (calls.foldl call e).selector.tree.Numbered ∧
      (calls.foldl call e).plain = calls.foldl Selector.call e.plain := by
  induction calls generalizing e with
  | nil => exact ⟨h, rfl⟩
  | cons c calls ih =>
    obtain ⟨hnumbered, hplain⟩ := call_agrees h c
    rw [List.foldl_cons, List.foldl_cons, ← hplain]
    exact ih hnumbered

end Engine

end Selector

end Quarry
