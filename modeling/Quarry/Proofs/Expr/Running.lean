import Quarry.Proofs.Expr.Scoped

/-!
Evaluation on one stack of arguments: a range pushes its argument once, puts one element after the
other into its place and cuts the stack off at the end. It gives what evaluation gives, leaves the
stack as it was, and looks up the arguments of exactly the fields that `sites` lists.
-/

namespace Quarry.Expr

/-! ### Fields -/

/-- Where a field begins, and the steps from there. Only fields can be ranged over. -/
def origin (bindings : Bindings) : Expr → Except Scalar (Node × List Segment)
  | .field name path => anchor bindings name path
  | e => .error (.error s!"'{e.text}' is not a field")

theorem origin_field (bindings : Bindings) (name : String) (path : Option Path) :
    origin bindings (.field name path) = anchor bindings name path := rfl

def valueAt (o : Node × List Segment) : Result :=
  if Path.hasWildcard o.2 then
    .many ((resolveSteps o.2 [some o.1]).map fun m => (m.map Node.scalar).getD .null)
  else .single (((follow o.1 o.2).map Node.scalar).getD .null)

def elementsAt (f : Expr) (o : Node × List Segment) : Except Scalar (List Node) :=
  if Path.hasWildcard o.2 then .ok ((resolveSteps o.2 [some o.1]).filterMap id)
  else
    match (follow o.1 o.2).bind Node.elements? with
    | some ns => .ok ns
    | none => .error (.error s!"{f.text} is not an array")

theorem evalField_eq (bindings : Bindings) (name : String) (path : Option Path) :
    evalField bindings name path =
      match origin bindings (.field name path) with
      | .error s => .single s
      | .ok o => valueAt o := by
  unfold evalField
  rw [origin_field]
  cases anchor bindings name path <;> rfl

theorem elements_eq (bindings : Bindings) (f : Expr) :
    elements bindings f = origin bindings f >>= elementsAt f := by
  cases f with
  | field name path =>
    rw [elements, origin_field]
    cases anchor bindings name path <;> rfl
  | _ => rfl

/-! ### The machine -/

/-- A field that was looked up, and what came of it. -/
structure Lookup where
  field : Expr
  outcome : Except Scalar (Node × List Segment)

/-- The arguments that are bound, the latest at the end, and the lookups so far. -/
structure Memory where
  stack : List (String × Node)
  log : List Lookup

namespace Memory

def bindings (m : Memory) : Bindings := m.stack.reverse

def push (x : String) (n : Node) (m : Memory) : Memory := { m with stack := m.stack ++ [(x, n)] }

/-- Binds the argument at a place of the stack to another node. -/
def put (slot : Nat) (n : Node) (m : Memory) : Memory :=
  { m with stack := m.stack.modify slot fun b => (b.1, n) }

def truncate (slot : Nat) (m : Memory) : Memory := { m with stack := m.stack.take slot }

def noting (ls : List Lookup) (m : Memory) : Memory := { m with log := m.log ++ ls }

theorem noting_nil (m : Memory) : m.noting [] = m := by
  unfold noting
  rw [List.append_nil]

theorem noting_noting (ks ls : List Lookup) (m : Memory) :
    (m.noting ks).noting ls = m.noting (ks ++ ls) := by
  unfold noting
  rw [List.append_assoc]

end Memory

/-- The only access to the stack. -/
def locate (f : Expr) : StateM Memory (Except Scalar (Node × List Segment)) := do
  let o := origin (← get).bindings f
  modify (Memory.noting [⟨f, o⟩])
  return o

def locateValue (f : Expr) : StateM Memory Result := do
  match ← locate f with
  | .error s => return .single s
  | .ok o => return valueAt o

def locateElements (f : Expr) : StateM Memory (Except Scalar (List Node)) := do
  return (← locate f) >>= elementsAt f

/-- Runs a body with one element after the other at a place of the stack. -/
def inTurn (slot : Nat) (body : StateM Memory Result) : List Node → StateM Memory (List Scalar)
  | [] => return []
  | n :: ns => do
    modify (Memory.put slot n)
    let r ← body
    return r.toScalar :: (← inTurn slot body ns)

/-- Runs a body for each element; without elements the stack is not touched. -/
def eachElement (x : String) (body : StateM Memory Result) : List Node → StateM Memory (List Scalar)
  | [] => return []
  | n :: ns => do
    let slot := (← get).stack.length
    modify (Memory.push x n)
    let ss ← inTurn slot body (n :: ns)
    modify (Memory.truncate slot)
    return ss

mutual

def run : Expr → StateM Memory Result
  | .field name path => locateValue (.field name path)
  | .literal a => return .single a.toScalar
  | .unary op e => do
    let r ← run e
    return annotate (.unary op e) r.hasError (r.map op.apply)
  | .binary op l r => do
    let a ← run l
    let b ← run r
    return annotate (.binary op l r) (a.hasError || b.hasError) (a.zip op.apply b)
  | .connect k es => do
    let ss ← runAll es
    return annotate (.connect k es) (ss.any Scalar.isError) (.single (Scalar.connect k ss))
  | .not e => do
    let r ← run e
    return annotate (.not e) r.toScalar.isError (.single r.toScalar.not)
  | .quantifier q f x b => do
    match ← locateElements f with
    | .error s => return .single s
    | .ok ns => return .single (quantified f.text q (← eachElement x (run b) ns))
  | .aggregate op f x b => do
    match ← locateElements f with
    | .error s => return .single s
    | .ok ns => return .single (aggregateAll op f.text (← eachElement x (run b) ns))
  | .count f => do
    match ← locateElements f with
    | .error s => return .single s
    | .ok ns => return .single (.long (Int64.ofNat ns.length))

def runAll : List Expr → StateM Memory (List Scalar)
  | [] => return []
  | e :: es => do
    let r ← run e
    return r.toScalar :: (← runAll es)

end

/-! ### A run -/

theorem modify_length_append {α : Type} (f : α → α) (as : List α) (a : α) :
    (as ++ [a]).modify as.length f = as ++ [f a] := by
  induction as with
  | nil => rfl
  | cons b as ih =>
    rw [List.cons_append, List.length_cons, List.modify_succ_cons, ih, List.cons_append]

theorem bind_of_eq {α β : Type} {c : StateM Memory α} {f : α → StateM Memory β} {m m' : Memory}
    {a : α} (h : c m = (a, m')) : (c >>= f) m = f a m' := by
  show f (c m).1 (c m).2 = _
  rw [h]

theorem locate_eq (f : Expr) (m : Memory) :
    locate f m = (origin m.bindings f, m.noting [⟨f, origin m.bindings f⟩]) := rfl

theorem locateValue_eq (name : String) (path : Option Path) (m : Memory) :
    locateValue (.field name path) m = (evalField m.bindings name path,
      m.noting [⟨.field name path, origin m.bindings (.field name path)⟩]) := by
  refine (bind_of_eq (locate_eq _ m)).trans ?_
  rw [evalField_eq]
  cases origin m.bindings (.field name path) <;> rfl

theorem locateElements_eq (f : Expr) (m : Memory) :
    locateElements f m = (elements m.bindings f, m.noting [⟨f, origin m.bindings f⟩]) := by
  rw [elements_eq]
  exact bind_of_eq (locate_eq f m)

section

variable {body : StateM Memory Result} {stack : List (String × Node)} {x : String}
  {r : Node → Result} {ls : Node → List Lookup}

/-- The body finds each element in the place of the one before it. -/
theorem inTurn_eq (hbody : ∀ n log, body ⟨stack ++ [(x, n)], log⟩ =
      (r n, ⟨stack ++ [(x, n)], log ++ ls n⟩)) (ns : List Node) :
    ∀ (n : Node) (log : List Lookup), ∃ n',
      inTurn stack.length body ns ⟨stack ++ [(x, n)], log⟩ =
        (ns.map fun n => (r n).toScalar, ⟨stack ++ [(x, n')], log ++ ns.flatMap ls⟩) := by
  induction ns with
  | nil =>
    intro n log
    rw [List.flatMap_nil, List.append_nil]
    exact ⟨n, rfl⟩
  | cons k ns ih =>
    intro n log
    have hput : (⟨stack ++ [(x, n)], log⟩ : Memory).put stack.length k =
        ⟨stack ++ [(x, k)], log⟩ := by
      rw [Memory.put, modify_length_append]
    obtain ⟨n', hrest⟩ := ih k (log ++ ls k)
    refine ⟨n', ?_⟩
    rw [List.flatMap_cons, ← List.append_assoc]
    calc inTurn stack.length body (k :: ns) ⟨stack ++ [(x, n)], log⟩
        = (body >>= fun s => return s.toScalar :: (← inTurn stack.length body ns))
            ⟨stack ++ [(x, k)], log⟩ := bind_of_eq (congrArg (((), ·)) hput)
      _ = (inTurn stack.length body ns >>= fun ss => return (r k).toScalar :: ss)
            ⟨stack ++ [(x, k)], log ++ ls k⟩ := bind_of_eq (hbody k log)
      _ = _ := bind_of_eq hrest

theorem eachElement_eq {m : Memory} (hbody : ∀ n log, body ⟨m.stack ++ [(x, n)], log⟩ =
      (r n, ⟨m.stack ++ [(x, n)], log ++ ls n⟩)) (ns : List Node) :
    eachElement x body ns m = (ns.map fun n => (r n).toScalar, m.noting (ns.flatMap ls)) := by
  cases ns with
  | nil =>
    rw [List.flatMap_nil, Memory.noting_nil]
    rfl
  | cons n ns =>
    obtain ⟨n', hrest⟩ := inTurn_eq hbody (n :: ns) n m.log
    have hcut : (⟨m.stack ++ [(x, n')], m.log ++ (n :: ns).flatMap ls⟩ : Memory).truncate
        m.stack.length = m.noting ((n :: ns).flatMap ls) := by
      simp [Memory.truncate, Memory.noting]
    calc eachElement x body (n :: ns) m
        = (inTurn m.stack.length body (n :: ns) >>= fun ss => do
            modify (Memory.truncate m.stack.length)
            return ss) (m.push x n) := rfl
      _ = (modify (Memory.truncate m.stack.length) >>= fun _ =>
            (return (n :: ns).map fun n => (r n).toScalar : StateM Memory (List Scalar)))
            ⟨m.stack ++ [(x, n')], m.log ++ (n :: ns).flatMap ls⟩ := bind_of_eq hrest
      _ = _ := bind_of_eq (congrArg (((), ·)) hcut)

end

/-- The lookups at sites. -/
def lookups (outer : Bindings) (ss : List Site) : List Lookup :=
  ss.map fun s => ⟨s.field, origin (s.frames ++ outer) s.field⟩

theorem lookups_append (outer : Bindings) (ss ts : List Site) :
    lookups outer (ss ++ ts) = lookups outer ss ++ lookups outer ts := List.map_append

theorem lookups_flatMap (outer : Bindings) (ns : List Node) (ss : Node → List Site) :
    lookups outer (ns.flatMap ss) = ns.flatMap fun n => lookups outer (ss n) := List.map_flatMap ..

/-- A range that begins at a site and what is looked up under it. -/
theorem noting_site (outer frames : Bindings) (f : Expr) (ss : List Site) (m : Memory) :
    m.noting (lookups outer (⟨frames, f⟩ :: ss)) =
      (m.noting [⟨f, origin (frames ++ outer) f⟩]).noting (lookups outer ss) := by
  rw [Memory.noting_noting]
  rfl

theorem eachElement_run {outer : Bindings} {b : Expr} (hb : ∀ {frames : Bindings} {m : Memory},
      m.bindings = frames ++ outer →
      run b m = (eval (frames ++ outer) b, m.noting (lookups outer (sites outer frames b))))
    {x : String} (ns : List Node) {frames : Bindings} {m : Memory}
    (h : m.bindings = frames ++ outer) :
    eachElement x (run b) ns m =
      (ns.map fun n => (eval ((x, n) :: (frames ++ outer)) b).toScalar,
        m.noting (lookups outer (ns.flatMap fun n => sites outer ((x, n) :: frames) b))) := by
  rw [lookups_flatMap]
  apply eachElement_eq
  intro n log
  have hn : (⟨m.stack ++ [(x, n)], log⟩ : Memory).bindings = (x, n) :: frames ++ outer := by
    rw [List.cons_append, ← h]
    exact List.reverse_append
  exact hb hn

mutual

theorem run_eq (outer : Bindings) : (e : Expr) → ∀ {frames : Bindings} {m : Memory},
    m.bindings = frames ++ outer →
    run e m = (eval (frames ++ outer) e, m.noting (lookups outer (sites outer frames e)))
  | .field name path, _, m, h => by
    rw [run, locateValue_eq, h]
    rfl
  | .literal a, _, m, _ => by
    rw [sites, lookups, List.map_nil, Memory.noting_nil]
    rfl
  | .unary _ e, _, _, h => bind_of_eq (run_eq outer e h)
  | .binary _ l r, _, _, h => by
    rw [sites, lookups_append, ← Memory.noting_noting]
    exact (bind_of_eq (run_eq outer l h)).trans (bind_of_eq (run_eq outer r h))
  | .aggregate op f x b, frames, m, h => by
    refine (bind_of_eq (locateElements_eq f m)).trans ?_
    rw [h, eval, sites, noting_site]
    cases elements (frames ++ outer) f with
    | error s => exact congrArg (Prod.mk (Result.single s)) (Memory.noting_nil _).symm
    | ok ns => exact bind_of_eq (eachElement_run (run_eq outer b) ns h)
  | .count f, frames, m, h => by
    refine (bind_of_eq (locateElements_eq f m)).trans ?_
    rw [h, eval]
    cases elements (frames ++ outer) f <;> rfl
  | .connect _ es, _, _, h => bind_of_eq (runAll_eq outer es h)
  | .not e, _, _, h => bind_of_eq (run_eq outer e h)
  | .quantifier q f x b, frames, m, h => by
    refine (bind_of_eq (locateElements_eq f m)).trans ?_
    rw [h, eval, sites, noting_site]
    cases elements (frames ++ outer) f with
    | error s => exact congrArg (Prod.mk (Result.single s)) (Memory.noting_nil _).symm
    | ok ns => exact bind_of_eq (eachElement_run (run_eq outer b) ns h)

theorem runAll_eq (outer : Bindings) : (es : List Expr) → ∀ {frames : Bindings} {m : Memory},
    m.bindings = frames ++ outer →
    runAll es m =
      (evalAll (frames ++ outer) es, m.noting (lookups outer (sitesAll outer frames es)))
  | [], frames, m, h => by
    rw [sitesAll, lookups, List.map_nil, Memory.noting_nil]
    rfl
  | e :: es, frames, m, h => by
    rw [sitesAll, lookups_append, ← Memory.noting_noting]
    exact (bind_of_eq (run_eq outer e h)).trans (bind_of_eq (runAll_eq outer es h))

end

/-! ### Bound lookups -/

theorem Site.Bound.origin_eq {outer : Bindings} {s : Site} {n : Node} {steps : List Segment}
    (h : s.Bound outer n steps) : origin (s.frames ++ outer) s.field = .ok (n, steps) := by
  obtain ⟨name, arg, -, hfield, hn⟩ := h
  rw [← Json.find?_append] at hn
  rw [hfield, origin_field]
  simp only [anchor, Option.elim_some, hn]

/-- A checked expression is run where its argument is bound. Every lookup then finds the argument
that its field begins with: the element of the innermost range of that name, or else the node that
was bound before. The stack is as it was. -/
theorem run_resolved {r : String} {e e' : Expr} {root : Node} {m : Memory}
    (he : resolve [r] e = .ok e') (hr : Json.find? r m.bindings = some root) :
    ∃ ls, run e' m = (eval m.bindings e', { stack := m.stack, log := m.log ++ ls }) ∧
      List.Forall₂ (fun s l => l.field = s.field ∧
        ∃ n steps, s.Bound m.bindings n steps ∧ l.outcome = .ok (n, steps))
        (sites m.bindings [] e') ls := by
  have hscope : ∀ x ∈ [r], (Json.find? x ([] ++ m.bindings)).isSome = true := by
    rw [List.forall_mem_singleton, List.nil_append, hr]
    rfl
  have hbound := sites_bound m.bindings e' (scoped_of_resolve e he) hscope
  refine ⟨lookups m.bindings (sites m.bindings [] e'),
    run_eq m.bindings e' (List.nil_append _).symm, ?_⟩
  rw [lookups, List.forall₂_map_right_iff, List.forall₂_same]
  intro s hs
  obtain ⟨n, steps, h⟩ := hbound s hs
  exact ⟨rfl, n, steps, h, h.origin_eq⟩

/-- The inner ranges go over the elements of the outer one, which has the name of the argument. -/
theorem run_resolved_shadowed :
    let atom (i : Int64) : Node := .atom ⟨0, ⟨0, 0⟩⟩ (.long i)
    let array (ns : List Node) : Node := .array ⟨0, ⟨0, 0⟩⟩ ns
    let first := array [atom 1]
    let second := array [atom 2, atom 3]
    let root : Node := .object ⟨0, ⟨0, 0⟩⟩ [("groups", array [first, second])]
    let body : Expr := .binary .equal (.field "t" none) (.literal (.long 2))
    let e : Expr := .quantifier .any (.field "o.groups" none) "o"
      (.quantifier .any (.field "o" none) "t" body)
    let m : Memory := ⟨[("t", atom 7), ("o", root)], []⟩
    ∃ e' ls, resolve ["o"] e = .ok e' ∧
      run e' m = (.single (.bool true), { stack := m.stack, log := ls }) ∧
      ls.map Lookup.outcome = [.ok (root, [.key "groups"]), .ok (first, []), .ok (atom 1, []),
        .ok (second, []), .ok (atom 2, []), .ok (atom 3, [])] ∧
      List.Forall₂ (fun s l => l.field = s.field ∧
        ∃ n steps, s.Bound m.bindings n steps ∧ l.outcome = .ok (n, steps))
        (sites m.bindings [] e') ls := by
  intro atom array first second root body e m
  have hgroups : Path.parse "o.groups" = .ok [.key "o", .key "groups"] := by rfl
  have ho : Path.parse "o" = .ok [.key "o"] := by rfl
  have ht : Path.parse "t" = .ok [.key "t"] := by rfl
  have he : resolve ["o"] e = .ok (.quantifier .any
      (.field "o.groups" (some [.key "o", .key "groups"])) "o"
      (.quantifier .any (.field "o" (some [.key "o"])) "t"
        (.binary .equal (.field "t" (some [.key "t"])) (.literal (.long 2))))) := by
    simp only [e, body, resolve, resolveIterated, resolveField, hgroups, ho, ht]
    rfl
  obtain ⟨ls, hrun, hls⟩ := run_resolved (m := m) he rfl
  have hlog : ls = _ := (congrArg (fun out => out.2.log) hrun).symm
  refine ⟨_, ls, he, hrun.trans rfl, ?_, hls⟩
  rw [hlog]
  rfl

end Quarry.Expr
