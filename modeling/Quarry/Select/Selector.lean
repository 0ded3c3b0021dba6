import Quarry.Config
import Quarry.Document.Basic
import Quarry.Select.PathTree

namespace Quarry

/-- What a path met in a document, in order, with the source text of each value beside it. -/
structure Matches where
  values : List Scalar
  json : List String
deriving Repr, DecidableEq

namespace Matches

def empty : Matches := ⟨[], []⟩

/-- The only match. -/
def single? (m : Matches) : Option Scalar :=
  match m.values with
  | [s] => some s
  | _ => none

def add (s : Scalar) (text : String) (m : Matches) : Matches := ⟨m.values ++ [s], m.json ++ [text]⟩

def setText (slot : Nat) (text : String) (m : Matches) : Matches :=
  { m with json := m.json.set slot text }

end Matches

/-- A reader under way through a document, with the matches so far. -/
structure Walk where
  reader : Json.Reader
  results : List Matches

namespace Walk

/-- Collects paths by the number of their result. -/
abbrev Tree := PathNode Nat

def scalarOf (e : Json.Event) : Scalar :=
  match e with
  | .objectStart => .object
  | .arrayStart => .array
  | e => ((Building.atom? e).map Atom.toScalar).getD .undefined

def textOf (span : Json.Span) (w : Walk) : String := Text.ofBytes (span.of w.reader.input)

/-- Adds a match to every result that ends here. -/
def record (collectors : List Nat) (s : Scalar) (text : String) (w : Walk) : Walk :=
  { w with results := collectors.foldl (fun rs i => rs.modify i (Matches.add s text)) w.results }

/-- The places of the matches that were just added. -/
def slots (collectors : List Nat) (w : Walk) : List (Nat × Nat) :=
  collectors.map fun i => (i, ((w.results[i]?.map fun m => m.json.length).getD 0) - 1)

/-- Puts the text of a container into its places, once it is known. -/
def fill (places : List (Nat × Nat)) (text : String) (w : Walk) : Walk :=
  { w with
    results := places.foldl (fun rs p => rs.modify p.1 (Matches.setText p.2 text)) w.results }

/-- Passes over the container the reader stands on. -/
def skip (w : Walk) : Except Json.ReadError Json.Span × Walk :=
  match w.reader.skip with
  | (s, r) => (s, { w with reader := r })

def childFor (isObject : Bool) (i : Nat) (n : Tree) (w : Walk) : Option Tree :=
  if isObject then n.child? (.key (w.reader.key.getD "")) else n.childAt? i

/-- Goes on unless a fault was met. -/
def andThen (p : Except Json.ReadError Unit × Walk)
    (k : Walk → Except Json.ReadError Unit × Walk) : Except Json.ReadError Unit × Walk :=
  match p with
  | (.ok _, w) => k w
  | (.error e, w) => (.error e, w)

/-- The members or elements of an open container up to its end, of which the next has the index `i`.
The fuel bounds the number of tokens. -/
def inside : Nat → Tree → Bool → Nat → Walk → Except Json.ReadError Unit × Walk
  | 0, _, _, _, w => (.error w.reader.fault, w)
  | fuel + 1, n, isObject, i, w =>
    let w := { w with reader := w.reader.next }
    let event := w.reader.event
    if event.isLast then (.error w.reader.fault, w)
    else if event.isEnd then (.ok (), w)
    else
      andThen
        (match w.childFor isObject i n with
          | none =>
            if event.isStart then
              match w.skip with
              | (s, w) => (s.map fun _ => (), w)
            else (.ok (), w)
          | some c =>
            if event.isStart then
              let start := w.reader.valueStart
              let w := w.record c.collectors (scalarOf event) ""
              let places := w.slots c.collectors
              if c.hasChildren then
                andThen (inside fuel c (event == .objectStart) 0 w) fun w =>
                  (.ok (), w.fill places (w.textOf ⟨start, w.reader.position⟩))
              else
                match w.skip with
                | (.error e, w) => (.error e, w)
                | (.ok s, w) => (.ok (), w.fill places (w.textOf s))
            else (.ok (), w.record c.collectors (scalarOf event) (w.textOf w.reader.span)))
        (inside fuel n isObject (i + 1))

/-- The whole document. -/
def document (root : Tree) (w : Walk) : Except Json.ReadError Unit × Walk :=
  let w := { w with reader := w.reader.next }
  let event := w.reader.event
  if event = .eof then (.ok (), w)
  else if event = .error then (.error w.reader.fault, w)
  else
    andThen
      (if event.isStart then
        if root.hasChildren then
          inside (w.reader.input.length + 2) root (event == .objectStart) 0 w
        else
          match w.skip with
          | (s, w) => (s.map fun _ => (), w)
      else (.ok (), w))
      fun w =>
        let w := { w with reader := w.reader.next }
        if w.reader.event = .error then (.error w.reader.fault, w) else (.ok (), w)

end Walk

/-- Finds all values at a number of paths in one pass over a document. -/
structure Selector where
  paths : List String
  tree : PathTree Nat
  results : List Matches
  failure : Option Json.ReadError
  maxDepth : Nat
  skipped : Nat
  eventsRead : Nat

namespace Selector

def empty (maxDepth : Nat) : Selector := ⟨[], .empty, [], none, maxDepth, 0, 0⟩

def reset (s : Selector) : Selector := .empty s.maxDepth

/-- Adds paths one by one, up to the first that is not well-formed. -/
def addPaths : List String → Selector → Except Path.Error Unit × Selector
  | [], s => (.ok (), s)
  | text :: texts, s =>
    match Path.parse text with
    | .error e => (.error e, s)
    | .ok path =>
      addPaths texts
        { s with paths := s.paths ++ [text], tree := (s.tree.insert path s.paths.length).2 }

/-- Asks for other paths from now on. -/
def setPaths (paths : List String) (s : Selector) : Except Path.Error Unit × Selector :=
  match addPaths paths s.reset with
  | (.error e, s) => (.error e, s)
  | (.ok _, s) => (.ok (), { s with results := s.paths.map fun _ => .empty })

def make (paths : List String) (config : Config) : Except Path.Error Selector :=
  match (Selector.empty config.maxDepth).setPaths paths with
  | (.ok _, s) => .ok s
  | (.error e, _) => .error e

def cleared (s : Selector) : List Matches := s.results.map fun _ => .empty

/-- A limit of zero stands for the default. -/
def depthLimit (s : Selector) : Nat := if s.maxDepth = 0 then Json.defaultMaxDepth else s.maxDepth

/-- Finds the paths in a document; a document that cannot be read has no matches. -/
def select (input : Text.Bytes) (s : Selector) : Except Json.ReadError Unit × Selector :=
  match Walk.document s.tree.root ⟨.ofBytes s.depthLimit input, s.cleared⟩ with
  | (answer, w) =>
    let s := { s with skipped := w.reader.skipped, eventsRead := w.reader.eventsRead }
    match answer with
    | .ok _ => (.ok (), { s with results := w.results, failure := none })
    | .error e => (.error e, { s with results := s.cleared, failure := some e })

end Selector

end Quarry
