import Quarry.Json.Reader
import Quarry.Json.Writer
import Quarry.Patch.Tree

/-!
One pass over a text that makes the edits of a tree and copies everything else as it stands.
-/

namespace Quarry.Patch

/-- A reader under way through the text, and what has been written. -/
structure Splice where
  reader : Json.Reader
  writer : Json.Writer

namespace Splice

abbrev Answer := Except Error Unit × Splice

def fail (e : Error) (s : Splice) : Answer := (.error e, s)

def fault (s : Splice) : Answer := (.error (.read s.reader.fault), s)

def andThen (a : Answer) (k : Splice → Answer) : Answer :=
  match a with
  | (.ok _, s) => k s
  | (.error e, s) => (.error e, s)

def next (s : Splice) : Splice := { s with reader := s.reader.next }

def write (f : Json.Writer → Json.Writer) (s : Splice) : Splice := { s with writer := f s.writer }

/-- Passes over the value the reader stands on, and gives its place. -/
def pass (s : Splice) : Except Error Json.Span × Splice :=
  if s.reader.event.isStart then
    match s.reader.skip with
    | (.ok span, r) => (.ok span, { s with reader := r })
    | (.error e, r) => (.error (.read e), { s with reader := r })
  else (.ok s.reader.span, s)

def dropValue (s : Splice) : Answer :=
  match s.pass with
  | (.ok _, s) => (.ok (), s)
  | (.error e, s) => (.error e, s)

def copyValue (key : Option String) (s : Splice) : Answer :=
  match s.pass with
  | (.ok span, s) => (.ok (), s.write (Json.Writer.raw key (span.of s.reader.input)))
  | (.error e, s) => (.error e, s)

def replaceValue (key : Option String) (payload : Text.Bytes) (s : Splice) : Answer :=
  andThen s.dropValue fun s => (.ok (), s.write (Json.Writer.raw key payload))

/-- Appends the members that the text did not have. -/
def addMembers : List (String × Node) → Splice → Answer
  | [], s => (.ok (), s)
  | (k, n) :: rest, s =>
    match n.edit with
    | some ⟨.replace, _, payload⟩ => addMembers rest (s.write (Json.Writer.raw (some k) payload))
    | some ⟨.add, _, payload⟩ => addMembers rest (s.write (Json.Writer.raw (some k) payload))
    | _ => s.fail (.notFound n.firstTarget)

def finishObject (left : List (String × Node)) (s : Splice) : Answer :=
  andThen (addMembers left s) fun s => (.ok (), s.write Json.Writer.objectEnd)

/-- Elements are neither added nor left out. -/
def finishArray (left : List (String × Node)) (s : Splice) : Answer :=
  match left with
  | [] => (.ok (), s.write Json.Writer.arrayEnd)
  | (_, n) :: _ =>
    match n.edit with
    | some ⟨.add, path, _⟩ => s.fail (.unsupported path EditKind.add.name)
    | some ⟨.remove, path, _⟩ => s.fail (.unsupported path EditKind.remove.name)
    | _ => s.fail (.notFound n.firstTarget)

/-- The members or elements of an open container up to its end, of which the next has the index `i`;
`left` are the children of its node that have not been met yet. The fuel bounds the number of
tokens. -/
def inside : Nat → Bool → Nat → List (String × Node) → Splice → Answer
  | 0, _, _, _, s => s.fault
  | fuel + 1, isObject, i, left, s =>
    let s := s.next
    let event := s.reader.event
    if event.isLast then s.fault
    else if event.isEnd then if isObject then s.finishObject left else s.finishArray left
    else
      let name := if isObject then s.reader.key.getD "" else toString i
      let key := if isObject then some name else none
      match Node.takeChild name left with
      | none => andThen (s.copyValue key) (inside fuel isObject (i + 1) left)
      | some (n, left) =>
        andThen
          (match n.edit with
            | some ⟨.replace, _, payload⟩ => s.replaceValue key payload
            | some ⟨.add, path, payload⟩ =>
              if isObject then s.replaceValue key payload
              else s.fail (.unsupported path EditKind.add.name)
            | some ⟨.remove, path, _⟩ =>
              if isObject then s.dropValue
              else s.fail (.unsupported path EditKind.remove.name)
            | none =>
              if event = .objectStart then
                inside fuel true 0 n.children (s.write (Json.Writer.objectStart key))
              else if event = .arrayStart then
                inside fuel false 0 n.children (s.write (Json.Writer.arrayStart key))
              else s.fail (.notFound n.firstTarget))
          (inside fuel isObject (i + 1) left)

/-- The whole text, which has to be a container. -/
def document (root : Node) (s : Splice) : Answer :=
  let s := s.next
  let fuel := s.reader.input.length + 2
  andThen
    (match s.reader.event with
      | .error => s.fault
      | .eof => s.fail (.read ⟨.emptyDocument, 0⟩)
      | .objectStart => inside fuel true 0 root.children (s.write (Json.Writer.objectStart none))
      | .arrayStart => inside fuel false 0 root.children (s.write (Json.Writer.arrayStart none))
      | _ => s.fail (.notFound root.firstTarget))
    fun s =>
      let s := s.next
      if s.reader.event = .error then s.fault else (.ok (), s)

end Splice

end Quarry.Patch
