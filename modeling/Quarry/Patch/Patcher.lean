import Quarry.Config
import Quarry.Patch.Splice
import Quarry.Patch.Target

namespace Quarry.Patch

/-- Applies patches; the tree, the output and the document of the last one stay until the next. -/
structure Patcher where
  maxDepth : Nat
  tree : Tree
  writer : Json.Writer
  document : Option Document

namespace Patcher

def make (config : Config) : Patcher := ⟨config.maxDepth, .empty, .empty, none⟩

def reset (p : Patcher) : Patcher := ⟨p.maxDepth, .empty, .empty, none⟩

/-- Merges edits, in their order, into a tree. An edit of the whole document takes the place of the
document and of all edits before. -/
def merge : List Target → Text.Bytes → Tree → Except Error (Text.Bytes × Tree)
  | [], source, tree => .ok (source, tree)
  | t :: ts, source, tree =>
    if t.tokens.isEmpty then
      if t.edit.kind = .remove then .error (.unsupported t.edit.path t.edit.kind.name)
      else merge ts t.edit.payload .empty
    else
      match tree.insert t.tokens t.edit with
      | .ok (_, tree) => merge ts source tree
      | .error e => .error e

/-- Makes the edits of a tree in a source text. -/
def splice (source : Text.Bytes) (tree : Tree) (p : Patcher) :
    Except Error Text.Bytes × Patcher :=
  let p := { p with tree := tree }
  if tree.isEmpty then (.ok source, p)
  else
    match Splice.document tree.root ⟨.ofBytes p.maxDepth source, p.writer⟩ with
    | (.ok _, s) => (.ok s.writer.output, { p with writer := s.writer })
    | (.error e, s) => (.error e, { p with writer := s.writer })

def apply (input : Text.Bytes) (ops : List Operation) (p : Patcher) :
    Except Error Text.Bytes × Patcher :=
  let p := p.reset
  match Resolving.operations input p.maxDepth ops ⟨p.document, []⟩ with
  | (.error e, r) => (.error e, { p with document := r.document })
  | (.ok _, r) =>
    let p := { p with document := r.document }
    match merge r.targets.reverse input p.tree with
    | .error e => (.error e, p)
    | .ok (source, tree) => p.splice source tree

/-- Applies a patch that is given as JSON. -/
def applyText (input : Text.Bytes) (patch : String) (p : Patcher) :
    Except Error Text.Bytes × Patcher :=
  match parse patch with
  | .ok ops => p.apply input ops
  | .error e => (.error (.decode e), p)

end Patcher

end Quarry.Patch
