/-
  A host that keeps a record: of every patch it is asked to commit, and of how often its
  text was marked as changed. Its document never changes; its text follows the patches,
  unless it has been told to refuse them.
-/
import TextHoist.Editor.Host

namespace TextHoist

structure Recorder where
  document : Document
  text : String
  caret : Nat
  dialect : Dialect := .xml
  /-- Why commits are refused, if they are. -/
  refusal : Option String := none
  /-- The patches received, latest first. -/
  patches : List Patch := []
  /-- How often the text was marked as changed. -/
  dirtyMarks : Nat := 0
  deriving DecidableEq, Repr

namespace Recorder

/-- Records a patch, then refuses it or applies it to the text. -/
def commit (r : Recorder) (p : Patch) : Except Error Unit × Recorder :=
  let r := { r with patches := p :: r.patches }
  match r.refusal with
  | some reason => (.error (.malformed reason), r)
  | none =>
    match p.apply r.text with
    | .ok text => (.ok (), { r with text })
    | .error e => (.error e, r)

instance : Host Recorder where
  document := document
  dialect := dialect
  currentNode? r toLeaf := r.document.nodeAt? r.caret toLeaf
  commit := commit
  markDirty r := { r with dirtyMarks := r.dirtyMarks + 1 }

end Recorder

end TextHoist
