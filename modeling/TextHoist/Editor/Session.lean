/-
  An editing session over one text: the text, the document it spells, a caret, and the
  texts to go back to. Text and document change together or not at all, so the document
  always belongs to the text.
-/
import TextHoist.Editor.Host
import TextHoist.Source.Position

namespace TextHoist

structure Session where
  /-- The file the text came from, if it came from one. -/
  path : Option String := none
  source : String
  document : Document
  /-- The byte offset of the caret. -/
  caret : Nat := 0
  dialect : Dialect := .xml
  limits : Limits := {}
  /-- There are edits that have not been saved. -/
  dirty : Bool := false
  /-- The texts before each commit, latest first. -/
  history : List String := []
  deriving DecidableEq, Repr

namespace Session

/-- Opens a text, which has to be a document within the limits. -/
def ofText (source : String) (dialect : Dialect) (limits : Limits) : Except Error Session := do
  let document ← Document.ofText limits source
  return { source, document, dialect, limits }

/-- The node under the caret. -/
def currentNode? (s : Session) (toLeaf : Bool) : Option Path := s.document.nodeAt? s.caret toLeaf

/-- Moves the caret to a byte offset between two characters. -/
def setCaret (s : Session) (offset : Nat) : Except Error Session :=
  if Text.isBoundary s.source offset then .ok { s with caret := offset }
  else .error ⟨.expected s!"caret offset within 0..={s.source.utf8ByteSize}" (toString offset),
    .nowhere, none⟩

/-- Moves the caret to a line and column. -/
def setCaretAt (s : Session) (line column : Nat) : Except Error Session :=
  match Text.offsetAt? s.source line column with
  | some offset => s.setCaret offset
  | none => .error ⟨.expected "a position inside the document" s!"{line}:{column}",
      .nowhere, none⟩

/-- Patches the text, unless the result is no document. The caret goes to the start of
the patch. -/
def commit (s : Session) (p : Patch) : Except Error Session := do
  let source ← p.apply s.source
  let document ← (Document.ofText s.limits.whileEditing source).mapError fun e =>
    .malformed ("edit produced invalid markup: " ++ e.display)
  return { s with source, document, caret := p.start, history := s.source :: s.history }

def markDirty (s : Session) : Session := { s with dirty := true }

def markSaved (s : Session) : Session := { s with dirty := false }

/-- Goes back to the text before the last commit, with the caret as near as it can be to
where it was; `false` if there was no commit to go back on. -/
def undo (s : Session) : Except Error Bool × Session :=
  match s.history with
  | [] => (.ok false, s)
  | source :: history =>
    match Document.ofText s.limits.whileEditing source with
    | .error e => (.error e, { s with history })
    | .ok document =>
      let caret := Text.boundaryBefore source (min s.caret source.utf8ByteSize)
      (.ok true, { s with source, document, caret, history, dirty := true })

instance : Host Session where
  document := document
  dialect := dialect
  currentNode? := currentNode?
  commit s p :=
    match s.commit p with
    | .ok s' => (.ok (), s')
    | .error e => (.error e, s)
  markDirty := markDirty

end Session

/-- What the action would do at a byte offset of a text. -/
def MoveText.probe (source : String) (offset : Nat) : Except Error (Option Target) := do
  let s ← Session.ofText source .xml {}
  let s ← s.setCaret offset
  return ({} : MoveText).resolve? s

/-- The text after the action ran at a byte offset; none if it does not apply there. -/
def MoveText.apply (source : String) (offset : Nat) (dialect : Dialect) :
    Except Error (Option String) := do
  let s ← Session.ofText source dialect {}
  let s ← s.setCaret offset
  match ({} : MoveText).execute s with
  | (.ok (.applied _), s') => .ok (some s'.source)
  | (.ok .notApplicable, _) => .ok none
  | (.error e, _) => .error e

end TextHoist
