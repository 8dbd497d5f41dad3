/-
  Moving text as an action on an editor. The action asks an editor what the caret is on,
  builds the edit, and has the editor commit it; any editor that can do that much is a
  `Host`.
-/
import TextHoist.Edit.Hoist

namespace TextHoist

/-- An editor, as far as an action needs to know it. -/
class Host (σ : Type) where
  /-- The document being edited. -/
  document : σ → Document
  dialect : σ → Dialect
  /-- The node under the caret: the leaf, or else the element around it. -/
  currentNode? : σ → Bool → Option Path
  /-- Takes an edit into the text. What a refusal leaves behind is up to the editor. -/
  commit : σ → Patch → Except Error Unit × σ
  /-- Notes that the text differs from what was saved. -/
  markDirty : σ → σ

/-- What running the action came to. -/
inductive Outcome where
  /-- The caret is on nothing whose text can be moved. -/
  | notApplicable
  | applied (target : Target)
  deriving DecidableEq, Repr

/-- The action that moves an element's text into an attribute, for the elements of a
table. -/
structure MoveText where
  tags : TagTable := .builtin
  deriving DecidableEq, Repr

namespace MoveText

def name : String := "Move text to attribute"

def description : String := "Moves the text content to an attribute"

def group : String := "XAML"

variable {σ : Type} [Host σ]

/-- What the action would do at the caret, if anything. -/
def resolve? (action : MoveText) (s : σ) : Option Target := do
  let p ← Host.currentNode? s true
  (Host.document s).target? action.tags p

def isAvailable (action : MoveText) (s : σ) : Bool := (action.resolve? s).isSome

/-- Runs the action at the caret. The editor is as before unless it was asked to commit. -/
def execute (action : MoveText) (s : σ) : Except Error Outcome × σ :=
  match action.resolve? s with
  | none => (.ok .notApplicable, s)
  | some target =>
    match (Host.document s).hoist target (Host.dialect s) with
    | .error e => (.error e, s)
    | .ok edit =>
      match Host.commit s edit.patch with
      | (.error e, s') => (.error e, s')
      | (.ok (), s') => (.ok (.applied target), Host.markDirty s')

end MoveText

end TextHoist
