/-
  What can go wrong, where, and in which words. A `Cause` says what went wrong, and its
  wording is `Cause.message`; an `Error` adds the place and, where the cause alone would
  say too little, a note that replaces the wording.
-/
import TextHoist.Source.Position

namespace TextHoist

/-- What went wrong. -/
inductive Cause where
  /-- Something stands where nothing of its kind may stand. -/
  | invalidToken
  /-- Bytes that encode no text. -/
  | invalidUtf8
  /-- A reference that names no character. -/
  | invalidEntity (entity : String)
  /-- Something else was needed. -/
  | expected (expected found : String)
  /-- The input ends inside markup. -/
  | unterminated
  /-- A closing tag whose name is not that of the innermost open element. -/
  | mismatchedTag (opened closed : String)
  /-- A second attribute of one name in a tag. -/
  | duplicateAttribute (name : String)
  /-- More open elements at once than allowed. -/
  | depthExceeded (max : Nat)
  /-- More bytes of input than allowed. -/
  | sizeExceeded (max : Nat)
  /-- An edit that does not fit the tree or the text it is meant for. -/
  | malformed (reason : String)
  deriving DecidableEq, Repr

/-- The wording of a cause. -/
def Cause.message : Cause → String
  | invalidToken => "invalid token"
  | invalidUtf8 => "invalid utf-8"
  | invalidEntity entity => s!"invalid entity: &{entity};"
  | expected e f => s!"expected {e}, found {f}"
  | unterminated => "unterminated markup"
  | mismatchedTag o c => s!"mismatched closing tag: <{o}> closed by </{c}>"
  | duplicateAttribute name => s!"duplicate attribute: {name}"
  | depthExceeded max => s!"max depth exceeded: {max}"
  | sizeExceeded max => s!"max size exceeded: {max}"
  | malformed reason => s!"malformed tree: {reason}"

/-- Whether the fault lies in an edit rather than in what was read. -/
def Cause.isMalformed : Cause → Bool
  | malformed _ => true
  | _ => false

/-- A cause, the stretch of text it concerns, and the words that tell of it if the
cause's own are not used. -/
structure Error where
  cause : Cause
  span : Span := .nowhere
  note : Option String := none
  deriving DecidableEq, Repr

namespace Error

/-- An error at a single place. -/
def here (p : Position) (cause : Cause) : Error := ⟨cause, .point p, none⟩

/-- An error at a single place, told in words of its own. -/
def noted (p : Position) (cause : Cause) (note : String) : Error :=
  ⟨cause, .point p, some note⟩

/-- An edit that does not fit; it concerns no place in the text. -/
def malformed (reason : String) : Error := ⟨.malformed reason, .nowhere, none⟩

/-- What the error says. -/
def message (e : Error) : String := e.note.getD e.cause.message

/-- The error in one line, with the place where it starts. -/
def display (e : Error) : String :=
  "error at " ++ e.span.start.display ++ ": " ++ e.message

end Error

end TextHoist
