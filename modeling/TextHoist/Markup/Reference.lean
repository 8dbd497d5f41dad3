/-
  Characters that cannot stand for themselves, and the references written in their
  place. `escape` writes a text with references, `decode` resolves them again.
-/
import TextHoist.Markup.Node
import TextHoist.Text.Characters

namespace TextHoist.Reference

/-- A text with some of its characters replaced. -/
def escape (replacement : Char → Option String) (s : String) : String :=
  String.ofList (s.toList.flatMap fun c => ((replacement c).map String.toList).getD [c])

/-- What an attribute value between these quotes writes in place of a character. -/
def inAttribute (quote : Quote) (c : Char) : Option String :=
  if c == '&' then some "&amp;"
  else if c == '<' then some "&lt;"
  else if c == '\t' then some "&#9;"
  else if c == '\n' then some "&#10;"
  else if c == '\r' then some "&#13;"
  else if c == quote.char then
    some (match quote with
      | .double => "&quot;"
      | .single => "&apos;")
  else none

/-- What a text node writes in place of a character. -/
def inText (c : Char) : Option String :=
  if c == '&' then some "&amp;"
  else if c == '<' then some "&lt;"
  else if c == '>' then some "&gt;"
  else none

def escapeAttribute (quote : Quote) (s : String) : String := escape (inAttribute quote) s

def escapeText (s : String) : String := escape inText s

/-- The character with a given code point, if there is one. -/
def scalar? (n : Nat) : Option Char := if n.isValidChar then some (Char.ofNat n) else none

/-- The character that a reference names: what stands between `&` and `;`. -/
def character? : List Char → Option Char
  | ['a', 'm', 'p'] => some '&'
  | ['l', 't'] => some '<'
  | ['g', 't'] => some '>'
  | ['q', 'u', 'o', 't'] => some '"'
  | ['a', 'p', 'o', 's'] => some '\''
  | '#' :: 'x' :: digits => Text.number? 16 digits >>= scalar?
  | '#' :: digits => Text.number? 10 digits >>= scalar?
  | _ => none

/-- Where in a text the decoder stands: between references, or inside one with the given
characters, latest first, behind it. -/
inductive Place where
  | outside
  | inside (name : List Char)
  deriving DecidableEq, Repr

/-- Resolves the references in the rest of a text, `done` being what came before, latest
first. A reference that names no character, or does not end, is given back. -/
def decodeFrom (done : List Char) : Place → List Char → Except String (List Char)
  | .outside, [] => .ok done.reverse
  | .inside name, [] => .error (String.ofList name.reverse)
  | .outside, c :: cs =>
    if c == '&' then decodeFrom done (.inside []) cs else decodeFrom (c :: done) .outside cs
  | .inside name, c :: cs =>
    if c == ';' then
      match character? name.reverse with
      | some d => decodeFrom (d :: done) .outside cs
      | none => .error (String.ofList name.reverse)
    else decodeFrom done (.inside (c :: name)) cs

/-- The text with every reference resolved, or the first reference that cannot be. -/
def decode (s : String) : Except String String :=
  (decodeFrom [] .outside s.toList).map String.ofList

end TextHoist.Reference
