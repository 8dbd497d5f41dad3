/-
  Moving text into an attribute. A `TagTable` says which attribute of which element takes its
  text. A caret on text that is not blank, inside an element the table lists, resolves to a
  `Target`: that element and all the text in it.

  In the edit itself the element gives up its children, and their text becomes its first
  attribute. The edit is built as a new element together with the patch that writes it over
  the old one; the document stays as it is.
-/
import TextHoist.Edit.Patch
import TextHoist.Markup.Dialect
import TextHoist.Markup.Path
import TextHoist.Markup.Reading

namespace TextHoist

/-! ## What can be moved -/

/-- Element names, each with the attribute that can hold the element's text. A name may
be listed more than once; the first entry counts. -/
structure TagTable where
  entries : List (String × String)
  deriving DecidableEq, Repr

namespace TagTable

/-- The elements known from XAML. -/
def builtin : TagTable :=
  ⟨[("Label", "Content"), ("Button", "Content"), ("CheckBox", "Content"),
    ("RadioButton", "Content"), ("RepeatButton", "Content"), ("TextBlock", "Text"),
    ("TextBox", "Text")]⟩

/-- The attribute listed for an element name. -/
def attribute? (t : TagTable) (tag : String) : Option String := t.entries.lookup tag

def contains (t : TagTable) (tag : String) : Bool := (t.attribute? tag).isSome

def size (t : TagTable) : Nat := t.entries.length

def isEmpty (t : TagTable) : Bool := t.entries.isEmpty

end TagTable

/-- An element whose text is to be moved, the attribute to hold it, and the text. -/
structure Target where
  element : Path
  tag : String
  attributeName : String
  text : String
  deriving DecidableEq, Repr

/-- Whether a node is text with something to show. -/
def Node.isVisibleText (n : Node) : Bool := n.text?.any fun s => !Text.isBlankText s

/-- The target for a caret on the node at `p`: the parent element, if the node is visible
text and the table lists the parent's name. The text is that of the whole element,
trimmed. -/
def Document.target? (d : Document) (tags : TagTable) (p : Path) : Option Target := do
  let node ← d.node? p
  guard node.isVisibleText
  let parent ← Path.parent? p
  let element ← d.element? parent
  let attributeName ← tags.attribute? element.name
  return ⟨parent, element.name, attributeName, Text.trim element.innerText⟩

/-! ## Moving it -/

/-- An element as it reads after an edit, its span covering the new text, and the patch
that puts it there. -/
structure Edit where
  element : Element
  patch : Patch
  deriving DecidableEq, Repr

/-- An element with a new first attribute and no children, written as a single tag where
the dialect allows that. -/
def Element.withText (e : Element) (a : Attribute) (dialect : Dialect) : Element :=
  { name := e.name
    attributes := a :: e.attributes
    children := []
    form := if dialect.allowsEmptyTag e.name then .empty else .paired
    span := e.span }

namespace Document

/-- The element a target means. A target made for another document may lead to no element,
or to one of another name. -/
def targeted (d : Document) (t : Target) : Except Error Element :=
  match d.element? t.element with
  | none => .error (.malformed ("no element at " ++ Path.display t.element))
  | some e =>
    if e.name = t.tag then .ok e
    else .error (.malformed
      ("element at " ++ Path.display t.element ++ s!" is <{e.name}>, expected <{t.tag}>"))

/-- The edit that moves the text of a target into its attribute. -/
def hoist (d : Document) (t : Target) (dialect : Dialect) : Except Error Edit := do
  let old ← d.targeted t
  let a ← (Attribute.make t.attributeName t.text).mapError fun e =>
    .malformed ("cannot build attribute: " ++ e.display)
  let new := old.withText a dialect
  let start := old.span.start
  return {
    element := { new with span := ⟨start, start.pastText new.write⟩ }
    patch := ⟨start.offset, old.span.stop.offset, new.write⟩ }

end Document

end TextHoist
