/-
  The markup tree. Everything of a document is kept, comments and blank text included,
  so that a place in the text can be looked up in the tree.
-/
import TextHoist.Source.Position
import TextHoist.Text.Characters

namespace TextHoist

/-- The character around an attribute value. -/
inductive Quote where
  | double
  | single
  deriving DecidableEq, Repr

def Quote.char : Quote → Char
  | double => '"'
  | single => '\''

/-- An attribute, its value with all references resolved. -/
structure Attribute where
  name : String
  value : String
  quote : Quote := .double
  deriving DecidableEq, Repr

/-- How an element is written: as one tag, or as an opening and a closing one. -/
inductive TagForm where
  | empty
  | paired
  deriving DecidableEq, Repr

/-- The kinds of node that have no nodes below them. -/
inductive LeafKind where
  | text
  | comment
  | cdata
  | instruction
  | doctype
  deriving DecidableEq, Repr

/-- What stands before the content of a leaf. -/
def LeafKind.opener : LeafKind → String
  | text => ""
  | comment => "<!--"
  | cdata => "<![CDATA["
  | instruction => "<?"
  | doctype => "<!"

/-- What stands after the content of a leaf. -/
def LeafKind.closer : LeafKind → String
  | text => ""
  | comment => "-->"
  | cdata => "]]>"
  | instruction => "?>"
  | doctype => ">"

/-- A node of the tree, with the stretch of text it was read from. The content of a text
node has its references resolved; that of every other leaf is kept as it stands. -/
inductive Node where
  | element (name : String) (attributes : List Attribute) (children : List Node)
      (form : TagForm) (span : Span)
  | leaf (kind : LeafKind) (content : String) (span : Span)
  deriving Repr

namespace Node

mutual

/-- Equality of nodes is decided along the tree. -/
def decEq : (m n : Node) → Decidable (m = n)
  | element n a c f s, element n' a' c' f' s' =>
    match decEqAll c c' with
    | isTrue hc =>
      decidable_of_decidable_of_iff (p := n = n' ∧ a = a' ∧ f = f' ∧ s = s') (by simp [hc])
    | isFalse hc => isFalse fun h => hc (by injection h)
  | leaf k t s, leaf k' t' s' =>
    decidable_of_decidable_of_iff (p := k = k' ∧ t = t' ∧ s = s') (by simp)
  | element .., leaf .. => isFalse nofun
  | leaf .., element .. => isFalse nofun

def decEqAll : (ms ns : List Node) → Decidable (ms = ns)
  | [], [] => isTrue rfl
  | m :: ms, n :: ns =>
    match decEq m n, decEqAll ms ns with
    | isTrue hm, isTrue hms => isTrue (by rw [hm, hms])
    | isFalse hm, _ => isFalse fun h => hm (by injection h)
    | _, isFalse hms => isFalse fun h => hms (by injection h)
  | [], _ :: _ => isFalse nofun
  | _ :: _, [] => isFalse nofun

end

instance : DecidableEq Node := decEq

end Node

/-- A node that is an element. -/
structure Element where
  name : String
  attributes : List Attribute := []
  children : List Node := []
  form : TagForm := .paired
  span : Span := .nowhere
  deriving DecidableEq, Repr

/-- The root element, with what stands before and after it. -/
structure Document where
  leading : List Node
  root : Element
  trailing : List Node
  deriving DecidableEq, Repr

namespace Node

def span : Node → Span
  | element _ _ _ _ s => s
  | leaf _ _ s => s

/-- The element this node is, if it is one. -/
def element? : Node → Option Element
  | element n a c f s => some ⟨n, a, c, f, s⟩
  | leaf .. => none

/-- The content of a text node. -/
def text? : Node → Option String
  | leaf .text content _ => some content
  | _ => none

mutual

/-- The character data in and below a node, in order: text and CDATA sections. -/
def innerText : Node → String
  | element _ _ children _ _ => innerTextAll children
  | leaf .text content _ => content
  | leaf .cdata content _ => content
  | leaf .. => ""

/-- The character data of several nodes, one after the other. -/
def innerTextAll : List Node → String
  | [] => ""
  | n :: ns => n.innerText ++ innerTextAll ns

end

end Node

namespace Element

def toNode (e : Element) : Node := .element e.name e.attributes e.children e.form e.span

/-- The character data below an element, in order. -/
def innerText (e : Element) : String := Node.innerTextAll e.children

/-- The first attribute of a name. -/
def attribute? (e : Element) (name : String) : Option Attribute :=
  e.attributes.find? (·.name == name)

@[simp]
theorem element?_toNode (e : Element) : e.toNode.element? = some e := rfl

theorem toNode_eq_of_element? {n : Node} {e : Element} (h : n.element? = some e) :
    e.toNode = n := by
  cases n with
  | element => cases h; rfl
  | leaf => cases h

end Element

end TextHoist
