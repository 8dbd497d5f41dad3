/-
  Markup text from trees. Only text and attribute values are escaped: names and the
  content of comments, CDATA sections, instructions and doctypes are written as they are.
-/
import TextHoist.Markup.Reference

namespace TextHoist

def Attribute.write (a : Attribute) : String :=
  let q := String.singleton a.quote.char
  a.name ++ "=" ++ q ++ Reference.escapeAttribute a.quote a.value ++ q

/-- The attributes of a tag, a space before each. -/
def Attribute.writeAll (as : List Attribute) : String :=
  String.join (as.map fun a => " " ++ a.write)

def LeafKind.write (kind : LeafKind) (content : String) : String :=
  match kind with
  | text => Reference.escapeText content
  | _ => kind.opener ++ content ++ kind.closer

namespace Node

mutual

/-- A node as markup. An element is one tag only if it asks for that and has no children. -/
def write : Node → String
  | element name attributes children form _ =>
    let opening := "<" ++ name ++ Attribute.writeAll attributes
    if form = .empty ∧ children.isEmpty then opening ++ "/>"
    else opening ++ ">" ++ writeAll children ++ "</" ++ name ++ ">"
  | leaf kind content _ => kind.write content

/-- Several nodes as markup, one after the other. -/
def writeAll : List Node → String
  | [] => ""
  | n :: ns => n.write ++ writeAll ns

end

end Node

def Element.write (e : Element) : String := e.toNode.write

def Document.write (d : Document) : String :=
  Node.writeAll d.leading ++ d.root.write ++ Node.writeAll d.trailing

end TextHoist
