/-
  The two kinds of markup that are told apart, and what depends on the kind: which
  elements may be written as a single `<name/>` tag, and which file names imply it.
-/
import TextHoist.Source.Error

namespace TextHoist

/-- The kind of markup a document is written in. -/
inductive Dialect where
  | xml
  | html
  deriving DecidableEq, Repr

namespace Dialect

/-- The HTML elements that never have content. -/
def voidNames : List String :=
  ["area", "base", "br", "col", "embed", "hr", "img", "input", "link", "meta", "source",
    "track", "wbr"]

/-- Whether an element of this name may be written as a single tag. In XML any may; in
HTML the void elements may, in letters of either case. -/
def allowsEmptyTag : Dialect → String → Bool
  | xml, _ => true
  | html, name => voidNames.contains name.toLower

/-- The dialect a file extension implies. -/
def ofExtension? (extension : String) : Option Dialect :=
  match extension.toLower with
  | "xml" | "xaml" | "axaml" | "svg" => some xml
  | "html" | "htm" => some html
  | _ => none

/-- The dialect of a given name. -/
def ofName (name : String) : Except Error Dialect :=
  match name.toLower with
  | "xml" | "xaml" => .ok xml
  | "html" => .ok html
  | other => .error ⟨.expected "xml or html" other, .nowhere, none⟩

def name : Dialect → String
  | xml => "xml"
  | html => "html"

end Dialect

end TextHoist
