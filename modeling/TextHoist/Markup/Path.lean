/-
  Nodes by their place in the tree. A path lists, from the root element down, which child
  to go to; the empty path is the root itself. `Document.nodeAt?` goes the other way and
  finds the path of the node under a byte offset of the source.
-/
import TextHoist.Markup.Node

namespace TextHoist

/-- Child indices from the root element down. -/
abbrev Path := List Nat

namespace Path

def child (p : Path) (i : Nat) : Path := p ++ [i]

/-- The path one step up; the root has none. -/
def parent? (p : Path) : Option Path := if p.isEmpty then none else some p.dropLast

/-- A path as messages show it: `/`, `/2/0`. -/
def display (p : Path) : String :=
  if p.isEmpty then "/" else String.join (p.map fun i => "/" ++ toString i)

end Path

/-- The element below this one that a path leads to, through elements only. -/
def Element.descendant? (e : Element) : Path → Option Element
  | [] => some e
  | i :: p => do
    let child ← e.children[i]?
    let below ← child.element?
    below.descendant? p

namespace Node

/-- Whether a caret at an offset is on this node. At the end of a text the caret is still
on the text; at the end of any other node it is past it. -/
def isUnder (n : Node) (offset : Nat) : Bool :=
  match n with
  | leaf .text _ span => span.touches offset
  | _ => n.span.contains offset

mutual

/-- The way from a node down to what is under the caret. With `toLeaf` the way ends at the
leaf under the caret, otherwise at the element around it. -/
def wayDown (toLeaf : Bool) (offset : Nat) : Node → Path
  | element _ _ children _ _ => wayDownFrom toLeaf offset 0 children
  | leaf .. => []

/-- The way into the first of these children that is under the caret, the first having
index `i`. -/
def wayDownFrom (toLeaf : Bool) (offset i : Nat) : List Node → Path
  | [] => []
  | n :: ns =>
    if n.isUnder offset then
      if n.element?.isSome then i :: wayDown toLeaf offset n
      else if toLeaf then [i]
      else []
    else wayDownFrom toLeaf offset (i + 1) ns

end

end Node

namespace Document

/-- The element at a path. -/
def element? (d : Document) (p : Path) : Option Element := d.root.descendant? p

/-- The node at a path, which is not the root: a child of an element. -/
def node? (d : Document) (p : Path) : Option Node := do
  let i ← p.getLast?
  let parent ← d.element? p.dropLast
  parent.children[i]?

/-- The path of the node under the caret, if the caret is inside the root element. -/
def nodeAt? (d : Document) (offset : Nat) (toLeaf : Bool) : Option Path :=
  if d.root.span.contains offset then some (d.root.toNode.wayDown toLeaf offset) else none

end Document

end TextHoist
