/-
  Trees up to their spans. `mapSpans f` changes every span of a tree by `f` and nothing
  else; `eraseAll` forgets all spans of some nodes, and `keepUntil a` those that reach
  beyond the offset `a`. Trees that agree after that still agree in kinds, names,
  attributes, forms, contents and order. Looking up an element commutes with `mapSpans`.
-/
import TextHoist.Markup.Path

namespace TextHoist

namespace Node

mutual

/-- The same tree with its spans changed. -/
def mapSpans (f : Span → Span) : Node → Node
  | element name attributes children form span =>
    element name attributes (mapSpansAll f children) form (f span)
  | leaf kind content span => leaf kind content (f span)

def mapSpansAll (f : Span → Span) : List Node → List Node
  | [] => []
  | n :: ns => n.mapSpans f :: mapSpansAll f ns

end

theorem mapSpansAll_eq_map (f : Span → Span) (ns : List Node) :
    mapSpansAll f ns = ns.map (mapSpans f) := by
  induction ns with
  | nil => rfl
  | cons n ns ih => rw [mapSpansAll, ih, List.map_cons]

@[simp]
theorem mapSpansAll_append (f : Span → Span) (ms ns : List Node) :
    mapSpansAll f (ms ++ ns) = mapSpansAll f ms ++ mapSpansAll f ns := by
  simp [mapSpansAll_eq_map]

/-- The nodes without their spans. -/
def eraseAll (ns : List Node) : List Node := mapSpansAll (fun _ => .nowhere) ns

@[simp]
theorem text?_mapSpans (f : Span → Span) (n : Node) : (n.mapSpans f).text? = n.text? := by
  cases n with
  | element => rfl
  | leaf kind => cases kind <;> rfl

end Node

/-- Keeps a span that ends by an offset and forgets any other. -/
def Span.keepUntil (a : Nat) (s : Span) : Span := if s.stop.offset ≤ a then s else .nowhere

namespace Element

def mapSpans (f : Span → Span) (e : Element) : Element :=
  { e with children := Node.mapSpansAll f e.children, span := f e.span }

/-- The element without its spans. -/
def erase (e : Element) : Element := e.mapSpans fun _ => .nowhere

theorem toNode_mapSpans (f : Span → Span) (e : Element) :
    (e.mapSpans f).toNode = e.toNode.mapSpans f := rfl

theorem element?_mapSpans (f : Span → Span) (n : Node) :
    (n.mapSpans f).element? = n.element?.map (mapSpans f) := by
  cases n <;> rfl

theorem descendant?_mapSpans (f : Span → Span) (e : Element) (p : Path) :
    (e.mapSpans f).descendant? p = (e.descendant? p).map (mapSpans f) := by
  induction p generalizing e with
  | nil => rfl
  | cons i p ih =>
    simp only [descendant?, mapSpans, Node.mapSpansAll_eq_map, List.getElem?_map]
    cases e.children[i]? with
    | none => rfl
    | some n =>
      show ((n.mapSpans f).element?.bind fun e => e.descendant? p) = _
      rw [element?_mapSpans]
      cases hn : n.element? with
      | none => simp [hn]
      | some e' => simp [hn, ih]

end Element

namespace Document

def mapSpans (f : Span → Span) (d : Document) : Document :=
  ⟨Node.mapSpansAll f d.leading, d.root.mapSpans f, Node.mapSpansAll f d.trailing⟩

theorem element?_mapSpans (f : Span → Span) (d : Document) (p : Path) :
    (d.mapSpans f).element? p = (d.element? p).map (Element.mapSpans f) :=
  Element.descendant?_mapSpans f d.root p

end Document

end TextHoist
