/-
  Documents from bytes. A `Draft` is what has been read so far: the nodes before the root
  and the elements still open, or the root and the nodes after it. `Draft.step` reads the
  next tag or leaf into it, and `Draft.complete` takes steps until the input ends.

  An element is open from its opening tag on, so the elements open at once are bounded
  when the tag is read, before anything inside; an element written as one tag never
  counts.
-/
import TextHoist.Markup.Leaf
import TextHoist.Markup.Tag
import TextHoist.Markup.Writing

namespace TextHoist

/-- An element whose closing tag has not been read; its children so far, latest first. -/
structure OpenElement where
  tag : Tag
  children : List Node := []
  deriving DecidableEq, Repr

namespace OpenElement

def push (o : OpenElement) (n : Node) : OpenElement := { o with children := n :: o.children }

/-- The element once its closing tag has been read, which ends at `stop`. -/
def close (o : OpenElement) (stop : Position) : Element :=
  ⟨o.tag.name, o.tag.attributes, o.children.reverse, .paired, ⟨o.tag.span.start, stop⟩⟩

end OpenElement

/-- The element that a single tag stands for. -/
def Tag.alone (t : Tag) : Element := ⟨t.name, t.attributes, [], t.form, t.span⟩

/-- A document of which a first part has been read. Node lists still growing are kept
latest first, open elements innermost first. -/
inductive Draft where
  /-- Before or inside the root element. -/
  | building (leading : List Node) (stack : List OpenElement)
  /-- After the root element. -/
  | ending (leading : List Node) (root : Element) (trailing : List Node)
  deriving DecidableEq, Repr

namespace Cursor

/-- The leaf that comes next outside the root element, if one does: blanks, a comment, an
instruction or a doctype. -/
def outerLeaf? (c : Cursor) : Option (Except Error (Node × Cursor)) :=
  if c.peek?.any Text.isBlankByte then some c.readBlank
  else if c.opens .comment then some (c.readDelimited .comment)
  else if c.opens .instruction then some (c.readDelimited .instruction)
  else if c.opens .doctype then some (c.readDelimited .doctype)
  else none

/-- The leaf that comes next inside an element, if one does: a comment, a CDATA section,
an instruction or text. -/
def innerLeaf? (c : Cursor) : Option (Except Error (Node × Cursor)) :=
  if c.opens .comment then some (c.readDelimited .comment)
  else if c.opens .cdata then some (c.readDelimited .cdata)
  else if c.opens .instruction then some (c.readDelimited .instruction)
  else if c.isAt '<' || c.atEnd then none
  else some c.readCharacterData

variable {c : Cursor} {r : Except Error (Node × Cursor)}

/-- What is read outside the root element is blanks, or a leaf whose opener comes next; a
doctype only where no comment begins. -/
theorem outerLeaf?_cases (h : c.outerLeaf? = some r) :
    (c.peek?.any Text.isBlankByte = true ∧ r = c.readBlank) ∨
    ∃ kind : LeafKind, kind ≠ .text ∧ kind ≠ .cdata ∧ c.opens kind = true ∧
      (kind ≠ .doctype ∨ c.opens .comment = false) ∧ r = c.readDelimited kind := by
  unfold outerLeaf? at h
  split at h
  case isTrue hb => exact .inl ⟨hb, (Option.some.inj h).symm⟩
  case isFalse =>
    refine .inr ?_
    split at h
    case isTrue hc =>
      exact ⟨.comment, by decide, by decide, hc, .inl (by decide), (Option.some.inj h).symm⟩
    case isFalse hcomment =>
      split at h
      case isTrue hc =>
        exact ⟨.instruction, by decide, by decide, hc, .inl (by decide), (Option.some.inj h).symm⟩
      case isFalse =>
        split at h
        case isTrue hc =>
          exact ⟨.doctype, by decide, by decide, hc, .inr (Bool.not_eq_true _ ▸ hcomment),
            (Option.some.inj h).symm⟩
        case isFalse => cases h

/-- What is read inside an element is a leaf whose opener comes next, or text. -/
theorem innerLeaf?_cases (h : c.innerLeaf? = some r) :
    (∃ kind : LeafKind, kind ≠ .text ∧ kind ≠ .doctype ∧ c.opens kind = true ∧
      r = c.readDelimited kind) ∨
    (c.isAt '<' = false ∧ c.atEnd = false ∧ r = c.readCharacterData) := by
  unfold innerLeaf? at h
  split at h
  case isTrue hc =>
    exact .inl ⟨.comment, by decide, by decide, hc, (Option.some.inj h).symm⟩
  case isFalse =>
    split at h
    case isTrue hc =>
      exact .inl ⟨.cdata, by decide, by decide, hc, (Option.some.inj h).symm⟩
    case isFalse =>
      split at h
      case isTrue hc =>
        exact .inl ⟨.instruction, by decide, by decide, hc, (Option.some.inj h).symm⟩
      case isFalse =>
        split at h
        case isTrue => cases h
        case isFalse ht =>
          simp only [Bool.or_eq_true, not_or, Bool.not_eq_true] at ht
          exact .inr ⟨ht.1, ht.2, (Option.some.inj h).symm⟩

theorem outerLeaf?_moves (h : c.outerLeaf? = some r) : c.Moves r := by
  intro n c' hr
  rcases outerLeaf?_cases h with ⟨hb, rfl⟩ | ⟨kind, hk, _, hc, _, rfl⟩
  · exact readBlank_moves hb hr
  · exact readDelimited_moves hk hc hr

theorem innerLeaf?_moves (h : c.innerLeaf? = some r) : c.Moves r := by
  intro n c' hr
  rcases innerLeaf?_cases h with ⟨kind, hk, _, hc, rfl⟩ | ⟨ht, he, rfl⟩
  · exact readDelimited_moves hk hc hr
  · exact readCharacterData_moves he ht hr

end Cursor

/-- What one step of reading comes to. -/
inductive Step where
  /-- More of the document has been read, and the cursor is behind it. -/
  | more (draft : Draft) (c : Cursor)
  /-- The input has ended where a document may end. -/
  | done (d : Document)
  deriving DecidableEq, Repr

namespace Draft

/-- The draft with a whole element added: as a child of the innermost open one, or as the
root if none is open. -/
def place (leading : List Node) (stack : List OpenElement) (e : Element) : Draft :=
  match stack with
  | [] => ending leading.reverse e []
  | o :: outer => building leading (o.push e.toNode :: outer)

/-- Takes a leaf into the draft. -/
def keep (grow : Node → Draft) (r : Except Error (Node × Cursor)) : Except Error Step := do
  let (n, c) ← r
  return .more (grow n) c

/-- Reads a tag that opens an element. -/
def enter (limits : Limits) (leading : List Node) (stack : List OpenElement) (c : Cursor) :
    Except Error Step := do
  let (tag, c') ← c.readTag limits.allowRepeats
  match tag.form with
  | .empty => return .more (place leading stack tag.alone) c'
  | .paired => do
    limits.checkDepth (stack.length + 1) tag.span.start
    return .more (building leading (⟨tag, []⟩ :: stack)) c'

/-- Reads the tag that closes the innermost open element. -/
def leave (leading : List Node) (o : OpenElement) (outer : List OpenElement) (c : Cursor) :
    Except Error Step := do
  let c' ← c.readClosingTag o.tag.name
  return .more (place leading outer (o.close c'.position)) c'

/-- The input ends while an element is open. -/
def unclosed (o : OpenElement) (stop : Position) : Error :=
  ⟨.unterminated, ⟨o.tag.span.start, stop⟩, some s!"unterminated element <{o.tag.name}>"⟩

/-- Reads the next tag or leaf. -/
def step (limits : Limits) (draft : Draft) (c : Cursor) : Except Error Step :=
  match draft with
  | building leading [] =>
    match c.outerLeaf? with
    | some r => keep (fun n => building (n :: leading) []) r
    | none =>
      if c.atEnd then .error (.here c.position (.expected "root element" "end of input"))
      else enter limits leading [] c
  | building leading (o :: outer) =>
    if c.startsWith "</" then leave leading o outer c
    else
      match c.innerLeaf? with
      | some r => keep (fun n => building leading (o.push n :: outer)) r
      | none =>
        if c.atEnd then .error (unclosed o c.position)
        else enter limits leading (o :: outer) c
  | ending leading root trailing =>
    match c.outerLeaf? with
    | some r => keep (fun n => ending leading root (n :: trailing)) r
    | none =>
      if c.atEnd then .ok (.done ⟨leading, root, trailing.reverse⟩)
      else .error (.noted c.position .invalidToken "content after root element")

theorem enter_moves {limits : Limits} {leading : List Node} {stack : List OpenElement}
    {c c' : Cursor} {draft : Draft} (h : enter limits leading stack c = .ok (.more draft c')) :
    ∃ n, 0 < n ∧ c.Reads n c' := by
  unfold enter at h
  obtain ⟨⟨tag, c₁⟩, ht, h⟩ := exists_of_bind_eq_ok h
  simp only at h
  split at h
  · cases h; exact Cursor.readTag_moves _ _ _ _ ht
  · obtain ⟨_, _, h⟩ := exists_of_bind_eq_ok h
    cases h; exact Cursor.readTag_moves _ _ _ _ ht

theorem leave_moves {leading : List Node} {o : OpenElement} {outer : List OpenElement}
    {c c' : Cursor} {draft : Draft} (hc : c.startsWith "</" = true)
    (h : leave leading o outer c = .ok (.more draft c')) : ∃ n, 0 < n ∧ c.Reads n c' := by
  unfold leave at h
  obtain ⟨c₁, hr, h⟩ := exists_of_bind_eq_ok h
  cases h
  exact Cursor.readClosingTag_moves hc hr

theorem keep_moves {grow : Node → Draft} {r : Except Error (Node × Cursor)} {c c' : Cursor}
    {draft : Draft} (hm : c.Moves r) (h : keep grow r = .ok (.more draft c')) :
    ∃ n, 0 < n ∧ c.Reads n c' := by
  obtain ⟨⟨n, c₁⟩, hr, h⟩ := exists_of_bind_eq_ok h
  cases h
  exact hm _ _ hr

/-- Every step reads at least one byte. -/
theorem step_moves {limits : Limits} {draft draft' : Draft} {c c' : Cursor}
    (h : step limits draft c = .ok (.more draft' c')) : ∃ n, 0 < n ∧ c.Reads n c' := by
  unfold step at h
  split at h
  · split at h
    · rename_i hr; exact keep_moves (Cursor.outerLeaf?_moves hr) h
    · split at h
      · cases h
      · exact enter_moves h
  · split at h
    · rename_i hc; exact leave_moves hc h
    · split at h
      · rename_i hr; exact keep_moves (Cursor.innerLeaf?_moves hr) h
      · split at h
        · cases h
        · exact enter_moves h
  · split at h
    · rename_i hr; exact keep_moves (Cursor.outerLeaf?_moves hr) h
    · split at h <;> cases h

/-- Reads the rest of the input into a draft. -/
def complete (limits : Limits) (draft : Draft) (c : Cursor) : Except Error Document :=
  match _h : step limits draft c with
  | .error e => .error e
  | .ok (.done d) => .ok d
  | .ok (.more draft' c') => complete limits draft' c'
termination_by c.rest.length
decreasing_by
  obtain ⟨n, hn, hr⟩ := step_moves _h
  have := hr.length_rest
  omega

end Draft

/-- The document that some bytes spell, within the given limits. -/
def Document.parse (limits : Limits) (input : List UInt8) : Except Error Document := do
  limits.checkSize input.length
  Draft.complete limits (.building [] []) (.ofBytes input)

/-- The document that a text spells, within the given limits. -/
def Document.ofText (limits : Limits) (source : String) : Except Error Document :=
  Document.parse limits (Text.bytes source)

namespace Attribute

/-- The attribute that some bytes spell, blanks allowed around it. -/
def parse (input : List UInt8) : Except Error Attribute := do
  let (a, c) ← (Cursor.ofBytes input).skipBlank.readAttribute
  let c := c.skipBlank
  if c.atEnd then .ok a
  else .error (.noted c.position .invalidToken "trailing input after attribute")

/-- The attribute of a given name and value, in double quotes; an error if no attribute
can have that name. -/
def make (name value : String) : Except Error Attribute :=
  parse (Text.bytes (Attribute.mk name value .double).write)

end Attribute

end TextHoist
