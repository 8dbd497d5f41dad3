/-
  Which targets are refused. A target comes from outside: it may have been made for another
  document, and its attribute may be any text. There is an edit exactly if the path of the
  target leads to an element of its name and a name is left of the attribute once the blanks
  around it are taken off; whatever else is wrong with a target is told as a malformed tree,
  at no place of the text (`Document.malformed_of_hoist`).

  Where there is an edit, nothing that follows can fail. The patch is over the span of an
  element that was read, so it fits the text, and what it writes is one element without
  contents, which reads the same with nothing around it (`Element.SpelledBy.isTags`,
  `Element.SpelledBy.alone`).
-/
import TextHoist.Proofs.Edit.Refinement
import TextHoist.Proofs.Markup.Names
import TextHoist.Proofs.Markup.Slices

namespace TextHoist

/-! ## Refusals -/

namespace Document

variable {d : Document} {t : Target} {dialect : Dialect} {error : Error}

theorem malformed_of_targeted (h : d.targeted t = .error error) :
    ∃ reason, error = .malformed reason := by
  unfold targeted at h
  split at h
  case h_1 =>
    cases h
    exact ⟨_, rfl⟩
  case h_2 =>
    split at h
    case isTrue => cases h
    case isFalse =>
      cases h
      exact ⟨_, rfl⟩

/-- A target is refused as malformed, whatever is wrong with it. -/
theorem malformed_of_hoist (h : d.hoist t dialect = .error error) :
    ∃ reason, error = .malformed reason := by
  unfold hoist at h
  cases htarget : d.targeted t with
  | error e =>
    rw [htarget] at h
    cases h
    exact malformed_of_targeted htarget
  | ok old =>
    rw [htarget] at h
    cases hmake : Attribute.make t.attributeName t.text with
    | error e =>
      rw [hmake] at h
      cases h
      exact ⟨_, rfl⟩
    | ok a =>
      rw [hmake] at h
      cases h

end Document

/-! ## What is written -/

/-- The text is all of the element, with nothing in it: a single tag, or an opening tag and
the closing one right behind it. -/
def Element.IsTags (e : Element) (s : String) : Prop :=
  (e.form = .empty ∧ OpeningTag e.name e.attributes .empty (Text.bytes s)) ∨
    (e.form = .paired ∧ ∃ opening closing, s = opening ++ closing ∧
      OpeningTag e.name e.attributes .paired (Text.bytes opening) ∧
      ClosingTag e.name (Text.bytes closing))

theorem Element.SpelledBy.isTags {e : Element} {p : Position} {s : String}
    (h : e.SpelledBy p (Text.bytes s)) (hchildren : e.children = []) : e.IsTags s := by
  obtain ⟨_, ⟨hform, _, ht⟩ | ⟨hform, tag, body, close, hbytes, ht, hb, hc⟩⟩ :=
    Element.spelledBy_iff.mp h
  · exact .inl ⟨hform, ht⟩
  · rw [hchildren, contents_nil_iff] at hb
    obtain ⟨opening, rfl⟩ := ht.isText
    obtain ⟨closing, rfl⟩ := hc.isText
    refine .inr ⟨hform, opening, closing, Text.bytes_injective ?_, ht, hc⟩
    rw [hbytes, hb, List.append_nil, Text.bytes_append]

/-- Targets are refused exactly if they are stale or ask for an attribute that cannot be
written. There is an edit if the path of the target leads to an element of its name, and a
name is left of its attribute without the blanks around it. Else the error is that the tree
is malformed, and concerns no place. The patch of an edit is over the span of the element and
applies to the text. What it writes is a tag, or an opening and a closing one; by itself this
is a document with nothing around the root, which is the new element, spans aside. Reading it
takes no more than that attributes may repeat and that one element may be open. -/
theorem Document.hoist_exact {limits : Limits} {s : String} {d : Document}
    (hd : Document.ofText limits s = .ok d) (t : Target) (dialect : Dialect) :
    ((∃ edit, d.hoist t dialect = .ok edit) ↔
      ∃ old, d.element? t.element = some old ∧ old.name = t.tag ∧
        Text.spellsName (Text.strip t.attributeName).toList = true) ∧
    (∀ error, d.hoist t dialect = .error error →
      ∃ reason, error.cause = .malformed reason ∧ error.span = .nowhere) ∧
    ∀ edit, d.hoist t dialect = .ok edit → ∃ old patched,
      d.element? t.element = some old ∧ edit.patch.start = old.span.start.offset ∧
      edit.patch.stop = old.span.stop.offset ∧ edit.patch.apply s = .ok patched ∧
      edit.element.IsTags edit.patch.replacement ∧
      ∀ wide : Limits, wide.allowRepeats = true → 1 ≤ wide.maxDepth →
        edit.patch.replacement.utf8ByteSize ≤ wide.maxSize →
        ∃ root, Document.ofText wide edit.patch.replacement = .ok ⟨[], root, []⟩ ∧
          root.erase = edit.element.erase := by
  obtain ⟨_, hspelled, _⟩ := Document.parse_eq_ok_iff.mp hd
  refine ⟨⟨?_, ?_⟩, fun error herror => ?_, fun edit he => ?_⟩
  · rintro ⟨edit, he⟩
    obtain ⟨old, hold, htag, hname, _⟩ := Document.hoist_eq_ok_iff.mp he
    exact ⟨old, hold, htag, isName_iff.mp hname⟩
  · rintro ⟨old, hold, htag, hname⟩
    exact ⟨_, Document.hoist_eq_ok_iff.mpr ⟨old, hold, htag, isName_iff.mpr hname, rfl⟩⟩
  · obtain ⟨reason, rfl⟩ := Document.malformed_of_hoist herror
    exact ⟨reason, rfl, rfl⟩
  · obtain ⟨patched, _, hpatched, _⟩ := hspelled.hoist he
    obtain ⟨old, hold, _, hname, rfl⟩ := Document.hoist_eq_ok_iff.mp he
    obtain ⟨_, _, hmid⟩ := hspelled.element hold
    have hnew := hmid.hoisted hname dialect
    refine ⟨old, patched, hold, rfl, rfl, hpatched, hnew.isTags rfl, ?_⟩
    intro wide hrepeats hdepth hsize
    exact hnew.alone (by rwa [Text.length_bytes]) ⟨.inl hrepeats, fun _ => hdepth, trivial⟩

/-- One target that fits, with blanks around the attribute and reserved characters in the text,
and one whose path leads to a text. -/
theorem Document.hoist_exact_label :
    Document.ofText {} labelSource = .ok labelDocument ∧
    (∃ edit, labelDocument.hoist ⟨[1], "Label", "\tText ", "<&\"é"⟩ .html = .ok edit ∧
      edit.patch.start = 5 ∧ edit.patch.stop = 43 ∧
      ∃ root, Document.ofText ⟨1, edit.patch.replacement.utf8ByteSize, true⟩
          edit.patch.replacement = .ok ⟨[], root, []⟩ ∧ root.erase = edit.element.erase) ∧
    ∃ error reason, labelDocument.hoist ⟨[0], "Label", "Text", ""⟩ .html = .error error ∧
      error.cause = .malformed reason ∧ error.span = .nowhere := by
  refine ⟨ofText_labelSource, ?_, ?_⟩
  · obtain ⟨hfits, _, hedit⟩ :=
      Document.hoist_exact ofText_labelSource ⟨[1], "Label", "\tText ", "<&\"é"⟩ .html
    obtain ⟨edit, he⟩ := hfits.mpr ⟨_, rfl, rfl, by decide⟩
    obtain ⟨old, _, hold, hstart, hstop, _, _, hread⟩ := hedit edit he
    cases hold
    exact ⟨edit, he, hstart, hstop, hread _ rfl (Nat.le_refl 1) (Nat.le_refl _)⟩
  · obtain ⟨hfits, herror, _⟩ :=
      Document.hoist_exact ofText_labelSource ⟨[0], "Label", "Text", ""⟩ .html
    cases h : labelDocument.hoist ⟨[0], "Label", "Text", ""⟩ .html with
    | ok edit =>
      obtain ⟨old, hold, _⟩ := hfits.mp ⟨edit, h⟩
      cases hold
    | error error =>
      obtain ⟨reason, hreason⟩ := herror error h
      exact ⟨error, reason, rfl, hreason⟩

end TextHoist
