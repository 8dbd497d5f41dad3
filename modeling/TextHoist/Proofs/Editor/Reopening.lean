/-
  Opening an edited text anew. The session reads its own edits with attributes allowed to
  repeat; whoever opens the text later need not allow it. Such a reader finds one fault at
  most: the edited element has twice the attribute that the edit gave it
  (`Document.repeated?_hoist`). Everything else in the text was read before the edit under
  the same limits, and what comes before the fault gives no other error.
-/
import TextHoist.Proofs.Editor.Availability
import TextHoist.Proofs.Markup.Repeats

namespace TextHoist

section Strict

variable {limits : Limits} {d : Document} {t : Target} {dialect : Dialect} {edit : Edit}
  {old : Element}

/-- The edit to a document without repeated names repeats the name of its own attribute, if
the element had that, and no other. -/
theorem Document.repeated?_hoist {d' : Document} {a : Nat} (hstrict : limits.allowRepeats = false)
    (hwithin : d.root.toNode.Within limits 0) (he : d.hoist t dialect = .ok edit)
    (hold : d.element? t.element = some old)
    (hsame : d'.SameUntil a (d.replace t.element edit.element)) :
    d'.root.toNode.repeated? =
      if old.attributes.any (·.name == t.attribute.name) then some t.attribute.name else none := by
  obtain ⟨old', hold', _, _, rfl⟩ := Document.hoist_eq_ok_iff.mp he
  obtain rfl : old' = old := Option.some.inj (hold'.symm.trans hold)
  have hroot : d'.root.SameUntil a (d.root.replace t.element (old'.hoisted t dialect)) :=
    congrArg Document.root hsame
  obtain ⟨_, hnone⟩ := (Node.within_iff_repeated? hstrict _).mp hwithin
  have hadmits : limits.Admits old'.attributes := (Element.within_descendant hwithin hold).1
  have hunrepeated : Unrepeated [] old'.attributes :=
    Attribute.repeated?_eq_none_iff.mp ((Limits.admits_iff_repeated? hstrict).mp hadmits)
  calc d'.root.toNode.repeated?
      = (old'.hoisted t dialect).toNode.repeated? := by
        rw [hroot.repeated?_eq, Element.repeated?_replace hnone hold]
    _ = Attribute.repeated? [t.attribute] old'.attributes := Option.or_none
    _ = _ := Attribute.repeated?_append t.attribute hunrepeated

/-- The edited text is read where attributes must not repeat, unless the element had the
attribute already. Then that is the error. -/
theorem Document.ofText_hoist_strict {s p : String} {tags : TagTable} {path : Path}
    (hstrict : limits.allowRepeats = false) (hd : Document.ofText limits s = .ok d)
    (ht : d.target? tags path = some t) (he : d.hoist t dialect = .ok edit)
    (hp : edit.patch.apply s = .ok p) (hsize : p.utf8ByteSize ≤ limits.maxSize)
    (hold : d.element? t.element = some old) :
    (¬ (∃ a ∈ old.attributes, a.name = t.attribute.name) →
      ∃ d', Document.ofText limits p = .ok d') ∧
    ((∃ a ∈ old.attributes, a.name = t.attribute.name) →
      ∃ e : Error, Document.ofText limits p = .error e ∧
        e.TellsRepeat .start (Text.bytes p) t.attribute.name) := by
  obtain ⟨_, _, hwithin⟩ := Document.parse_eq_ok_iff.mp hd
  obtain ⟨p', d', hp', _, _, hsame, hread⟩ :=
    Document.ofText_hoist (Document.ofText_whileEditing hd) ht he
  obtain rfl : p' = p := Except.ok.inj (hp'.symm.trans hp)
  have hrepeated := Document.repeated?_hoist hstrict hwithin he hold hsame
  obtain ⟨hreads, hfails⟩ := Document.parse_repeated hstrict (hread hsize)
  constructor
  · intro hnew
    refine ⟨d', hreads ?_⟩
    rw [hrepeated, if_neg]
    simpa using hnew
  · intro hhad
    refine hfails _ ?_
    rw [hrepeated, if_pos]
    simpa using hhad

end Strict

/-- The names in the table stand as they are written. -/
theorem TagTable.builtin_stripped {tag name : String}
    (h : TagTable.builtin.attribute? tag = some name) : Text.strip name = name := by
  have hstrip : ∀ entry ∈ TagTable.builtin.entries, Text.strip entry.2 = entry.2 := by decide
  exact hstrip (tag, name) (TagTable.mem_of_attribute? h)

namespace MoveText

/-- An edited text can be opened anew exactly if the edited element did not have the attribute
before. If it had, the error tells of that attribute, at a place in the edited text where one
of that name stands. -/
theorem reopens_iff {source out : String} {offset : Nat} {dialect : Dialect}
    (happly : apply source offset dialect = .ok (some out)) :
    ∃ (t : Target) (d : Document) (old : Element), probe source offset = .ok (some t) ∧
      Document.ofText {} source = .ok d ∧ d.element? t.element = some old ∧
      ((∃ d', Document.ofText {} out = .ok d') ↔
        ∀ a ∈ old.attributes, a.name ≠ t.attributeName) ∧
      ((∃ a ∈ old.attributes, a.name = t.attributeName) →
        ∃ e : Error, Document.ofText {} out = .error e ∧
          e.TellsRepeat .start (Text.bytes out) t.attributeName) := by
  obtain ⟨t, d, edit, hprobe, hd, he, hpatched, hsize⟩ := apply_eq_some_iff.mp happly
  obtain ⟨path, ht⟩ := target?_of_probe hd hprobe
  obtain ⟨_, old, _, _, hold, _, _, hname, _, _⟩ := Document.target?_eq_some_iff.mp ht
  have hattribute : t.attribute.name = t.attributeName := TagTable.builtin_stripped hname
  obtain ⟨hreads, hfails⟩ := Document.ofText_hoist_strict rfl hd ht he hpatched hsize hold
  rw [hattribute] at hreads hfails
  refine ⟨t, d, old, hprobe, hd, hold, ⟨?_, ?_⟩, hfails⟩
  · intro hreopened a ha hsame
    obtain ⟨d', hd'⟩ := hreopened
    obtain ⟨e, he', _⟩ := hfails ⟨a, ha, hsame⟩
    rw [he'] at hd'
    cases hd'
  · intro hnew
    refine hreads fun hhad => ?_
    obtain ⟨a, ha, hsame⟩ := hhad
    exact hnew a ha hsame

/-- Once its text is moved, a label that had the attribute cannot be opened anew, and one that
had not can. -/
theorem reopens_iff_label :
    let repeats := "<W>é<Label Content=\"a &amp; &quot;b&quot;\" Content='x'></Label></W>"
    let source := "<Label a='1'>b</Label>"
    let single := "<Label Content=\"b\" a='1'/>"
    apply labelSource 24 .html = .ok (some repeats) ∧
    (∃ e : Error, Document.ofText {} repeats = .error e ∧
      e.cause = .duplicateAttribute "Content") ∧
    apply source 13 .xml = .ok (some single) ∧ ∃ d', Document.ofText {} single = .ok d' := by
  intro repeats source single
  have hruns : (apply source 13 .xml).toOption = some (some single) ∧
      (probe source 13).toOption = some (some ⟨[], "Label", "Content", "b"⟩) ∧
      ∀ d ∈ (Document.ofText {} source).toOption, ∀ old ∈ d.element? [],
        ∀ a ∈ old.attributes, a.name ≠ "Content" := by
    decide +kernel
  obtain ⟨hsingle, htarget, hattributes⟩ := hruns
  rw [toOption_eq_some_iff] at hsingle htarget
  have hrepeats : apply labelSource 24 .html = .ok (some repeats) := apply_labelSource
  refine ⟨hrepeats, ?_, hsingle, ?_⟩
  · obtain ⟨t, d, old, hprobe, hd, hold, _, hfails⟩ := reopens_iff hrepeats
    cases Except.ok.inj (hprobe.symm.trans probe_labelSource)
    cases Except.ok.inj (hd.symm.trans ofText_labelSource)
    cases hold
    obtain ⟨e, he, _, _, _, _, _, _, _, rfl⟩ := hfails ⟨_, List.mem_cons_self, rfl⟩
    exact ⟨_, he, rfl⟩
  · obtain ⟨t, d, old, hprobe, hd, hold, hiff, _⟩ := reopens_iff hsingle
    cases Except.ok.inj (hprobe.symm.trans htarget)
    exact hiff.mpr (hattributes d (toOption_eq_some_iff.mpr hd) old hold)

end MoveText

end TextHoist
