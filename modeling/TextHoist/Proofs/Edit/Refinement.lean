/-
  The patch of an edit does to the text what the edit does to the tree. The patch puts a
  written element in the place of an element that was read, so the new text spells the old
  tree with one element replaced (`Document.SpelledBy.hoist`); the reader accepts whatever
  is spelled and keeps its limits, and the new element keeps those that the old one kept,
  repeated attributes aside (`Element.within_hoisted`). The old element has to be written
  as two tags: where the dialect has no single tag for the element, the new one is written
  as two, and a single tag may stand one level deeper than two.
-/
import TextHoist.Edit.Hoist
import TextHoist.Proofs.Markup.Bounds
import TextHoist.Proofs.Markup.Written

namespace TextHoist

/-! ## Limits while editing -/

theorem Limits.admits_whileEditing (limits : Limits) (as : List Attribute) :
    limits.whileEditing.Admits as := .inl rfl

theorem Node.Within.whileEditing {limits : Limits} {depth : Nat} {n : Node}
    (h : n.Within limits depth) : n.Within limits.whileEditing depth :=
  h.relax limits.le_whileEditing (Nat.le_refl depth)

/-- What is read is read the same where attributes may repeat. -/
theorem Document.ofText_whileEditing {limits : Limits} {s : String} {d : Document}
    (h : Document.ofText limits s = .ok d) : Document.ofText limits.whileEditing s = .ok d :=
  Document.parse_relax limits.le_whileEditing h

/-! ## Targets -/

theorem Path.parent?_child (q : Path) (i : Nat) : Path.parent? (Path.child q i) = some q := by
  simp [Path.parent?, Path.child]

/-- A caret on a visible text below a listed element targets that element, with all the
text in it. -/
theorem Document.target?_eq_some_iff {d : Document} {tags : TagTable} {path : Path} {t : Target} :
    d.target? tags path = some t ↔
      ∃ (i : Nat) (parent : Element) (n : Node), path = Path.child t.element i ∧
        d.element? t.element = some parent ∧ parent.children[i]? = some n ∧
        n.isVisibleText = true ∧ tags.attribute? parent.name = some t.attributeName ∧
        t.tag = parent.name ∧ t.text = Text.trim parent.innerText := by
  constructor
  · intro h
    obtain ⟨n, hn, h⟩ := Option.bind_eq_some_iff.mp h
    obtain ⟨_, hvisible, h⟩ := Option.bind_eq_some_iff.mp h
    obtain ⟨q, hq, h⟩ := Option.bind_eq_some_iff.mp h
    obtain ⟨parent, hparent, h⟩ := Option.bind_eq_some_iff.mp h
    obtain ⟨attributeName, hname, h⟩ := Option.bind_eq_some_iff.mp h
    cases h
    rcases List.eq_nil_or_concat path with rfl | ⟨q', i, rfl⟩
    · cases hn
    · rw [List.concat_eq_append] at hq hn ⊢
      obtain rfl : q' = q := by simpa using (Path.parent?_child q' i).symm.trans hq
      have hchild := Document.node?_child d q' i
      rw [hparent, Option.bind_some] at hchild
      refine ⟨i, parent, n, rfl, hparent, hchild.symm.trans hn, ?_, hname, rfl, rfl⟩
      cases hv : n.isVisibleText with
      | true => rfl
      | false =>
        rw [hv] at hvisible
        cases hvisible
  · rintro ⟨i, parent, n, rfl, hparent, hn, hvisible, hname, htag, htext⟩
    obtain ⟨q, tag, attributeName, text⟩ := t
    simp only at hparent hname htag htext ⊢
    have hnode : d.node? (Path.child q i) = some n := by
      rw [Document.node?_child, hparent, Option.bind_some, hn]
    rw [Document.target?, hnode, Path.parent?_child]
    show (guard (n.isVisibleText = true) >>= fun _ => d.element? q >>= _) = _
    rw [hvisible, hparent]
    show (tags.attribute? parent.name >>= _) = _
    rw [hname, htag, htext]
    rfl

theorem Node.isVisibleText_mapSpans (f : Span → Span) (n : Node) :
    (n.mapSpans f).isVisibleText = n.isVisibleText := by
  rw [Node.isVisibleText, Node.text?_mapSpans]
  rfl

/-- A target is an element that was written as two tags. -/
theorem Document.SpelledBy.paired_of_target? {d : Document} {bs : List UInt8} (h : d.SpelledBy bs)
    {tags : TagTable} {path : Path} {t : Target} (ht : d.target? tags path = some t) :
    ∃ old, d.element? t.element = some old ∧ old.form = .paired := by
  obtain ⟨i, old, n, _, hold, hn, _⟩ := Document.target?_eq_some_iff.mp ht
  refine ⟨old, hold, ?_⟩
  obtain ⟨_, _, hspelled⟩ := h.element hold
  obtain ⟨_, ⟨_, hnil, _⟩ | ⟨hform, _⟩⟩ := Element.spelledBy_iff.mp hspelled
  · rw [hnil] at hn
    cases hn
  · exact hform

/-! ## The edited element -/

/-- The attribute that a target asks for. -/
def Target.attribute (t : Target) : Attribute := ⟨Text.strip t.attributeName, t.text, .double⟩

/-- The element that takes the place of a targeted one. -/
def Element.hoisted (old : Element) (t : Target) (dialect : Dialect) : Element :=
  let new := old.withText t.attribute dialect
  { new with span := ⟨old.span.start, old.span.start.past (Text.bytes new.write)⟩ }

/-- There is an edit where the target leads to an element of its name and asks for an
attribute that can be written. -/
theorem Document.hoist_eq_ok_iff {d : Document} {t : Target} {dialect : Dialect} {edit : Edit} :
    d.hoist t dialect = .ok edit ↔ ∃ old, d.element? t.element = some old ∧ old.name = t.tag ∧
      IsName t.attribute.name ∧
      edit = ⟨old.hoisted t dialect, ⟨old.span.start.offset, old.span.stop.offset,
        (old.withText t.attribute dialect).write⟩⟩ := by
  unfold Document.hoist Document.targeted
  constructor
  · intro h
    obtain ⟨old, hold, h⟩ := exists_of_bind_eq_ok h
    obtain ⟨a, ha, h⟩ := exists_of_bind_eq_ok h
    cases h
    split at hold
    case h_1 => cases hold
    case h_2 e he =>
      split at hold
      case isFalse => cases hold
      case isTrue htag =>
        cases hold
        obtain ⟨hname, rfl⟩ := Attribute.make_eq_ok_iff.mp (mapError_eq_ok_iff.mp ha)
        refine ⟨old, he, htag, hname, ?_⟩
        rw [Position.pastText_eq_past]
        rfl
  · rintro ⟨old, hold, htag, hname, rfl⟩
    have ha : Attribute.make t.attributeName t.text = .ok t.attribute :=
      Attribute.make_eq_ok_iff.mpr ⟨hname, rfl⟩
    rw [hold, ha]
    simp only [if_pos htag]
    show Except.ok _ = _
    rw [Position.pastText_eq_past]
    rfl

/-- The new element has no children, and its span is that of what the patch writes. -/
theorem Document.span_of_hoist {d : Document} {t : Target} {dialect : Dialect} {edit : Edit}
    (h : d.hoist t dialect = .ok edit) :
    edit.element.children = [] ∧ edit.element.span.start.offset = edit.patch.start ∧
      edit.element.span.stop.offset =
        edit.patch.start + edit.patch.replacement.utf8ByteSize := by
  obtain ⟨old, _, _, _, rfl⟩ := Document.hoist_eq_ok_iff.mp h
  refine ⟨rfl, rfl, ?_⟩
  show (old.span.start.past _).offset = _
  rw [Position.past_offset, Text.length_bytes]

/-- In what was read, elements and attributes have names. -/
theorem Element.SpelledBy.isName {e : Element} {p : Position} {bs : List UInt8}
    (h : e.SpelledBy p bs) : IsName e.name ∧ ∀ a ∈ e.attributes, IsName a.name := by
  obtain ⟨_, ⟨_, _, ht⟩ | ⟨_, _, _, _, _, ht, _⟩⟩ := Element.spelledBy_iff.mp h
  · exact ht.isName
  · exact ht.isName

/-- The new element is spelled by what is written for it, where the old one stood. -/
theorem Element.SpelledBy.hoisted {old : Element} {p : Position} {bs : List UInt8} {t : Target}
    (h : old.SpelledBy p bs) (hname : IsName t.attribute.name) (dialect : Dialect) :
    (old.hoisted t dialect).SpelledBy p
      (Text.bytes (old.withText t.attribute dialect).write) := by
  obtain ⟨hold, hattributes⟩ := h.isName
  have hstart : old.span.start = p := by rw [h.span_eq]
  unfold Element.hoisted
  rw [hstart]
  refine Element.spelledBy_write (e := old.withText t.attribute dialect) hold ?_ rfl p
  intro a ha
  rcases List.mem_cons.mp ha with rfl | ha
  · exact hname
  · exact hattributes a ha

/-- The new element keeps the limits where the old one did, if that was paired. -/
theorem Element.within_hoisted {limits : Limits} {old : Element} {k : Nat} (t : Target)
    (dialect : Dialect) (hform : old.form = .paired)
    (h : old.toNode.Within limits.whileEditing k) :
    (old.hoisted t dialect).toNode.Within limits.whileEditing k :=
  ⟨limits.admits_whileEditing _, fun _ => h.2.1 hform, trivial⟩

/-! ## Attributes that can be written -/

/-- A table whose attributes can all be written. -/
def TagTable.Writable (tags : TagTable) : Prop :=
  ∀ entry ∈ tags.entries, IsName (Text.strip entry.2)

theorem TagTable.builtin_writable : TagTable.builtin.Writable := by
  have h : ∀ entry ∈ TagTable.builtin.entries, Production.Name (Text.strip entry.2) := by decide
  exact fun entry hentry => Production.name_iff.mp (h entry hentry)

theorem TagTable.mem_of_attribute? {tags : TagTable} {tag name : String}
    (h : tags.attribute? tag = some name) : (tag, name) ∈ tags.entries := by
  obtain ⟨before, after, hentries, _⟩ := List.lookup_eq_some_iff.mp h
  rw [hentries]
  simp

theorem TagTable.Writable.isName {tags : TagTable} (h : tags.Writable) {tag name : String}
    (hname : tags.attribute? tag = some name) : IsName (Text.strip name) :=
  h (tag, name) (TagTable.mem_of_attribute? hname)

/-- There is an edit for every target. -/
theorem Document.hoist_target {d : Document} {tags : TagTable} {path : Path} {t : Target}
    (htags : tags.Writable) (ht : d.target? tags path = some t) (dialect : Dialect) :
    ∃ edit, d.hoist t dialect = .ok edit := by
  obtain ⟨_, parent, _, _, hparent, _, _, hname, htag, _⟩ := Document.target?_eq_some_iff.mp ht
  exact ⟨_, Document.hoist_eq_ok_iff.mpr ⟨parent, hparent, htag.symm, htags.isName hname, rfl⟩⟩

/-! ## The edited document -/

/-- A patch over the span of an element replaces the bytes that spell it. -/
theorem Element.SpelledBy.apply_patch {e : Element} {before middle : String}
    (h : e.SpelledBy (Position.start.past (Text.bytes before)) (Text.bytes middle))
    (after new : String) : Patch.apply ⟨e.span.start.offset, e.span.stop.offset, new⟩
      (before ++ middle ++ after) = .ok (before ++ new ++ after) := by
  refine Patch.apply_eq_ok_iff.mpr ⟨before, middle, after, rfl, ?_, ?_, rfl⟩
  · simp [h.span_eq, Position.start]
  · simp [h.span_eq, Position.start]

/-- The patch of an edit applies, and the patched text spells the edited document. -/
theorem Document.SpelledBy.hoist {d : Document} {s : String} {t : Target} {dialect : Dialect}
    {edit : Edit} (h : d.SpelledBy (Text.bytes s)) (he : d.hoist t dialect = .ok edit) :
    ∃ (p : String) (d' : Document), edit.patch.apply s = .ok p ∧ d'.SpelledBy (Text.bytes p) ∧
      d'.element? t.element = some edit.element ∧
      d'.SameUntil edit.patch.start (d.replace t.element edit.element) := by
  obtain ⟨old, hold, _, hname, rfl⟩ := Document.hoist_eq_ok_iff.mp he
  obtain ⟨pre, mid, post, hs, ⟨before, rfl⟩, ⟨after, rfl⟩, hspelled, hfill⟩ := h.refills hold
  obtain ⟨middle, rfl⟩ : Text.IsText mid := Contents.isText hspelled
  have hspan := hspelled.span_eq
  obtain rfl : s = before ++ middle ++ after := Text.bytes_injective (by simpa using hs)
  obtain ⟨d', hd', hat, hsame⟩ := hfill _ _ (hspelled.hoisted hname dialect)
  refine ⟨_, d', hspelled.apply_patch after _, by simpa using hd', hat, ?_⟩
  simpa only [hspan] using hsame

/-- The edited document keeps the limits of the old one, if attributes may repeat. -/
theorem Document.within_hoist {limits : Limits} {d d' : Document} {t : Target}
    {dialect : Dialect} {edit : Edit} {old : Element} {a : Nat}
    (hwithin : d.root.toNode.Within limits.whileEditing 0) (he : d.hoist t dialect = .ok edit)
    (hold : d.element? t.element = some old) (hform : old.form = .paired)
    (hsame : d'.SameUntil a (d.replace t.element edit.element)) :
    d'.root.toNode.Within limits.whileEditing 0 := by
  obtain ⟨old', hold', _, _, rfl⟩ := Document.hoist_eq_ok_iff.mp he
  obtain rfl : old' = old := Option.some.inj (hold'.symm.trans hold)
  have hroot : d'.root.SameUntil a (d.root.replace t.element (old'.hoisted t dialect)) :=
    congrArg Document.root hsame
  rw [hroot.within_iff]
  exact Element.within_replace hwithin hold fun k hk =>
    Element.within_hoisted t dialect hform hk

/-- The edit for a target leads to a text that is read again, unless it is too long. -/
theorem Document.ofText_hoist {limits : Limits} {s : String} {d : Document} {tags : TagTable}
    {path : Path} {t : Target} {dialect : Dialect} {edit : Edit}
    (hd : Document.ofText limits.whileEditing s = .ok d) (ht : d.target? tags path = some t)
    (he : d.hoist t dialect = .ok edit) :
    ∃ (p : String) (d' : Document), edit.patch.apply s = .ok p ∧ d'.SpelledBy (Text.bytes p) ∧
      d'.element? t.element = some edit.element ∧
      d'.SameUntil edit.patch.start (d.replace t.element edit.element) ∧
      (p.utf8ByteSize ≤ limits.maxSize → Document.ofText limits.whileEditing p = .ok d') := by
  obtain ⟨_, hspelled, hwithin⟩ := Document.parse_eq_ok_iff.mp hd
  obtain ⟨old, hold, hform⟩ := hspelled.paired_of_target? ht
  obtain ⟨p, d', hp, hd', hat, hsame⟩ := hspelled.hoist he
  have hwithin' := Document.within_hoist hwithin he hold hform hsame
  exact ⟨p, d', hp, hd', hat, hsame,
    fun hsize => Document.parse_eq_ok_iff.mpr ⟨hsize, hd', hwithin'⟩⟩

/-- The text edit is the tree edit. The patch of an edit to an element of two tags applies
to the text. Unless the result is too long it is read, with attributes allowed to repeat,
as the old document with that element replaced. At its path stands the new element, span
included: the asked attribute, then the old ones, and no children. Targets are such
elements. -/
theorem Document.hoist_refines {limits : Limits} {s : String} {d : Document}
    (hd : Document.ofText limits s = .ok d) :
    (∀ tags path t, d.target? tags path = some t →
      ∃ old, d.element? t.element = some old ∧ old.form = .paired) ∧
    ∀ (t : Target) (dialect : Dialect) (edit : Edit) (old : Element),
      d.hoist t dialect = .ok edit → d.element? t.element = some old → old.form = .paired →
      (∃ p, edit.patch.apply s = .ok p ∧
        (p.utf8ByteSize ≤ limits.maxSize → ∃ d',
          Document.ofText limits.whileEditing p = .ok d' ∧
          d'.SameUntil old.span.start.offset (d.replace t.element edit.element) ∧
          d'.element? t.element = some edit.element)) ∧
      edit.element.name = old.name ∧ edit.element.children = [] ∧
      ∃ a, edit.element.attributes = a :: old.attributes ∧
        a.name = Text.strip t.attributeName ∧ a.value = t.text := by
  obtain ⟨_, hspelled, hwithin⟩ := Document.parse_eq_ok_iff.mp hd
  refine ⟨fun tags path t ht => hspelled.paired_of_target? ht, ?_⟩
  intro t dialect edit old he hold hform
  obtain ⟨p, d', hp, hd', hat, hsame⟩ := hspelled.hoist he
  have hwithin' := Document.within_hoist hwithin.whileEditing he hold hform hsame
  obtain ⟨old', hold', _, _, rfl⟩ := Document.hoist_eq_ok_iff.mp he
  obtain rfl : old' = old := Option.some.inj (hold'.symm.trans hold)
  refine ⟨⟨p, hp, fun hsize => ⟨d', ?_, hsame, hat⟩⟩, rfl, rfl, t.attribute, rfl, rfl, rfl⟩
  exact Document.parse_eq_ok_iff.mpr ⟨hsize, hd', hwithin'⟩

/-- A label that has the attribute already, with characters to escape in its text. -/
def labelSource : String := "<W>é<Label Content='x'>a &amp; \"b\"</Label></W>"

def labelDocument : Document :=
  ⟨[], ⟨"W", [], [.leaf .text "é" ⟨⟨3, 1, 4⟩, ⟨5, 1, 5⟩⟩,
    .element "Label" [⟨"Content", "x", .single⟩]
      [.leaf .text "a & \"b\"" ⟨⟨24, 1, 24⟩, ⟨35, 1, 35⟩⟩] .paired
      ⟨⟨5, 1, 5⟩, ⟨43, 1, 43⟩⟩], .paired, ⟨⟨0, 1, 1⟩, ⟨47, 1, 47⟩⟩⟩, []⟩

theorem ofText_labelSource : Document.ofText {} labelSource = .ok labelDocument :=
  toOption_eq_some_iff.mp (by decide +kernel)

/-- In HTML, which has no single tag for a label. -/
def labelEdit : Edit :=
  ⟨⟨"Label", [⟨"Content", "a & \"b\"", .double⟩, ⟨"Content", "x", .single⟩], [], .paired,
      ⟨⟨5, 1, 5⟩, ⟨64, 1, 64⟩⟩⟩,
    ⟨5, 43, "<Label Content=\"a &amp; &quot;b&quot;\" Content='x'></Label>"⟩⟩

theorem Document.hoist_refines_label :
    Document.ofText {} labelSource = .ok labelDocument ∧
    labelDocument.hoist ⟨[1], "Label", "Content ", "a & \"b\""⟩ .html = .ok labelEdit ∧
    ∃ p d', labelEdit.patch.apply labelSource = .ok p ∧
      Document.ofText (Limits.whileEditing {}) p = .ok d' ∧
      d'.element? [1] = some labelEdit.element ∧
      d'.SameUntil 5 (labelDocument.replace [1] labelEdit.element) := by
  have he : labelDocument.hoist ⟨[1], "Label", "Content ", "a & \"b\""⟩ .html = .ok labelEdit :=
    toOption_eq_some_iff.mp (by decide +kernel)
  have hsize : ∀ p ∈ (labelEdit.patch.apply labelSource).toOption,
      p.utf8ByteSize ≤ Limits.maxSize {} := by
    decide +kernel
  obtain ⟨⟨p, hp, hread⟩, _⟩ := (Document.hoist_refines ofText_labelSource).2 _ _ _ _ he rfl rfl
  obtain ⟨d', hd', hsame, hat⟩ := hread (hsize p (toOption_eq_some_iff.mpr hp))
  exact ⟨ofText_labelSource, he, p, d', hp, hd', hat, hsame⟩

end TextHoist
