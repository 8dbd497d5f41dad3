/-
  Writing and reading back. A tree is representable if the grammar leaves room for it:
  names are names, no text is empty or next to another, no content holds its own closer,
  and each kind of node stands where it may stand (`Node.Representable`). The text written
  for such a tree derives the tree (`Document.Representable.derives_write`), whatever its
  texts and attribute values hold, because those are escaped and decoding undoes that.

  What has been read is representable (`Document.SpelledBy.representable`). So writing what
  was read gives a text that reads as the same tree, spans aside, and is written the same
  again (`Document.write_normalizes`).
-/
import Mathlib.Data.List.Infix
import TextHoist.Proofs.Markup.Productions
import TextHoist.Proofs.Markup.Written

namespace TextHoist

/-! ## Trees that can be written -/

namespace Node

mutual

/-- A node that may stand in a zone and that reading finds again in what is written. -/
def Representable (zone : Zone) : Node → Prop
  | element name attributes children form _ =>
    zone = .inside ∧ Production.Name name ∧ (∀ a ∈ attributes, Production.Name a.name) ∧
      (form = .empty → children = []) ∧ RepresentableAll .inside children
  | leaf .text content _ =>
    content ≠ "" ∧ (zone = .outside → Production.Gap (Text.bytes content))
  | leaf .comment content _ => ¬ Text.bytes "-->" <:+: Text.bytes content
  | leaf .cdata content _ => zone = .inside ∧ ¬ Text.bytes "]]>" <:+: Text.bytes content
  | leaf .instruction content _ => ¬ Text.bytes "?>" <:+: Text.bytes content
  | leaf .doctype content _ =>
    zone = .outside ∧ ¬ Text.bytes "--" <+: Text.bytes content ∧
      bracketsAfter 0 (Text.bytes content) = some 0

/-- Nodes next to each other, no two of them texts. -/
def RepresentableAll (zone : Zone) : List Node → Prop
  | [] => True
  | n :: ns =>
    n.Representable zone ∧ (n.text?.isSome = true → ∀ m ∈ ns.head?, m.text? = none) ∧
      RepresentableAll zone ns

end

mutual

def decRepresentable (zone : Zone) : (n : Node) → Decidable (n.Representable zone)
  | element name attributes children form _ =>
    have := decRepresentableAll .inside children
    inferInstanceAs (Decidable (zone = .inside ∧ Production.Name name ∧
      (∀ a ∈ attributes, Production.Name a.name) ∧ (form = .empty → children = []) ∧
      RepresentableAll .inside children))
  | leaf .text content _ => inferInstanceAs (Decidable (content ≠ "" ∧ (_ → Production.Gap _)))
  | leaf .comment _ _ => inferInstanceAs (Decidable (¬ _ <:+: _))
  | leaf .cdata _ _ => inferInstanceAs (Decidable (_ ∧ ¬ _ <:+: _))
  | leaf .instruction _ _ => inferInstanceAs (Decidable (¬ _ <:+: _))
  | leaf .doctype _ _ => inferInstanceAs (Decidable (_ ∧ ¬ _ <+: _ ∧ _ = _))

def decRepresentableAll (zone : Zone) : (ns : List Node) → Decidable (RepresentableAll zone ns)
  | [] => isTrue trivial
  | n :: ns =>
    have := decRepresentable zone n
    have := decRepresentableAll zone ns
    inferInstanceAs (Decidable (n.Representable zone ∧
      (n.text?.isSome = true → ∀ m ∈ ns.head?, m.text? = none) ∧ RepresentableAll zone ns))

end

instance (zone : Zone) (n : Node) : Decidable (n.Representable zone) := decRepresentable zone n

instance (zone : Zone) (ns : List Node) : Decidable (RepresentableAll zone ns) :=
  decRepresentableAll zone ns

end Node

/-- A document that reading finds again in what is written for it. -/
structure Document.Representable (d : Document) : Prop where
  leading : Node.RepresentableAll .outside d.leading
  root : d.root.toNode.Representable .inside
  trailing : Node.RepresentableAll .outside d.trailing

instance (d : Document) : Decidable d.Representable :=
  decidable_of_decidable_of_iff (p := Node.RepresentableAll .outside d.leading ∧
    d.root.toNode.Representable .inside ∧ Node.RepresentableAll .outside d.trailing)
    ⟨fun h => ⟨h.1, h.2.1, h.2.2⟩, fun h => ⟨h.1, h.2, h.3⟩⟩

/-- For leaves with opener and closer, that is what the grammar asks of them. -/
theorem Node.representable_leaf_iff {zone : Zone} {kind : LeafKind} {content : String}
    {span : Span} (hk : kind ≠ .text) : (Node.leaf kind content span).Representable zone ↔
      kind.standsIn zone = true ∧ kind.Encloses content := by
  cases kind with
  | text => exact absurd rfl hk
  | doctype => simp [Representable, LeafKind.standsIn, LeafKind.Encloses, LeafKind.Avoids, and_comm]
  | _ =>
    simp [Representable, LeafKind.standsIn, LeafKind.Encloses, LeafKind.Avoids, LeafKind.closer]

/-! ## What is written derives what was written -/

theorem Node.write_leaf {kind : LeafKind} (hk : kind ≠ .text) (content : String) (span : Span) :
    (Node.leaf kind content span).write = kind.opener ++ content ++ kind.closer := by
  cases kind with
  | text => exact absurd rfl hk
  | _ => rfl

/-- All but texts begin as tags do. -/
theorem Node.bytes_write_eq_cons {n : Node} (h : n.text? = none) :
    ∃ bs, Text.bytes n.write = '<'.toUInt8 :: bs := by
  cases n with
  | element name attributes children form span =>
    unfold Node.write
    simp only
    split
    · simp only [Text.bytes_append, List.append_assoc]
      exact ⟨_, rfl⟩
    · simp only [Text.bytes_append, List.append_assoc]
      exact ⟨_, rfl⟩
  | leaf kind content span =>
    have hk : kind ≠ .text := by
      rintro rfl
      cases h
    obtain ⟨bs, hbs⟩ := LeafKind.bytes_opener hk
    rw [Node.write_leaf hk, Text.bytes_append, Text.bytes_append, hbs]
    exact ⟨_, rfl⟩

/-- A text ends where the next node begins, for that is none. -/
theorem Node.head_writeAll {ns : List Node} (h : ∀ m ∈ ns.head?, m.text? = none) :
    ∀ b ∈ (Text.bytes (Node.writeAll ns)).head?, b = '<'.toUInt8 := by
  cases ns with
  | nil => nofun
  | cons m ns =>
    obtain ⟨bs, hbs⟩ := Node.bytes_write_eq_cons (h m rfl)
    rw [Node.writeAll, Text.bytes_append, hbs]
    intro b hb
    cases hb
    rfl

theorem Node.bytes_writeAll_cons (n : Node) (ns : List Node) :
    Text.bytes (Node.writeAll (n :: ns)) = Text.bytes n.write ++ Text.bytes (Node.writeAll ns) := by
  rw [Node.writeAll, Text.bytes_append]

theorem Node.bytes_write_paired (name : String) (as : List Attribute) (children : List Node)
    (span : Span) : Text.bytes (Node.element name as children .paired span).write =
      Text.bytes ("<" ++ name ++ Attribute.writeAll as ++ TagForm.paired.written) ++
        Text.bytes (Node.writeAll children) ++ Text.bytes ("</" ++ name ++ ">") := by
  simp [Node.write, TagForm.written]

open Production

theorem Production.delimited_write {zone : Zone} {kind : LeafKind} {content : String} {span : Span}
    (hk : kind ≠ .text) (h : (Node.leaf kind content span).Representable zone) :
    Delimited (Text.bytes (Node.leaf kind content span).write) kind content := by
  rw [Node.write_leaf hk]
  exact delimited_iff.mpr ⟨hk, ((Node.representable_leaf_iff hk).mp h).2, rfl⟩

mutual

theorem Production.elem_write : ∀ {n : Node}, n.Representable .inside → n.element?.isSome = true →
    Elem (Text.bytes n.write) (n.mapSpans fun _ => .nowhere)
  | .element name attributes children form span, h, _ => by
    obtain ⟨_, hname, has, hempty, hchildren⟩ := h
    have hnames : ∀ a ∈ attributes, IsName a.name := fun a ha => name_iff.mp (has a ha)
    cases form with
    | empty =>
      obtain rfl := hempty rfl
      exact .of_tag (openingTag_write .empty (name_iff.mp hname) hnames)
    | paired =>
      rw [Node.bytes_write_paired]
      exact .of_tags (openingTag_write .paired (name_iff.mp hname) hnames)
        (content_writeAll hchildren) (closingTag_write (name_iff.mp hname))
  | .leaf .., _, h => by cases h

theorem Production.content_writeAll : ∀ {ns : List Node}, Node.RepresentableAll .inside ns →
    Content (Text.bytes (Node.writeAll ns)) (Node.eraseAll ns)
  | [], _ => .nil
  | .element name attributes children form span :: ns, ⟨hn, _, hns⟩ => by
    rw [Node.bytes_writeAll_cons]
    exact .element (elem_write hn rfl) (content_writeAll hns)
  | .leaf kind content span :: ns, ⟨hn, hnext, hns⟩ => by
    rw [Node.bytes_writeAll_cons]
    by_cases hk : kind = .text
    · subst hk
      have hfaithful := Reference.inText_faithful
      exact .text (Reference.escape_ne_empty hfaithful hn.1) (Reference.lt_not_mem_escapeText _)
        (Reference.decode_escape hfaithful _) (Node.head_writeAll (hnext rfl))
        (content_writeAll hns)
    · have hs := ((Node.representable_leaf_iff hk).mp hn).1
      exact .delimited ((LeafKind.standsIn_iff.mp hs).2.1 rfl) (delimited_write hk hn) (content_writeAll hns)

end

/-- Blanks are written as they are. -/
theorem Reference.escapeText_of_gap {s : String} (h : Gap (Text.bytes s)) : escapeText s = s := by
  refine escape_eq_self ?_
  intro c hc
  have hgap := Text.blanks_bytes_iff.mp (gap_iff.mp h) c hc
  simp only [Text.isGap, Bool.or_eq_true, beq_iff_eq] at hgap
  rcases hgap with ((rfl | rfl) | rfl) | rfl <;> rfl

theorem Production.misc_writeAll {ns : List Node} (h : Node.RepresentableAll .outside ns) :
    Misc (Text.bytes (Node.writeAll ns)) (Node.eraseAll ns) := by
  induction ns with
  | nil => exact .nil
  | cons n ns ih =>
    obtain ⟨hn, hnext, hns⟩ := h
    rw [Node.bytes_writeAll_cons]
    cases n with
    | element => exact absurd hn.1 (by decide)
    | leaf kind content span =>
      by_cases hk : kind = .text
      · subst hk
        have hgap := hn.2 rfl
        have hwrite : (Node.leaf .text content span).write = content :=
          Reference.escapeText_of_gap hgap
        rw [hwrite]
        refine .blank ⟨mt Text.bytes_eq_nil_iff.mp hn.1, hgap⟩ ?_ (ih hns)
        intro b hb
        rw [Node.head_writeAll (hnext rfl) b hb]
        decide
      · have hs := ((Node.representable_leaf_iff hk).mp hn).1
        exact .delimited ((LeafKind.standsIn_iff.mp hs).2.2 rfl) (delimited_write hk hn) (ih hns)

/-- The text written for a representable document derives it. -/
theorem Document.Representable.derives_write {d : Document} (h : d.Representable) :
    Derives (Text.bytes d.write) d.erase := by
  rw [Document.write, Text.bytes_append, Text.bytes_append]
  exact .mk (misc_writeAll h.leading) (elem_write h.root rfl) (misc_writeAll h.trailing)

/-! ## What is read can be written -/

theorem LeafSpelled.representable {zone : Zone} {kind : LeafKind} {bs : List UInt8}
    {content : String} (h : LeafSpelled zone kind bs content) (span : Span) :
    (Node.leaf kind content span).Representable zone := by
  cases h with
  | text hne _ hd => exact ⟨Reference.ne_empty_of_decode hd hne, by simp⟩
  | blank hne hb => exact ⟨hne, fun _ => gap_iff.mpr hb⟩
  | delimited hs he =>
    exact (Node.representable_leaf_iff (LeafKind.standsIn_ne_text hs)).mpr ⟨hs, he⟩

theorem Contents.representableAll {zone : Zone} {p : Position} {bs : List UInt8} {ns : List Node}
    (h : Contents zone p bs ns) : Node.RepresentableAll zone ns := by
  induction h with
  | nil => trivial
  | @leaf _ _ _ kind _ _ hl hk hr ih =>
    refine ⟨hl.representable _, ?_, ih⟩
    intro ht
    refine hr.head_text (hk ?_)
    cases kind <;> first | rfl | cases ht
  | single hz ht _ ih =>
    obtain ⟨hname, has⟩ := ht.isName
    refine ⟨⟨hz, name_iff.mpr hname, fun a ha => name_iff.mpr (has a ha), fun _ => rfl, trivial⟩,
      nofun, ih⟩
  | pair hz ht _ _ _ ihbody ih =>
    obtain ⟨hname, has⟩ := ht.isName
    subst hz
    refine ⟨⟨rfl, name_iff.mpr hname, fun a ha => name_iff.mpr (has a ha), by simp, ihbody⟩,
      nofun, ih⟩

/-- A document that was read is representable. -/
theorem Document.SpelledBy.representable {d : Document} {bs : List UInt8} (h : d.SpelledBy bs) :
    d.Representable := by
  obtain ⟨before, root, after, _, hl, hr, ht⟩ := h
  exact ⟨hl.representableAll, (Contents.representableAll hr).1, ht.representableAll⟩

/-! ## Spans are not written -/

namespace Node

mutual

theorem write_mapSpans (f : Span → Span) : ∀ n : Node, (n.mapSpans f).write = n.write
  | element name attributes children form span => by
    have hempty : (mapSpansAll f children).isEmpty = children.isEmpty := by
      simp [mapSpansAll_eq_map]
    simp only [mapSpans, write, hempty, writeAll_mapSpansAll f children]
  | leaf .. => rfl

theorem writeAll_mapSpansAll (f : Span → Span) :
    ∀ ns : List Node, writeAll (mapSpansAll f ns) = writeAll ns
  | [] => rfl
  | n :: ns => by simp only [mapSpansAll, writeAll, write_mapSpans f n, writeAll_mapSpansAll f ns]

end

mutual

theorem innerText_mapSpans (f : Span → Span) : ∀ n : Node, (n.mapSpans f).innerText = n.innerText
  | element _ _ children _ _ => by
    simp only [mapSpans, innerText, innerTextAll_mapSpansAll f children]
  | leaf kind _ _ => by cases kind <;> rfl

theorem innerTextAll_mapSpansAll (f : Span → Span) :
    ∀ ns : List Node, innerTextAll (mapSpansAll f ns) = innerTextAll ns
  | [] => rfl
  | n :: ns => by
    simp only [mapSpansAll, innerTextAll, innerText_mapSpans f n, innerTextAll_mapSpansAll f ns]

end

end Node

theorem Document.write_erase (d : Document) : d.erase.write = d.write := by
  simp only [Document.erase, Document.mapSpans, Document.write, Node.writeAll_mapSpansAll,
    Element.write, Element.toNode_mapSpans, Node.write_mapSpans]

theorem Document.innerText_erase (d : Document) : d.erase.root.innerText = d.root.innerText :=
  Node.innerTextAll_mapSpansAll _ d.root.children

/-! ## There and back -/

/-- A representable document is read back from what is written for it, spans aside, where
attributes may repeat and the limits admit its size and its nesting. -/
theorem Document.ofText_write {d : Document} {limits : Limits} (h : d.Representable)
    (hrep : limits.allowRepeats = true) (hsize : d.write.utf8ByteSize ≤ limits.maxSize)
    (hdepth : d.nesting ≤ limits.maxDepth) :
    ∃ d', Document.ofText limits d.write = .ok d' ∧ d'.erase = d.erase := by
  have hd := h.derives_write
  exact Document.parse_erase_iff.mpr ⟨hsize, hd, hd.within hrep (.inl hdepth)⟩

/-- Contents that end like the start of their closers, a doctype with a `>` in brackets, a
repeated attribute, and values and texts full of what has to be escaped. -/
def trickyDocument : Document :=
  ⟨[.leaf .doctype "DOCTYPE é [<!ENTITY x \">\">]" .nowhere, .leaf .text "\r\n" .nowhere,
      .leaf .comment "a--" .nowhere, .leaf .instruction ">?" .nowhere],
    ⟨"é:a", [⟨"x", "\"'<&>\n\t", .double⟩, ⟨"x", "'&apos;\"", .single⟩],
      [.leaf .text "]]>&amp;<é" .nowhere, .leaf .cdata "]]" .nowhere,
        .element "b-1." [] [.element "c" [] [] .empty .nowhere, .leaf .text "\n" .nowhere] .paired
          .nowhere, .leaf .comment "" .nowhere], .paired, .nowhere⟩,
    [.leaf .comment "->" .nowhere, .leaf .text " " .nowhere]⟩

theorem Document.ofText_write_tricky :
    let limits : Limits := { maxDepth := 2, maxSize := 200, allowRepeats := true }
    trickyDocument.Representable ∧ trickyDocument.write.utf8ByteSize ≤ limits.maxSize ∧
    trickyDocument.nesting ≤ limits.maxDepth ∧
    ∃ d', Document.ofText limits trickyDocument.write = .ok d' ∧
      d'.erase = trickyDocument.erase := by
  intro limits
  have h : trickyDocument.Representable := by decide +kernel
  have hsize : trickyDocument.write.utf8ByteSize ≤ limits.maxSize := by decide +kernel
  have hdepth : trickyDocument.nesting ≤ limits.maxDepth := by decide +kernel
  exact ⟨h, hsize, hdepth, Document.ofText_write h rfl hsize hdepth⟩

/-- What is written for a document that was read is read within the same limits, unless it is
too long, as the same document, spans aside. So it is written the same again, and the root
has the same text. -/
theorem Document.write_normalizes {limits : Limits} {s : String} {d : Document}
    (h : Document.ofText limits s = .ok d) (hsize : d.write.utf8ByteSize ≤ limits.maxSize) :
    ∃ d', Document.ofText limits d.write = .ok d' ∧ d'.erase = d.erase ∧
      d'.write = d.write ∧ d'.root.innerText = d.root.innerText := by
  obtain ⟨_, hspelled, hwithin⟩ := Document.parse_eq_ok_iff.mp h
  obtain ⟨d', hd', he⟩ := Document.parse_erase_iff.mpr
    ⟨hsize, hspelled.representable.derives_write, hwithin⟩
  refine ⟨d', hd', he, ?_, ?_⟩
  · rw [← Document.write_erase, he, Document.write_erase]
  · rw [← Document.innerText_erase, he, Document.innerText_erase]

/-- Blanks in tags, the space between attributes and a reference come out in one form. -/
theorem Document.write_normalizes_crowded : ∃ d d', Document.ofText {} crowdedSource = .ok d ∧
    d.write = "<?>?>\n<!-->--><a b='&lt;' c=\"'\">xA<![CDATA[]]]]><d/></a>" ∧
    Document.ofText {} d.write = .ok d' ∧ d'.erase = d.erase ∧ d'.write = d.write := by
  have hread : (Document.ofText {} crowdedSource).toOption.map Document.write =
      some "<?>?>\n<!-->--><a b='&lt;' c=\"'\">xA<![CDATA[]]]]><d/></a>" := by
    decide +kernel
  obtain ⟨d, hd, hw⟩ := Option.map_eq_some_iff.mp hread
  have hsize : d.write.utf8ByteSize ≤ Limits.maxSize {} := by
    rw [hw]
    decide
  have hparse := toOption_eq_some_iff.mp hd
  obtain ⟨d', hd', he, hw', _⟩ := Document.write_normalizes hparse hsize
  exact ⟨d, d', hparse, hw, hd', he, hw'⟩

end TextHoist
