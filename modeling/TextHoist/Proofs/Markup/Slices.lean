/-
  Spans are faithful to the text that was read. A span covers a slice of the text if it goes
  from the place before the slice to the place behind it (`Span.Covers`), and spans tile a
  stretch if each starts where the one before it stops (`Span.Tile`).

  Every node of a document stands in the text as a slice that spells it, and nothing else of
  the text matters for that (`Document.SpelledBy.slice`). So what holds of the bytes that
  spell a node holds of its slice: leaves are written as they stand, and an element is a
  document of its own (`Element.SpelledBy.alone`).
-/
import TextHoist.Proofs.Markup.Bounds
import TextHoist.Proofs.Markup.RoundTrip

namespace TextHoist

/-! ## Slices and tilings -/

namespace Span

/-- The span is that of a slice of the text. -/
def Covers (span : Span) (s slice : String) : Prop :=
  ∃ before after, s = before ++ slice ++ after ∧
    span = ⟨.after before, .after (before ++ slice)⟩

/-- Spans that follow each other from one position to another, none of them empty. -/
def Tile : Position → List Span → Position → Prop
  | p, [], q => p = q
  | p, span :: spans, q =>
    span.start = p ∧ span.start.offset < span.stop.offset ∧ Tile span.stop spans q

theorem Tile.append {p q r : Position} {spans spans' : List Span} (h : Tile p spans q)
    (h' : Tile q spans' r) : Tile p (spans ++ spans') r := by
  induction spans generalizing p with
  | nil =>
    obtain rfl : p = q := h
    exact h'
  | cons span spans ih => exact ⟨h.1, h.2.1, ih h.2.2⟩

end Span

variable {zone : Zone} {p : Position} {bs : List UInt8} {n : Node} {ns : List Node}
  {limits : Limits} {s : String} {d : Document}

/-! ## Nodes in spelled contents -/

/-- The nodes take up all the bytes, one after the other. -/
theorem Contents.tile (h : Contents zone p bs ns) :
    Span.Tile p (ns.map Node.span) (p.past bs) := by
  induction ns generalizing p bs with
  | nil =>
    rw [contents_nil_iff.mp h]
    rfl
  | cons n ns ih =>
    obtain ⟨b, c, rfl, hn, _, hr⟩ := contents_cons_iff.mp h
    have hrest := ih hr
    rw [List.map_cons, hn.span_eq, Position.past_append]
    exact ⟨rfl, Position.offset_lt_past hn.ne_nil, hrest⟩

theorem Contents.mem (h : Contents zone p bs ns) (hn : n ∈ ns) :
    ∃ pre mid post, bs = pre ++ mid ++ post ∧ Text.IsText pre ∧ Text.IsText post ∧
      Contents zone (p.past pre) mid [n] := by
  obtain ⟨ls, rs, rfl⟩ := List.append_of_mem hn
  obtain ⟨pre, c, rfl, hl, hr⟩ := h.split
  obtain ⟨mid, post, rfl, hmid, _, hrest⟩ := contents_cons_iff.mp hr
  exact ⟨pre, mid, post, by simp, hl.isText, hrest.isText, hmid⟩

/-- A node of the document: before or behind the root, the root, or below it. -/
def Document.Has (d : Document) (n : Node) : Prop :=
  n ∈ d.leading ∨ n ∈ d.trailing ∨ n = d.root.toNode ∨ ∃ path, d.node? path = some n

/-- Every node is spelled by bytes of its own, which are whole characters. -/
theorem Document.SpelledBy.mid (h : d.SpelledBy bs) (hn : d.Has n) :
    ∃ zone pre mid post, bs = pre ++ mid ++ post ∧ Text.IsText pre ∧ Text.IsText post ∧
      Contents zone (Position.start.past pre) mid [n] := by
  rcases hn with hn | hn | rfl | ⟨path, hn⟩
  · obtain ⟨before, root, after, rfl, hleading, hroot, htrailing⟩ := h
    obtain ⟨pre, mid, post, rfl, hpre, hpost, hmid⟩ := hleading.mem hn
    have hrest := (hpost.append (Contents.isText hroot)).append htrailing.isText
    exact ⟨_, pre, mid, post ++ root ++ after, by simp, hpre, hrest, hmid⟩
  · obtain ⟨before, root, after, rfl, hleading, hroot, htrailing⟩ := h
    obtain ⟨pre, mid, post, rfl, hpre, hpost, hmid⟩ := htrailing.mem hn
    have hfront := (hleading.isText.append (Contents.isText hroot)).append hpre
    rw [← Position.past_append] at hmid
    exact ⟨_, before ++ root ++ pre, mid, post, by simp, hfront, hpost, hmid⟩
  · obtain ⟨before, root, after, rfl, hleading, hroot, htrailing⟩ := h
    exact ⟨_, before, root, after, rfl, hleading.isText, htrailing.isText, hroot⟩
  · -- a child stands in the bytes of its parent, between the two tags
    obtain ⟨q, i, parent, _, hparent, hi⟩ := Document.node?_eq_some_iff.mp hn
    obtain ⟨pre, mid, post, rfl, hpre, hpost, hspelled, _⟩ := h.refills hparent
    have hmem := List.mem_of_getElem? hi
    obtain ⟨tag, body, close, rfl, ht, hc, hb, _⟩ := hspelled.tags (List.ne_nil_of_mem hmem)
    obtain ⟨pre', mid, post', rfl, hpre', hpost', hmid⟩ := hb.mem hmem
    rw [← Position.past_append, ← Position.past_append] at hmid
    exact ⟨_, pre ++ (tag ++ pre'), mid, post' ++ close ++ post, by simp,
      hpre.append (ht.append hpre'), (hpost'.append hc).append hpost, hmid⟩

/-- Every node stands in the text as a slice that spells it. -/
theorem Document.SpelledBy.slice (h : d.SpelledBy (Text.bytes s)) (hn : d.Has n) :
    ∃ zone before slice after, s = before ++ slice ++ after ∧
      Contents zone (.after before) (Text.bytes slice) [n] := by
  obtain ⟨zone, pre, mid, post, hs, ⟨before, rfl⟩, ⟨after, rfl⟩, hmid⟩ := h.mid hn
  obtain ⟨slice, rfl⟩ := hmid.isText
  rw [Position.past_start] at hmid
  exact ⟨zone, before, slice, after, Text.bytes_injective (by simpa using hs), hmid⟩

theorem Contents.covers {before slice after : String} (hs : s = before ++ slice ++ after)
    (h : Contents zone (.after before) (Text.bytes slice) [n]) : n.span.Covers s slice := by
  refine ⟨before, after, hs, ?_⟩
  rw [h.span_eq, Position.past_after]

/-! ## Leaves -/

theorem Contents.leafSpelled {kind : LeafKind} {content : String} {span : Span}
    (h : Contents zone p bs [.leaf kind content span]) : LeafSpelled zone kind bs content := by
  cases h with
  | leaf hl _ hr =>
    rw [contents_nil_iff.mp hr, List.append_nil]
    exact hl

namespace LeafSpelled

variable {slice content : String}

/-- All leaves but texts are written as they stand. -/
theorem slice_eq_write {kind : LeafKind} (h : LeafSpelled zone kind (Text.bytes slice) content)
    (hk : kind ≠ .text) (span : Span) : slice = (Node.leaf kind content span).write := by
  generalize hbytes : Text.bytes slice = bytes at h
  cases h with
  | text => exact absurd rfl hk
  | blank => exact absurd rfl hk
  | delimited =>
    rw [Node.write_leaf hk]
    exact Text.bytes_injective hbytes

/-- A text decodes to its content. Blanks outside the root have nothing to decode. -/
theorem decode_slice (h : LeafSpelled zone .text (Text.bytes slice) content) :
    Reference.decode slice = .ok content := by
  generalize hbytes : Text.bytes slice = bytes at h
  cases h with
  | text _ _ hd =>
    rw [Text.bytes_injective hbytes]
    exact hd
  | blank _ hblanks =>
    have hdecode := Reference.decode_escape Reference.inText_faithful content
    have hescape := Reference.escapeText_of_gap (Production.gap_iff.mpr hblanks)
    rw [Text.bytes_injective hbytes]
    exact (congrArg Reference.decode hescape).symm.trans hdecode
  | delimited hs => cases hs

end LeafSpelled

/-! ## Elements -/

namespace Element.SpelledBy

variable {e : Element}

/-- Between its two tags, an element is its children. -/
theorem between {before slice : String} (h : e.SpelledBy (.after before) (Text.bytes slice))
    (hform : e.form = .paired) : ∃ opening body closing, slice = opening ++ body ++ closing ∧
      OpeningTag e.name e.attributes .paired (Text.bytes opening) ∧
      ClosingTag e.name (Text.bytes closing) ∧
      Span.Tile (.after (before ++ opening)) (e.children.map Node.span)
        (.after (before ++ opening ++ body)) := by
  obtain ⟨_, ⟨hempty, _⟩ | ⟨_, tag, body, close, hbytes, ht, hb, hc⟩⟩ :=
    Element.spelledBy_iff.mp h
  · rw [hform] at hempty
    cases hempty
  · obtain ⟨opening, rfl⟩ := ht.isText
    obtain ⟨inner, rfl⟩ := hb.isText
    obtain ⟨closing, rfl⟩ := hc.isText
    have htile := hb.tile
    rw [Position.past_after, Position.past_after] at htile
    exact ⟨opening, inner, closing, Text.bytes_injective (by simpa using hbytes), ht, hc, htile⟩

/-- The bytes of an element are those of a document with nothing around its root. -/
theorem alone (h : e.SpelledBy p bs) (hsize : bs.length ≤ limits.maxSize)
    (hwithin : e.toNode.Within limits 0) :
    ∃ root, Document.parse limits bs = .ok ⟨[], root, []⟩ ∧ root.erase = e.erase := by
  obtain ⟨root, hroot, herase⟩ := h.relocate .start
  have hspelled : Document.SpelledBy ⟨[], root, []⟩ bs :=
    ⟨[], bs, [], by simp, .nil _, hroot, .nil _⟩
  have hsame : Document.erase ⟨[], root, []⟩ = Document.erase ⟨[], e, []⟩ :=
    congrArg (fun r => Document.mk [] r []) herase
  have hwithin' : root.toNode.Within limits 0 :=
    (Document.within_iff_of_erase_eq hsame).mpr hwithin
  exact ⟨root, Document.parse_eq_ok_iff.mpr ⟨hsize, hspelled, hwithin'⟩, herase⟩

end Element.SpelledBy

/-- Before the root, the root, behind the root: the spans go through the whole text. -/
theorem Document.SpelledBy.tile (h : d.SpelledBy (Text.bytes s)) :
    Span.Tile .start ((d.leading ++ d.root.toNode :: d.trailing).map Node.span) (.after s) := by
  rw [← Position.past_start]
  obtain ⟨before, root, after, hs, hleading, hroot, htrailing⟩ := h
  have htiles := hroot.tile.append (Position.past_append .. ▸ htrailing.tile)
  rw [hs, List.append_assoc, Position.past_append, Position.past_append]
  rw [List.map_append]
  exact hleading.tile.append htiles

/-- Three lines, characters of two bytes, a `>` in a value and a blank in a closing tag. -/
def ruggedSource : String := "<!--é-->\n<a x='>'>&lt;é\n<b/></a >"

def ruggedDocument : Document :=
  ⟨[.leaf .comment "é" ⟨⟨0, 1, 1⟩, ⟨9, 1, 9⟩⟩, .leaf .text "\n" ⟨⟨9, 1, 9⟩, ⟨10, 2, 1⟩⟩],
    ⟨"a", [⟨"x", ">", .single⟩],
      [.leaf .text "<é\n" ⟨⟨19, 2, 10⟩, ⟨26, 3, 1⟩⟩,
        .element "b" [] [] .empty ⟨⟨26, 3, 1⟩, ⟨30, 3, 5⟩⟩],
      .paired, ⟨⟨10, 2, 1⟩, ⟨35, 3, 10⟩⟩⟩, []⟩

end TextHoist
