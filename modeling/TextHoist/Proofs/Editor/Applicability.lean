/-
  Where the action applies. The texts of a document never touch, so a caret is on one of
  them at most, and looking for what is under the caret finds that text before anything
  else that begins or ends there (`Document.SpelledBy.nodeAt?_text`). What is found at the
  caret is in turn under it (`Document.isUnder_of_nodeAt?`). So there is a target exactly if
  the text under the caret is visible and the element around it is listed
  (`Document.SpelledBy.target?_nodeAt?_iff`), and what is to be moved is all the character
  data of that element, trimmed, of which the text is a part.
-/
import TextHoist.Proofs.Editor.Availability
import TextHoist.Proofs.Markup.Caret
import TextHoist.Proofs.Text.Trim

namespace TextHoist

/-! ## Character data -/

namespace Node

mutual

/-- The leaves in and below a node, in order. -/
def leaves : Node → List Node
  | element _ _ children _ _ => leavesAll children
  | leaf kind content span => [leaf kind content span]

@[inherit_doc leaves]
def leavesAll : List Node → List Node
  | [] => []
  | n :: ns => n.leaves ++ leavesAll ns

end

/-- The content of a text node or a CDATA section. -/
def characterData? : Node → Option String
  | leaf .text content _ => some content
  | leaf .cdata content _ => some content
  | _ => none

/-- The contents of the texts and CDATA sections in and below some nodes, in order. -/
def characterDataAll (ns : List Node) : List String := (leavesAll ns).filterMap characterData?

mutual

theorem innerText_eq_join : ∀ n : Node,
    n.innerText = String.join (n.leaves.filterMap characterData?)
  | element _ _ children _ _ => innerTextAll_eq_join children
  | leaf kind content _ => by
    cases kind with
    | text | cdata => exact (String.empty_append (s := content)).symm
    | _ => rfl

theorem innerTextAll_eq_join : ∀ ns : List Node,
    innerTextAll ns = String.join (characterDataAll ns)
  | [] => rfl
  | n :: ns => by
    rw [innerTextAll, innerText_eq_join n, innerTextAll_eq_join ns, ← String.join_append,
      characterDataAll, characterDataAll, leavesAll, List.filterMap_append]

end

/-- The content of a text is part of the character data of the nodes it stands among. -/
theorem mem_characterDataAll {content : String} {span : Span} {ns : List Node}
    (h : leaf .text content span ∈ ns) : content ∈ characterDataAll ns := by
  refine List.mem_filterMap.mpr ⟨leaf .text content span, ?_, rfl⟩
  induction ns with
  | nil => cases h
  | cons n ns ih =>
    rw [leavesAll, List.mem_append]
    rcases List.mem_cons.mp h with rfl | h
    · exact .inl List.mem_cons_self
    · exact .inr (ih h)

theorem isVisibleText_iff {n : Node} : n.isVisibleText = true ↔
    ∃ content span, n = leaf .text content span ∧
      ∃ c ∈ content.toList, Text.isBlank c = false := by
  constructor
  · intro h
    obtain ⟨content, htext, hvisible⟩ := (Option.any_eq_true ..).mp h
    cases n with
    | element => cases htext
    | leaf kind content' span =>
      cases kind with
      | text =>
        cases htext
        refine ⟨content, span, rfl, ?_⟩
        simpa [Text.isBlankText] using hvisible
      | _ => cases htext
  · intro h
    obtain ⟨content, span, rfl, c, hc, hblank⟩ := h
    have hvisible : Text.isBlankText content = false :=
      List.all_eq_false.mpr ⟨c, hc, by simp [hblank]⟩
    show (!Text.isBlankText content) = true
    rw [hvisible]
    rfl

end Node

/-- The text to move, where it comes from a text that is visible, is not empty. -/
theorem Element.trim_innerText {e : Element} {content : String} {span : Span}
    (h : Node.leaf .text content span ∈ e.children) {c : Char} (hc : c ∈ content.toList)
    (hblank : Text.isBlank c = false) : Text.trim e.innerText ≠ "" := by
  have hmem : c ∈ e.innerText.toList := by
    rw [Element.innerText, Node.innerTextAll_eq_join, String.toList_join]
    exact List.mem_flatMap.mpr ⟨content, Node.mem_characterDataAll h, hc⟩
  exact (Text.trimmed_trim e.innerText).ne_empty hmem hblank

/-! ## The text under the caret -/

namespace Document

variable {d : Document} {a : Nat}

/-- There is a target at the caret if it is on a visible text below a listed element. -/
theorem SpelledBy.target?_nodeAt?_iff {bs : List UInt8} (h : d.SpelledBy bs) {tags : TagTable}
    {t : Target} : (d.nodeAt? a true).bind (d.target? tags) = some t ↔
      ∃ (i : Nat) (content : String) (parent : Element),
        d.TextUnder a (Path.child t.element i) content ∧
        (∃ c ∈ content.toList, Text.isBlank c = false) ∧ d.element? t.element = some parent ∧
        tags.attribute? parent.name = some t.attributeName ∧ t.tag = parent.name ∧
        t.text = Text.trim parent.innerText := by
  constructor
  · intro ht
    obtain ⟨path, hat, htarget⟩ := Option.bind_eq_some_iff.mp ht
    obtain ⟨i, parent, n, rfl, hparent, hn, hvisible, hname, htag, htext⟩ :=
      target?_eq_some_iff.mp htarget
    obtain ⟨content, span, rfl, hc⟩ := Node.isVisibleText_iff.mp hvisible
    have hnode : d.node? (Path.child t.element i) = some (.leaf .text content span) :=
      node?_eq_some_iff.mpr ⟨t.element, i, parent, rfl, hparent, hn⟩
    have hunder := (Node.isUnder_text_iff rfl).mp (isUnder_of_nodeAt? hat hnode)
    exact ⟨i, content, parent, ⟨span, hnode, hunder⟩, hc, hparent, hname, htag, htext⟩
  · intro ht
    obtain ⟨i, content, parent, hunder, hc, hparent, hname, htag, htext⟩ := ht
    rw [hunder.nodeAt? h, Option.bind_some]
    obtain ⟨span, hnode, _⟩ := hunder
    rw [node?_child, hparent, Option.bind_some] at hnode
    exact target?_eq_some_iff.mpr ⟨i, parent, _, rfl, hparent, hnode,
      Node.isVisibleText_iff.mpr ⟨content, span, rfl, hc⟩, hname, htag, htext⟩

end Document

/-! ## Asking at an offset -/

/-- A name is listed if there is an entry for it. -/
theorem TagTable.exists_attribute?_iff {tags : TagTable} {tag : String} :
    (∃ name, tags.attribute? tag = some name) ↔ tag ∈ tags.entries.map Prod.fst := by
  constructor
  · intro h
    obtain ⟨name, hname⟩ := h
    exact List.mem_map.mpr ⟨(tag, name), TagTable.mem_of_attribute? hname, rfl⟩
  · intro h
    obtain ⟨entry, hentry, rfl⟩ := List.mem_map.mp h
    refine Option.ne_none_iff_exists'.mp fun hnone => ?_
    have hne := List.lookup_eq_none_iff.mp hnone entry hentry
    simp at hne

namespace MoveText

variable {source : String} {d : Document} {offset : Nat}

/-- The action applies at an offset exactly if the one text that is there, if any, is visible
and its parent listed. Then it is about the parent and its first entry, and about all the
character data of the parent without the blanks at both ends, which is not empty. -/
theorem probe_exact (hd : Document.ofText {} source = .ok d)
    (ho : Text.isBoundary source offset = true) :
    (∀ path path' content content', d.TextUnder offset path content →
      d.TextUnder offset path' content' → path = path') ∧
    (∃ found, probe source offset = .ok found) ∧
    ((∃ t, probe source offset = .ok (some t)) ↔
      ∃ (q : Path) (i : Nat) (content : String) (parent : Element),
        d.TextUnder offset (Path.child q i) content ∧
        (∃ c ∈ content.toList, Text.isBlank c = false) ∧ d.element? q = some parent ∧
        parent.name ∈ TagTable.builtin.entries.map Prod.fst) ∧
    ∀ t, probe source offset = .ok (some t) →
      ∃ (i : Nat) (content : String) (parent : Element) (before after : List (String × String)),
        d.TextUnder offset (Path.child t.element i) content ∧
        d.element? t.element = some parent ∧ t.tag = parent.name ∧
        TagTable.builtin.entries = before ++ (parent.name, t.attributeName) :: after ∧
        (∀ entry ∈ before, entry.1 ≠ parent.name) ∧
        Text.Trimmed (String.join (Node.characterDataAll parent.children)) t.text ∧
        t.text ≠ "" := by
  obtain ⟨_, hspelled, _⟩ := Document.parse_eq_ok_iff.mp hd
  have hprobe : ∀ t, probe source offset = .ok (some t) ↔
      (d.nodeAt? offset true).bind (d.target? .builtin) = some t := by
    intro t
    rw [probe_eq_ok hd ho, Except.ok.injEq]
  refine ⟨?_, ⟨_, probe_eq_ok hd ho⟩, ⟨?_, ?_⟩, ?_⟩
  · intro path path' content content' h h'
    exact Option.some.inj ((h.nodeAt? hspelled).symm.trans (h'.nodeAt? hspelled))
  · intro h
    obtain ⟨t, ht⟩ := h
    obtain ⟨i, content, parent, hunder, hc, hparent, hname, _⟩ :=
      hspelled.target?_nodeAt?_iff.mp ((hprobe t).mp ht)
    exact ⟨t.element, i, content, parent, hunder, hc, hparent,
      TagTable.exists_attribute?_iff.mp ⟨_, hname⟩⟩
  · intro h
    obtain ⟨q, i, content, parent, hunder, hc, hparent, hlisted⟩ := h
    obtain ⟨name, hname⟩ := TagTable.exists_attribute?_iff.mpr hlisted
    exact ⟨⟨q, parent.name, name, Text.trim parent.innerText⟩, (hprobe _).mpr
      (hspelled.target?_nodeAt?_iff.mpr ⟨i, content, parent, hunder, hc, hparent, hname, rfl, rfl⟩)⟩
  · intro t ht
    obtain ⟨i, content, parent, hunder, ⟨c, hc, hblank⟩, hparent, hname, htag, htext⟩ :=
      hspelled.target?_nodeAt?_iff.mp ((hprobe t).mp ht)
    obtain ⟨before, after, hentries, hbefore⟩ := List.lookup_eq_some_iff.mp hname
    refine ⟨i, content, parent, before, after, hunder, hparent, htag, hentries, ?_, ?_, ?_⟩
    · intro entry hentry heq
      have := hbefore entry hentry
      simp [heq] at this
    · rw [htext, ← Node.innerTextAll_eq_join]
      exact Text.trimmed_trim _
    · obtain ⟨span, hnode, _⟩ := hunder
      rw [Document.node?_child, hparent, Option.bind_some] at hnode
      rw [htext]
      exact Element.trim_innerText (List.mem_of_getElem? hnode) hc hblank

/-- A label with a text between its tag and a comment, and more character data behind. -/
def mixedSource : String := "<W><Label>é<!--c--><i>d</i> <![CDATA[]e]]></Label></W>"

def mixedLabel : Element :=
  ⟨"Label", [], [.leaf .text "é" ⟨⟨10, 1, 11⟩, ⟨12, 1, 12⟩⟩,
    .leaf .comment "c" ⟨⟨12, 1, 12⟩, ⟨20, 1, 20⟩⟩,
    .element "i" [] [.leaf .text "d" ⟨⟨23, 1, 23⟩, ⟨24, 1, 24⟩⟩] .paired
      ⟨⟨20, 1, 20⟩, ⟨28, 1, 28⟩⟩,
    .leaf .text " " ⟨⟨28, 1, 28⟩, ⟨29, 1, 29⟩⟩,
    .leaf .cdata "]e" ⟨⟨29, 1, 29⟩, ⟨43, 1, 43⟩⟩], .paired, ⟨⟨3, 1, 4⟩, ⟨51, 1, 51⟩⟩⟩

def mixedDocument : Document :=
  ⟨[], ⟨"W", [], [mixedLabel.toNode], .paired, ⟨⟨0, 1, 1⟩, ⟨55, 1, 55⟩⟩⟩, []⟩

/-- The caret where the text ends and the comment starts. -/
theorem probe_exact_mixed :
    Document.ofText {} mixedSource = .ok mixedDocument ∧ Text.isBoundary mixedSource 12 = true ∧
    (∀ path content, mixedDocument.TextUnder 12 path content → path = [0, 0]) ∧
    ∃ t, probe mixedSource 12 = .ok (some t) ∧ t.element = [0] ∧ t.tag = "Label" ∧
      Text.Trimmed "éd ]e" t.text := by
  have hd : Document.ofText {} mixedSource = .ok mixedDocument :=
    toOption_eq_some_iff.mp (by decide +kernel)
  have ho : Text.isBoundary mixedSource 12 = true := by decide +kernel
  have hunder : mixedDocument.TextUnder 12 (Path.child [0] 0) "é" :=
    ⟨⟨⟨10, 1, 11⟩, ⟨12, 1, 12⟩⟩, rfl, by decide, by decide⟩
  obtain ⟨honly, _, happlies, htarget⟩ := probe_exact hd ho
  obtain ⟨t, ht⟩ := happlies.mpr ⟨[0], 0, "é", mixedLabel, hunder, ⟨'é', by decide, by decide⟩,
    rfl, by decide⟩
  obtain ⟨i, content, parent, _, _, hunder', hparent, htag, _, _, htext, _⟩ := htarget t ht
  obtain ⟨helement, _⟩ := List.append_inj' (honly _ _ _ _ hunder' hunder) rfl
  rw [helement] at hparent
  obtain rfl : mixedLabel = parent := Option.some.inj hparent
  have hdata : String.join (Node.characterDataAll mixedLabel.children) = "éd ]e" := by
    decide +kernel
  rw [hdata] at htext
  exact ⟨hd, ho, fun path content h => honly _ _ _ _ h hunder, t, ht, helement, htag, htext⟩

end MoveText

end TextHoist
