/-
  What is looked up at an offset. The way down goes to the first child under the caret, at
  every level, and never comes back (`Element.wayDown_cases`). What it leads to is there
  (`Element.wayDown_leads`): an element with nothing under the caret below it, or a leaf, in
  front of which the way ends if no leaf is wanted.

  That the first child is the right one is a matter of spans. Of the children before a node
  that the caret is in, only a text can be under the caret, and only if it ends there
  (`Contents.text_of_isUnder`). So where no text is under the caret the way goes through
  every node that has the offset in its span, and what is found is the deepest of them
  (`Document.SpelledBy.nodeAt?_eq_some_iff`). Paths are ordered by which is on the way to
  which, so deepest means that all others are on the way to it.
-/
import TextHoist.Proofs.Edit.Refinement
import TextHoist.Proofs.Markup.Caret

namespace TextHoist

variable {d : Document} {e : Element} {n : Node} {a : Nat} {bs : List UInt8} {path : Path}

/-! ## The way down, step by step -/

namespace Node

/-- The children before the first one under the caret, that one, and the others. -/
theorem exists_first (a : Nat) (ns : List Node) : (∀ n ∈ ns, n.isUnder a = false) ∨
    ∃ ls n rs, ns = ls ++ n :: rs ∧ (∀ m ∈ ls, m.isUnder a = false) ∧ n.isUnder a = true := by
  cases hfind : ns.find? (·.isUnder a) with
  | none =>
    left
    intro n hn
    simpa using List.find?_eq_none.mp hfind n hn
  | some n =>
    right
    obtain ⟨hunder, ls, rs, hns, hls⟩ := List.find?_eq_some_iff_append.mp hfind
    exact ⟨ls, n, rs, hns, fun m hm => by simpa using hls m hm, hunder⟩

theorem isUnder_of_contains (h : n.span.contains a = true) : n.isUnder a = true := by
  have ht : n.span.touches a = true := by
    rw [Span.contains_iff] at h
    exact Span.touches_iff.mpr ⟨h.1, Nat.le_of_lt h.2⟩
  cases n with
  | element => exact h
  | leaf kind => cases kind <;> assumption

/-- A caret is on a node if it is in its span, or at the end of it if that is a text. -/
theorem contains_of_isUnder (h : n.isUnder a = true) (hn : n.text? = none) :
    n.span.contains a = true := by
  cases n with
  | element => exact h
  | leaf kind =>
    cases kind with
    | text => cases hn
    | _ => exact h

end Node

/-- From an element, the way down ends if no child is under the caret. Else it goes to the
first one that is, and on from there if that is an element. To a leaf it goes only if leaves
are wanted. -/
theorem Element.wayDown_cases (e : Element) (a : Nat) :
    (∀ toLeaf, e.toNode.wayDown toLeaf a = []) ∨
    (∃ i n, e.children[i]? = some n ∧ n.element? = none ∧ e.toNode.wayDown true a = [i] ∧
      e.toNode.wayDown false a = []) ∨
    ∃ (i : Nat) (child : Element), e.children[i]? = some child.toNode ∧
      ∀ toLeaf, e.toNode.wayDown toLeaf a = i :: child.toNode.wayDown toLeaf a := by
  rcases Node.exists_first a e.children with hnone | ⟨ls, n, rs, he, hls, hunder⟩
  · left
    intro toLeaf
    show Node.wayDownFrom toLeaf a 0 e.children = []
    rw [← List.append_nil e.children, Node.wayDownFrom_append hnone]
    rfl
  · right
    have hchild : e.children[ls.length]? = some n := by simp [he]
    cases n with
    | leaf kind content span =>
      exact .inl ⟨ls.length, _, hchild, rfl, Element.wayDown_leaf he hls hunder rfl true,
        Element.wayDown_leaf he hls hunder rfl false⟩
    | element name attributes children form span =>
      exact .inr ⟨ls.length, ⟨name, attributes, children, form, span⟩, hchild,
        Element.wayDown_element he hls hunder⟩

/-- The whole way down leads to an element, whether leaves are wanted or not, or it leads to
a leaf, and to the element around that if they are not. -/
theorem Element.wayDown_leads (e : Element) (a : Nat) :
    (∃ below, e.descendant? (e.toNode.wayDown true a) = some below ∧
      e.toNode.wayDown false a = e.toNode.wayDown true a) ∨
    ∃ (i : Nat) (parent : Element) (n : Node),
      e.toNode.wayDown true a = Path.child (e.toNode.wayDown false a) i ∧
      e.descendant? (e.toNode.wayDown false a) = some parent ∧ parent.children[i]? = some n ∧
      n.element? = none := by
  -- the way from a child is one step shorter than the way from its parent
  generalize hpath : e.toNode.wayDown true a = path
  induction path generalizing e with
  | nil =>
    rcases e.wayDown_cases a with hend | ⟨i, n, _, _, hway, _⟩ | ⟨i, child, _, hway⟩
    · exact .inl ⟨e, rfl, hend false⟩
    · rw [hway] at hpath
      cases hpath
    · rw [hway] at hpath
      cases hpath
  | cons j path ih =>
    rcases e.wayDown_cases a with hend | ⟨i, n, hi, hn, hway, hway'⟩ | ⟨i, child, hi, hway⟩
    · rw [hend] at hpath
      cases hpath
    · rw [hway] at hpath
      cases hpath
      rw [hway']
      exact .inr ⟨j, e, n, rfl, rfl, hi, hn⟩
    · have hstep : ∀ q, e.descendant? (i :: q) = child.descendant? q := by
        intro q
        simp [Element.descendant?, hi]
      rw [hway] at hpath
      cases hpath
      rw [hway, hstep, hstep]
      rcases ih child rfl with ⟨below, hbelow, hsame⟩ | ⟨k, parent, n, hchild, hparent, hk, hn⟩
      · exact .inl ⟨below, hbelow, by rw [hsame]⟩
      · exact .inr ⟨k, parent, n, by rw [hchild]; rfl, hparent, hk, hn⟩

/-! ## Nodes at paths -/

namespace Document

/-- A node and its path: the root has the empty one, any other is a child of an element. -/
def StandsAt (d : Document) (path : Path) (n : Node) : Prop :=
  (path = [] ∧ n = d.root.toNode) ∨ d.node? path = some n

/-- The deepest of the nodes with an offset in their span: all others are on the way to it. -/
def Deepest (d : Document) (a : Nat) (path : Path) : Prop :=
  (∃ n, d.StandsAt path n ∧ n.span.contains a = true) ∧
    ∀ q n, d.StandsAt q n → n.span.contains a = true → q <+: path

theorem element?_child (d : Document) (q : Path) (i : Nat) :
    d.element? (Path.child q i) = (d.node? (Path.child q i)).bind Node.element? := by
  unfold element?
  rw [node?_child, Path.child, Element.descendant?_append, Option.bind_assoc]
  refine Option.bind_congr fun parent _ => ?_
  simp [Element.descendant?]

/-- Elements are the nodes that are elements. -/
theorem element?_eq_some_iff :
    d.element? path = some e ↔ (path = [] ∧ e = d.root) ∨ d.node? path = some e.toNode := by
  rcases List.eq_nil_or_concat path with rfl | ⟨q, i, rfl⟩
  · have hroot : d.element? [] = some d.root := rfl
    have hnode : d.node? [] = none := rfl
    rw [hroot, hnode]
    simp [eq_comm]
  · have hchild := element?_child d q i
    rw [List.concat_eq_append]
    unfold Path.child at hchild
    rw [hchild, Option.bind_eq_some_iff]
    constructor
    · rintro ⟨n, hn, he⟩
      rw [Element.toNode_eq_of_element? he]
      exact .inr hn
    · rintro (⟨hnil, _⟩ | hn)
      · simp at hnil
      · exact ⟨_, hn, rfl⟩

theorem standsAt_of_element? (h : d.element? path = some e) : d.StandsAt path e.toNode := by
  rcases element?_eq_some_iff.mp h with ⟨rfl, rfl⟩ | hn
  · exact .inl ⟨rfl, rfl⟩
  · exact .inr hn

/-- What is looked up is there: an element, both if leaves are wanted and if not, or a leaf,
and the element around it if leaves are not wanted. -/
theorem nodeAt?_leads (h : d.nodeAt? a true = some path) :
    (∃ e, d.element? path = some e ∧ d.nodeAt? a false = some path) ∨
    ∃ (q : Path) (i : Nat) (n : Node) (parent : Element), path = Path.child q i ∧
      d.node? path = some n ∧ n.element? = none ∧ d.element? q = some parent ∧
      d.nodeAt? a false = some q := by
  unfold nodeAt? at h ⊢
  split at h
  case isFalse => cases h
  case isTrue hcontains =>
    rw [if_pos hcontains]
    obtain rfl := Option.some.inj h
    rcases d.root.wayDown_leads a with ⟨e, he, hsame⟩ | ⟨i, parent, n, hway, hparent, hi, hn⟩
    · exact .inl ⟨e, he, by rw [hsame]⟩
    · refine .inr ⟨_, i, n, parent, hway, ?_, hn, hparent, rfl⟩
      exact node?_eq_some_iff.mpr ⟨_, i, parent, hway, hparent, hi⟩

/-- There is something to look up at the offsets in the span of the root. -/
theorem nodeAt?_eq_none_iff {toLeaf : Bool} :
    d.nodeAt? a toLeaf = none ↔ d.root.span.contains a = false := by
  unfold nodeAt?
  split
  case isTrue h => simp [h]
  case isFalse h => simpa using h

/-- Whatever is looked up is there. -/
theorem exists_standsAt {toLeaf : Bool} (h : d.nodeAt? a toLeaf = some path) :
    ∃ n, d.StandsAt path n := by
  cases toLeaf with
  | true =>
    rcases nodeAt?_leads h with ⟨e, he, _⟩ | ⟨_, _, n, _, _, hn, _⟩
    · exact ⟨_, standsAt_of_element? he⟩
    · exact ⟨n, .inr hn⟩
  | false =>
    cases hleaf : d.nodeAt? a true with
    | none =>
      rw [nodeAt?_eq_none_iff.mpr (nodeAt?_eq_none_iff.mp hleaf)] at h
      cases h
    | some p =>
      rcases nodeAt?_leads hleaf with ⟨e, he, hat⟩ | ⟨_, _, _, parent, _, _, _, hparent, hat⟩
      · cases hat.symm.trans h
        exact ⟨_, standsAt_of_element? he⟩
      · cases hat.symm.trans h
        exact ⟨_, standsAt_of_element? hparent⟩

/-- Leaves aside, the same is found. In place of a leaf it is the element around it. -/
theorem nodeAt?_false (h : d.nodeAt? a true = some path) :
    d.nodeAt? a false = if (d.element? path).isSome then some path else path.parent? := by
  rcases nodeAt?_leads h with ⟨e, he, hat⟩ | ⟨q, i, n, _, rfl, hn, hleaf, _, hat⟩
  · rw [hat, he]
    rfl
  · have hnone : d.element? (Path.child q i) = none := by
      rw [element?_child, hn, Option.bind_some, hleaf]
    rw [hat, hnone]
    exact (Path.parent?_child q i).symm

end Document

/-! ## The deepest node -/

/-- Behind some contents, only a text can be under the caret. -/
theorem Contents.text_of_isUnder {zone : Zone} {p : Position} {ns : List Node}
    (h : Contents zone p bs ns) (ha : (p.past bs).offset ≤ a) (hn : n ∈ ns)
    (hunder : n.isUnder a = true) : n.text?.isSome = true := by
  cases htext : n.text? with
  | some content => rfl
  | none =>
    have hcontains := Node.contains_of_isUnder hunder htext
    have hstop := (h.span_le n hn).2.2
    rw [Span.contains_iff] at hcontains
    omega

/-- The way down goes to the child that the caret is in, if it is not on a text before that. -/
theorem Element.SpelledBy.wayDown_contains {p : Position} {ls rs : List Node}
    (h : e.SpelledBy p bs) (he : e.children = ls ++ n :: rs) (hn : n.span.contains a = true)
    (hls : ∀ m ∈ ls, m.text?.isSome = true → m.isUnder a = false) :
    ∃ rest, e.toNode.wayDown true a = ls.length :: rest := by
  obtain ⟨q, b, hb, hstart⟩ := h.child_start he
  have hbefore : ∀ m ∈ ls, m.isUnder a = false := by
    intro m hm
    cases hunder : m.isUnder a with
    | false => rfl
    | true =>
      have hle : (q.past b).offset ≤ a := by
        rw [← hstart]
        exact (Span.contains_iff.mp hn).1
      rw [← hunder]
      exact hls m hm (hb.text_of_isUnder hle hm hunder)
  have hunder := Node.isUnder_of_contains hn
  cases n with
  | leaf => exact ⟨_, Element.wayDown_leaf he hbefore hunder rfl true⟩
  | element name attributes children form span =>
    let child : Element := ⟨name, attributes, children, form, span⟩
    have he : e.children = ls ++ child.toNode :: rs := he
    exact ⟨_, Element.wayDown_element he hbefore hunder true⟩

namespace Document

theorem textUnder_of_isUnder (hn : d.node? path = some n) (htext : n.text?.isSome = true)
    (hunder : n.isUnder a = true) : ∃ content, d.TextUnder a path content := by
  have hspan := (Node.isUnder_text_iff htext).mp hunder
  cases n with
  | element => cases htext
  | leaf kind content span =>
    cases kind with
    | text => exact ⟨content, span, hn, hspan⟩
    | _ => cases htext

/-- Where no text is under the caret, the way down goes through every node that the caret is
in: the caret is strictly inside its parent, so the way goes through that, and on to the node. -/
theorem SpelledBy.on_way (h : d.SpelledBy bs) (hnone : ∀ q content, ¬ d.TextUnder a q content)
    (hn : d.StandsAt path n) (hcontains : n.span.contains a = true) :
    ∃ p, d.nodeAt? a true = some p ∧ path <+: p := by
  rcases hn with ⟨rfl, rfl⟩ | hn
  · have hroot : d.root.span.contains a = true := hcontains
    exact ⟨_, by rw [nodeAt?, if_pos hroot], List.nil_prefix⟩
  · obtain ⟨q, i, parent, rfl, hparent, hi⟩ := node?_eq_some_iff.mp hn
    obtain ⟨ls, rs, rfl, he⟩ := Node.exists_split hi
    obtain ⟨_, _, hspelled⟩ := h.element hparent
    have hls : ∀ m ∈ ls, m.text?.isSome = true → m.isUnder a = false := by
      intro m hm htext
      obtain ⟨j, hj⟩ := List.getElem?_of_mem hm
      have hnode : d.node? (Path.child q j) = some m := by
        refine node?_eq_some_iff.mpr ⟨q, j, parent, rfl, hparent, ?_⟩
        rw [he, List.getElem?_append_left (List.getElem?_eq_some_iff.mp hj).1, hj]
      rw [← Bool.not_eq_true]
      intro hunder
      obtain ⟨content, hcontent⟩ := textUnder_of_isUnder hnode htext hunder
      exact hnone _ _ hcontent
    obtain ⟨rest, hrest⟩ := hspelled.wayDown_contains he hcontains hls
    obtain ⟨hlt, _, hlt'⟩ := hspelled.child_inside (n := n) (by simp [he])
    rw [Span.contains_iff] at hcontains
    refine ⟨_, h.nodeAt?_inside hparent (by omega) (by omega), rest, ?_⟩
    rw [hrest]
    simp [Path.child]

/-- What is found has the offset in its span, unless it is a text. -/
theorem contains_of_nodeAt? (hnone : ∀ q content, ¬ d.TextUnder a q content)
    (h : d.nodeAt? a true = some path) : ∃ n, d.StandsAt path n ∧ n.span.contains a = true := by
  obtain ⟨n, hn⟩ := exists_standsAt h
  refine ⟨n, hn, ?_⟩
  rcases hn with ⟨rfl, rfl⟩ | hn
  · cases hroot : d.root.span.contains a with
    | true => exact hroot
    | false =>
      rw [nodeAt?_eq_none_iff.mpr hroot] at h
      cases h
  · have hunder := isUnder_of_nodeAt? h hn
    cases htext : n.text? with
    | none => exact Node.contains_of_isUnder hunder htext
    | some content =>
      obtain ⟨content, hcontent⟩ := textUnder_of_isUnder hn (by rw [htext]; rfl) hunder
      exact absurd hcontent (hnone _ _)

/-- Where no text is under the caret, the deepest node that the caret is in is found. -/
theorem SpelledBy.nodeAt?_eq_some_iff (h : d.SpelledBy bs)
    (hnone : ∀ q content, ¬ d.TextUnder a q content) :
    d.nodeAt? a true = some path ↔ d.Deepest a path := by
  have hdeepest : ∀ {p}, d.nodeAt? a true = some p → d.Deepest a p := by
    intro p hp
    refine ⟨contains_of_nodeAt? hnone hp, fun q n hn hcontains => ?_⟩
    obtain ⟨p', hp', hq⟩ := h.on_way hnone hn hcontains
    rwa [Option.some.inj (hp.symm.trans hp')]
  refine ⟨hdeepest, fun hpath => ?_⟩
  obtain ⟨⟨n, hn, hcontains⟩, hall⟩ := hpath
  obtain ⟨p, hp, hle⟩ := h.on_way hnone hn hcontains
  obtain ⟨⟨m, hm, hm'⟩, _⟩ := hdeepest hp
  have hle' := hall p m hm hm'
  rw [hp, hle.eq_of_length_le hle'.length_le]

/-- Looking up an offset is exact. Nothing is found exactly outside the span of the root, whose
first byte is in it and the one after its last is not. Else, where leaves are wanted, what is
found is the text that the offset is on, its end included, and if there is none the deepest
node with the offset in its span. Where no leaves are wanted, it is the same if that is an
element, and else its parent. Whatever is found is there, and an element at a path is the root
or the node at that path. -/
theorem nodeAt_exact {limits : Limits} {bs : List UInt8} {d : Document}
    (h : Document.parse limits bs = .ok d) (a : Nat) :
    (∀ toLeaf, d.nodeAt? a toLeaf = none ↔
      ¬ (d.root.span.start.offset ≤ a ∧ a < d.root.span.stop.offset)) ∧
    (∀ path, d.nodeAt? a true = some path ↔
      (∃ content, d.TextUnder a path content) ∨
        ((∀ q content, ¬ d.TextUnder a q content) ∧ d.Deepest a path)) ∧
    (∀ path, d.nodeAt? a true = some path →
      d.nodeAt? a false = if (d.element? path).isSome then some path else path.parent?) ∧
    (∀ toLeaf path, d.nodeAt? a toLeaf = some path → ∃ n, d.StandsAt path n) ∧
    ∀ path e, d.element? path = some e ↔
      (path = [] ∧ e = d.root) ∨ d.node? path = some e.toNode := by
  obtain ⟨_, hspelled, _⟩ := Document.parse_eq_ok_iff.mp h
  refine ⟨fun toLeaf => ?_, fun path => ⟨fun hat => ?_, ?_⟩, fun _ => nodeAt?_false,
    fun _ _ => exists_standsAt, fun _ _ => element?_eq_some_iff⟩
  · rw [nodeAt?_eq_none_iff, ← Bool.not_eq_true, Span.contains_iff]
  · by_cases htext : ∃ q content, d.TextUnder a q content
    · obtain ⟨q, content, hq⟩ := htext
      obtain rfl := Option.some.inj ((hq.nodeAt? hspelled).symm.trans hat)
      exact .inl ⟨content, hq⟩
    · have hnone : ∀ q content, ¬ d.TextUnder a q content :=
        fun q content hq => htext ⟨q, content, hq⟩
      exact .inr ⟨hnone, (hspelled.nodeAt?_eq_some_iff hnone).mp hat⟩
  · rintro (⟨content, hcontent⟩ | ⟨hnone, hdeepest⟩)
    · exact hcontent.nodeAt? hspelled
    · exact (hspelled.nodeAt?_eq_some_iff hnone).mpr hdeepest

/-- Where a text ends and a label starts, inside the label's tag, and at the end of all. -/
theorem nodeAt_exact_label :
    Document.parse {} (Text.bytes labelSource) = .ok labelDocument ∧
    labelDocument.nodeAt? 5 true = some [0] ∧ labelDocument.nodeAt? 5 false = some [] ∧
    labelDocument.nodeAt? 6 true = some [1] ∧ labelDocument.Deepest 6 [1] ∧
    labelDocument.nodeAt? 6 false = some [1] ∧
    ∀ toLeaf, labelDocument.nodeAt? 47 toLeaf = none := by
  have hread : Document.parse {} (Text.bytes labelSource) = .ok labelDocument := ofText_labelSource
  have htext : labelDocument.TextUnder 5 [0] "é" := ⟨_, rfl, by decide, by decide⟩
  obtain ⟨_, hleaf, helement, _, _⟩ := nodeAt_exact hread 5
  obtain ⟨_, hleaf', helement', _, _⟩ := nodeAt_exact hread 6
  have hend := (hleaf [0]).mpr (.inl ⟨"é", htext⟩)
  have htag : labelDocument.nodeAt? 6 true = some [1] := by decide
  refine ⟨hread, hend, (helement _ hend).trans (by decide), htag, ?_,
    (helement' _ htag).trans (by decide), fun toLeaf => ?_⟩
  · rcases (hleaf' [1]).mp htag with ⟨content, span, hnode, _⟩ | ⟨_, hdeepest⟩
    · cases hnode
    · exact hdeepest
  · exact ((nodeAt_exact hread 47).1 toLeaf).mpr (by decide)

end Document

end TextHoist
