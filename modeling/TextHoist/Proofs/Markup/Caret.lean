/-
  What is under a caret. The spans of the children of an element follow each other, so the
  way down passes over every child that ends before the caret, and goes through the elements
  that the caret is strictly inside of (`Element.SpelledBy.wayDown_inside`). A caret at the
  end of a text is still on it, but no text is next to another, so the text that a caret is
  on is the only one, and it is what is found (`Document.SpelledBy.nodeAt?_text`).

  Where an element starts, a text may end that stands right before it. So the node under a
  caret there is that text, if there is one, and else the element, if it has no children
  (`Document.SpelledBy.nodeAt?_start`).
-/
import TextHoist.Proofs.Markup.Replacement

namespace TextHoist

/-! ## Carets and spans -/

namespace Span

theorem contains_iff {span : Span} {a : Nat} :
    span.contains a = true ↔ span.start.offset ≤ a ∧ a < span.stop.offset := by
  simp [Span.contains]

theorem touches_iff {span : Span} {a : Nat} :
    span.touches a = true ↔ span.start.offset ≤ a ∧ a ≤ span.stop.offset := by
  simp [Span.touches]

end Span

namespace Node

theorem isUnder_of_stop_lt {n : Node} {a : Nat} (h : n.span.stop.offset < a) :
    n.isUnder a = false := by
  have hc : n.span.contains a = false := by simp [Span.contains]; omega
  have ht : n.span.touches a = false := by simp [Span.touches]; omega
  cases n with
  | element => exact hc
  | leaf kind => cases kind <;> assumption

/-- At the end of a node, the caret is on it if it is a text. -/
theorem isUnder_stop {n : Node} (h : n.span.start.offset ≤ n.span.stop.offset) :
    n.isUnder n.span.stop.offset = n.text?.isSome := by
  have hc : n.span.contains n.span.stop.offset = false := by simp [Span.contains]
  have ht : n.span.touches n.span.stop.offset = true := by simp [Span.touches, h]
  cases n with
  | element => exact hc
  | leaf kind => cases kind <;> assumption

/-- The caret is on a text from its start to its end, both included. -/
theorem isUnder_text_iff {n : Node} {a : Nat} (h : n.text?.isSome = true) :
    n.isUnder a = true ↔ n.span.start.offset ≤ a ∧ a ≤ n.span.stop.offset := by
  cases n with
  | element => cases h
  | leaf kind content span =>
    cases kind with
    | text => exact Span.touches_iff
    | _ => cases h

/-- The way down passes over children that are not under the caret. -/
theorem wayDownFrom_append {toLeaf : Bool} {a i : Nat} {ls rs : List Node}
    (h : ∀ n ∈ ls, n.isUnder a = false) :
    wayDownFrom toLeaf a i (ls ++ rs) = wayDownFrom toLeaf a (i + ls.length) rs := by
  induction ls generalizing i with
  | nil => rfl
  | cons n ls ih =>
    rw [List.cons_append, wayDownFrom, h n List.mem_cons_self, if_neg (by decide),
      ih fun m hm => h m (List.mem_cons_of_mem _ hm), List.length_cons, Nat.add_assoc,
      Nat.add_comm 1]

/-- The first step of the way down goes to a child under the caret, the rest goes on from
there. -/
theorem wayDownFrom_eq_cons {toLeaf : Bool} {a i j : Nat} {ns : List Node} {path : Path}
    (h : wayDownFrom toLeaf a i ns = j :: path) :
    ∃ k n, j = i + k ∧ ns[k]? = some n ∧ n.isUnder a = true ∧ path = n.wayDown toLeaf a := by
  induction ns generalizing i with
  | nil => cases h
  | cons n ns ih =>
    rw [wayDownFrom] at h
    split at h
    case isTrue hunder =>
      cases n with
      | element =>
        cases h
        exact ⟨0, _, rfl, rfl, hunder, rfl⟩
      | leaf =>
        cases toLeaf with
        | false => cases h
        | true =>
          cases h
          exact ⟨0, _, rfl, rfl, hunder, rfl⟩
    case isFalse =>
      obtain ⟨k, m, hj, hm, hunder, hpath⟩ := ih h
      exact ⟨k + 1, m, by omega, hm, hunder, hpath⟩

theorem element?_eq_none_of_text? {n : Node} (h : n.text?.isSome = true) : n.element? = none := by
  cases n with
  | element => cases h
  | leaf => rfl

end Node

/-- A node takes up at least one byte, and none before or behind the contents. -/
theorem Contents.span_le {zone : Zone} {p : Position} {bs : List UInt8} {ns : List Node}
    (h : Contents zone p bs ns) : ∀ n ∈ ns, p.offset ≤ n.span.start.offset ∧
      n.span.start.offset < n.span.stop.offset ∧ n.span.stop.offset ≤ (p.past bs).offset := by
  induction ns generalizing p bs with
  | nil => nofun
  | cons m ns ih =>
    obtain ⟨b, c, rfl, hm, _, hr⟩ := contents_cons_iff.mp h
    have hlt := Position.offset_lt_past (p := p) hm.ne_nil
    have hle : (p.past b).offset ≤ (p.past (b ++ c)).offset := by simp
    intro n hn
    rcases List.mem_cons.mp hn with rfl | hn
    · rw [hm.span_eq]
      exact ⟨Nat.le_refl _, hlt, hle⟩
    · have := ih hr n hn
      rw [← Position.past_append] at this
      exact ⟨by omega, this.2.1, this.2.2⟩

/-- The children before a child take up the bytes up to it. -/
theorem Element.SpelledBy.child_start {e : Element} {p : Position} {bs : List UInt8}
    {ls rs : List Node} {n : Node} (h : e.SpelledBy p bs) (he : e.children = ls ++ n :: rs) :
    ∃ q b, Contents .inside q b ls ∧ n.span.start = q.past b := by
  obtain ⟨tag, body, _, _, _, _, hb, _⟩ := h.tags (by simp [he])
  rw [he] at hb
  obtain ⟨b, c, rfl, hl, hr⟩ := hb.split
  obtain ⟨_, _, _, hn, _⟩ := contents_cons_iff.mp hr
  exact ⟨p.past tag, b, hl, by rw [hn.span_eq]⟩

/-- A child lies strictly inside its element: a tag stands before it and one behind it. -/
theorem Element.SpelledBy.child_inside {e : Element} {p : Position} {bs : List UInt8} {n : Node}
    (h : e.SpelledBy p bs) (hn : n ∈ e.children) :
    e.span.start.offset < n.span.start.offset ∧ n.span.start.offset < n.span.stop.offset ∧
      n.span.stop.offset < e.span.stop.offset := by
  have hspan := h.span_eq
  obtain ⟨_, ⟨_, hnil, _⟩ | ⟨_, tag, body, close, rfl, ht, hb, hc⟩⟩ := Element.spelledBy_iff.mp h
  · rw [hnil] at hn
    cases hn
  · obtain ⟨_, rfl⟩ := hc.eq_cons
    have hlength := List.length_pos_iff.mpr ht.ne_nil
    have hle := hb.span_le n hn
    rw [hspan]
    simp only [Position.past_offset, List.length_append, List.length_cons] at hle ⊢
    omega

theorem Element.SpelledBy.descendant_inside {e below : Element} {p : Position} {bs : List UInt8}
    {path : Path} (h : e.SpelledBy p bs) (hbelow : e.descendant? path = some below) :
    e.span.start.offset ≤ below.span.start.offset ∧
      below.span.stop.offset ≤ e.span.stop.offset := by
  have hspan := h.span_eq
  obtain ⟨pre, mid, post, rfl, _, _, hmid, _⟩ := h.refills hbelow
  rw [hspan, hmid.span_eq]
  simp only [Position.past_offset, List.length_append]
  omega

/-! ## The way down to an element -/

/-- At the end of some contents, only the last node can be under the caret. -/
theorem Contents.isUnder_past {zone : Zone} {p : Position} {bs : List UInt8} {ns : List Node}
    {n : Node} (h : Contents zone p bs (ns ++ [n])) :
    (∀ m ∈ ns, m.isUnder (p.past bs).offset = false) ∧
      n.isUnder (p.past bs).offset = n.text?.isSome := by
  obtain ⟨b, c, rfl, hb, hc⟩ := h.split
  rw [Position.past_append]
  have hlt := Position.offset_lt_past (p := p.past b) hc.ne_nil
  have hspan := hc.span_eq
  constructor
  · intro m hm
    have := (hb.span_le m hm).2.2
    exact Node.isUnder_of_stop_lt (by omega)
  · have hle : n.span.start.offset ≤ n.span.stop.offset := by rw [hspan]; exact Nat.le_of_lt hlt
    simpa [hspan] using Node.isUnder_stop hle

/-- Behind contents that do not end in a text, none of their nodes is under the caret. -/
theorem Contents.isUnder_behind {zone : Zone} {p : Position} {bs : List UInt8} {ns : List Node}
    {a : Nat} (h : Contents zone p bs ns) (hlast : ∀ n ∈ ns.getLast?, n.text? = none)
    (ha : (p.past bs).offset ≤ a) : ∀ n ∈ ns, n.isUnder a = false := by
  rcases Nat.lt_or_eq_of_le ha with hlt | rfl
  · intro n hn
    have := (h.span_le n hn).2.2
    exact Node.isUnder_of_stop_lt (by omega)
  · rcases List.eq_nil_or_concat ns with rfl | ⟨ns, n, rfl⟩
    · nofun
    · rw [List.concat_eq_append] at h hlast ⊢
      obtain ⟨hbefore, hn⟩ := h.isUnder_past
      rw [hlast n (by simp), Option.isSome_none] at hn
      intro m hm
      rcases List.mem_append.mp hm with hm | hm
      · exact hbefore m hm
      · rw [List.mem_singleton.mp hm]
        exact hn

variable {e parent new : Element} {p : Position} {bs : List UInt8} {ls rs : List Node} {n : Node}
  {a : Nat}

/-- If the first child under the caret is an element, the way down goes on from there. -/
theorem Element.wayDown_element {child : Element} (he : e.children = ls ++ child.toNode :: rs)
    (hls : ∀ m ∈ ls, m.isUnder a = false) (hchild : child.toNode.isUnder a = true)
    (toLeaf : Bool) :
    e.toNode.wayDown toLeaf a = ls.length :: child.toNode.wayDown toLeaf a := by
  show Node.wayDownFrom toLeaf a 0 e.children = _
  rw [he, Node.wayDownFrom_append hls, Node.wayDownFrom, hchild, Nat.zero_add]
  rfl

/-- If it is a leaf, the way ends there, or before it if no leaf is wanted. -/
theorem Element.wayDown_leaf (he : e.children = ls ++ n :: rs)
    (hls : ∀ m ∈ ls, m.isUnder a = false) (hn : n.isUnder a = true) (hleaf : n.element? = none)
    (toLeaf : Bool) : e.toNode.wayDown toLeaf a = if toLeaf then [ls.length] else [] := by
  show Node.wayDownFrom toLeaf a 0 e.children = _
  rw [he, Node.wayDownFrom_append hls, Node.wayDownFrom, hn, hleaf, Nat.zero_add]
  rfl

/-- A caret on a text child leads to that child. What stands right before the text may end
at the caret, but it is no text. -/
theorem Element.SpelledBy.wayDown_text (h : e.SpelledBy p bs) (he : e.children = ls ++ n :: rs)
    (hn : n.text?.isSome = true) (hle : n.span.start.offset ≤ a) (hle' : a ≤ n.span.stop.offset) :
    e.toNode.wayDown true a = [ls.length] := by
  obtain ⟨q, b, hl, hstart⟩ := h.child_start he
  have hlast : ∀ m ∈ ls.getLast?, m.text? = none := by
    intro m hm
    obtain ⟨ls', rfl⟩ := List.getLast?_eq_some_iff.mp hm
    obtain ⟨_, _, _, _, _, _, hb, _⟩ := h.tags (by simp [he])
    rw [he, List.append_assoc] at hb
    cases htext : m.text? with
    | none => rfl
    | some content =>
      rw [hb.text_next (by rw [htext]; rfl)] at hn
      cases hn
  rw [hstart] at hle
  have hbefore := hl.isUnder_behind hlast hle
  have hunder : n.isUnder a = true := (Node.isUnder_text_iff hn).mpr ⟨by rwa [hstart], hle'⟩
  rw [Element.wayDown_leaf he hbefore hunder (Node.element?_eq_none_of_text? hn)]
  rfl

/-- From an element without children the way goes no further. -/
theorem Element.wayDown_childless (hc : e.children = []) (toLeaf : Bool) (a : Nat) :
    e.toNode.wayDown toLeaf a = [] := by
  rw [Element.toNode, hc]
  rfl

/-- If there is no text before a child without children, a caret at its start is on it. -/
theorem Element.SpelledBy.wayDown_child (h : e.SpelledBy p bs)
    (he : e.children = ls ++ new.toNode :: rs) (hls : ∀ n ∈ ls.getLast?, n.text? = none)
    (hnew : new.children = []) : e.toNode.wayDown true new.span.start.offset = [ls.length] := by
  obtain ⟨q, b, hb, hstart⟩ := h.child_start he
  obtain ⟨_, hlt, _⟩ := h.child_inside (n := new.toNode) (by simp [he])
  have hstart : new.span.start = q.past b := hstart
  have hbefore := hb.isUnder_behind hls (Nat.le_of_eq (congrArg Position.offset hstart.symm))
  have hunder : new.toNode.isUnder new.span.start.offset = true := by
    show new.span.contains _ = true
    exact Span.contains_iff.mpr ⟨Nat.le_refl _, hlt⟩
  rw [Element.wayDown_element he hbefore hunder, Element.wayDown_childless hnew]

/-- A caret strictly inside an element leads down to it. The children on the way there start
before the caret, so their siblings in front of them end before it. -/
theorem Element.SpelledBy.wayDown_inside (h : e.SpelledBy p bs) {path : Path} {toLeaf : Bool}
    (hparent : e.descendant? path = some parent) (hlt : parent.span.start.offset < a)
    (hlt' : a < parent.span.stop.offset) :
    e.toNode.wayDown toLeaf a = path ++ parent.toNode.wayDown toLeaf a := by
  induction path generalizing e p bs with
  | nil =>
    cases hparent
    rfl
  | cons i path ih =>
    obtain ⟨ls', child, rs', rfl, hchildren, hbelow⟩ := Element.descendant?_cons_iff.mp hparent
    obtain ⟨q, b, hb, hstart⟩ := h.child_start hchildren
    obtain ⟨pre, mid, post, _, _, _, hchild, _⟩ := h.child hchildren
    obtain ⟨hle, hle'⟩ := hchild.descendant_inside hbelow
    have hstart : child.span.start = q.past b := hstart
    have hbefore : ∀ m ∈ ls', m.isUnder a = false := by
      intro m hm
      have := (hb.span_le m hm).2.2
      rw [← hstart] at this
      exact Node.isUnder_of_stop_lt (by omega)
    have hunder : child.toNode.isUnder a = true := by
      show child.span.contains a = true
      rw [Span.contains_iff]
      omega
    rw [Element.wayDown_element hchildren hbefore hunder, ih hchild hbelow]
    rfl

/-! ## The node under the caret -/

/-- The path of the sibling right before a node. -/
def Path.previous? (path : Path) : Option Path :=
  match path.getLast? with
  | some (i + 1) => some (Path.child path.dropLast i)
  | _ => none

theorem Path.previous?_child_zero (q : Path) : Path.previous? (Path.child q 0) = none := by
  simp [Path.previous?, Path.child]

theorem Path.previous?_child_succ (q : Path) (i : Nat) :
    Path.previous? (Path.child q (i + 1)) = some (Path.child q i) := by
  simp [Path.previous?, Path.child]

theorem Path.previous?_eq_some_iff {path q : Path} : Path.previous? path = some q ↔
    ∃ r i, path = Path.child r (i + 1) ∧ q = Path.child r i := by
  constructor
  · intro h
    rcases List.eq_nil_or_concat path with rfl | ⟨r, j, rfl⟩
    · cases h
    · rw [List.concat_eq_append] at h ⊢
      cases j with
      | zero => cases (Path.previous?_child_zero r).symm.trans h
      | succ i =>
        cases (Path.previous?_child_succ r i).symm.trans h
        exact ⟨r, i, rfl, rfl⟩
  · rintro ⟨r, i, rfl, rfl⟩
    exact Path.previous?_child_succ r i

/-- A caret strictly inside an element is on what is further down from there. -/
theorem Document.SpelledBy.nodeAt?_inside {d : Document} (h : d.SpelledBy bs) {q : Path}
    {toLeaf : Bool} (hparent : d.element? q = some parent) (hlt : parent.span.start.offset < a)
    (hlt' : a < parent.span.stop.offset) :
    d.nodeAt? a toLeaf = some (q ++ parent.toNode.wayDown toLeaf a) := by
  obtain ⟨before, root, after, _, _, hroot, _⟩ := h
  obtain ⟨hstart, hstop⟩ := hroot.descendant_inside hparent
  have hcontains : d.root.span.contains a = true := by
    rw [Span.contains_iff]
    omega
  rw [Document.nodeAt?, if_pos hcontains, hroot.wayDown_inside hparent hlt hlt']

/-- A caret strictly inside an element without children is on that element. -/
theorem Document.SpelledBy.nodeAt?_childless {d : Document} (h : d.SpelledBy bs) {path : Path}
    (hnew : d.element? path = some new) (hc : new.children = [])
    (hlt : new.span.start.offset < a) (hlt' : a < new.span.stop.offset) (toLeaf : Bool) :
    d.nodeAt? a toLeaf = some path := by
  rw [h.nodeAt?_inside hnew hlt hlt', Element.wayDown_childless hc, List.append_nil]

/-- A caret on a text is on nothing else. -/
theorem Document.SpelledBy.nodeAt?_text {d : Document} (h : d.SpelledBy bs) {path : Path}
    (hnode : d.node? path = some n) (hn : n.text?.isSome = true)
    (hle : n.span.start.offset ≤ a) (hle' : a ≤ n.span.stop.offset) :
    d.nodeAt? a true = some path := by
  obtain ⟨q, i, parent, rfl, hparent, hchild⟩ := Document.node?_eq_some_iff.mp hnode
  obtain ⟨ls, rs, rfl, he⟩ := Node.exists_split hchild
  obtain ⟨_, _, hspelled⟩ := h.element hparent
  obtain ⟨hlt, _, hlt'⟩ := hspelled.child_inside (n := n) (by simp [he])
  rw [h.nodeAt?_inside hparent (by omega) (by omega), hspelled.wayDown_text he hn hle hle']
  rfl

/-- The node at a path is a text of some content, and a caret at an offset is on it: between
its characters or at one of its ends. -/
def Document.TextUnder (d : Document) (a : Nat) (path : Path) (content : String) : Prop :=
  ∃ span, d.node? path = some (.leaf .text content span) ∧ span.start.offset ≤ a ∧
    a ≤ span.stop.offset

theorem Document.TextUnder.nodeAt? {d : Document} {path : Path} {content : String}
    (h : d.TextUnder a path content) (hd : d.SpelledBy bs) : d.nodeAt? a true = some path := by
  obtain ⟨span, hnode, hle, hle'⟩ := h
  exact hd.nodeAt?_text hnode rfl hle hle'

/-- The node that the way down leads to is under the caret. -/
theorem Element.isUnder_of_wayDown {toLeaf : Bool} {q : Path} {i : Nat}
    (hway : e.toNode.wayDown toLeaf a = Path.child q i) (hparent : e.descendant? q = some parent)
    (hn : parent.children[i]? = some n) : n.isUnder a = true := by
  induction q generalizing e with
  | nil =>
    cases hparent
    obtain ⟨k, m, rfl, hm, hunder, _⟩ := Node.wayDownFrom_eq_cons hway
    rw [Nat.zero_add, hm] at hn
    cases hn
    exact hunder
  | cons j q ih =>
    obtain ⟨k, m, rfl, hm, _, hrest⟩ := Node.wayDownFrom_eq_cons hway
    obtain ⟨ls, child, rs, hls, he, hbelow⟩ := Element.descendant?_cons_iff.mp hparent
    obtain rfl : m = child.toNode := by
      rw [he, ← Nat.zero_add k, ← hls, List.getElem?_append_right (Nat.le_refl _), Nat.sub_self]
        at hm
      exact (Option.some.inj hm).symm
    exact ih hrest.symm hbelow

theorem Document.isUnder_of_nodeAt? {d : Document} {toLeaf : Bool} {path : Path}
    (h : d.nodeAt? a toLeaf = some path) (hn : d.node? path = some n) : n.isUnder a = true := by
  unfold Document.nodeAt? at h
  split at h
  case isFalse => cases h
  case isTrue =>
    obtain ⟨q, i, parent, rfl, hparent, hchild⟩ := Document.node?_eq_some_iff.mp hn
    exact Element.isUnder_of_wayDown (Option.some.inj h) hparent hchild

/-- A caret where an element without children starts is on the text right before it, if
there is one, and else on the element. -/
theorem Document.SpelledBy.nodeAt?_start {d : Document} (h : d.SpelledBy bs) {path : Path}
    (hnew : d.element? path = some new) (hc : new.children = []) :
    (∃ q n, path.previous? = some q ∧ d.node? q = some n ∧ n.text?.isSome = true ∧
      d.nodeAt? new.span.start.offset true = some q) ∨
    ((∀ q ∈ path.previous?, ∀ n ∈ d.node? q, n.text? = none) ∧
      d.nodeAt? new.span.start.offset true = some path) := by
  rcases List.eq_nil_or_concat path with rfl | ⟨q, i, rfl⟩
  · -- the root has nothing before it
    refine .inr ⟨nofun, ?_⟩
    cases hnew
    obtain ⟨before, root, after, _, _, hroot, _⟩ := h
    have hlt := Position.offset_lt_past (p := Position.start.past before) hroot.ne_nil
    have hcontains : d.root.span.contains d.root.span.start.offset = true := by
      rw [Span.contains_iff, hroot.span_eq]
      exact ⟨Nat.le_refl _, hlt⟩
    rw [Document.nodeAt?, if_pos hcontains, Element.wayDown_childless hc]
  · rw [List.concat_eq_append] at hnew ⊢
    obtain ⟨parent, ls, rs, hparent, rfl, he⟩ := Document.element?_child_iff.mp hnew
    obtain ⟨_, _, hspelled⟩ := h.element hparent
    obtain ⟨hlt, hlt', hlt''⟩ := hspelled.child_inside (n := new.toNode) (by simp [he])
    have hat : d.nodeAt? new.span.start.offset true =
        some (q ++ parent.toNode.wayDown true new.span.start.offset) :=
      h.nodeAt?_inside hparent hlt (Nat.lt_trans hlt' hlt'')
    rw [hat]
    rcases List.eq_nil_or_concat ls with rfl | ⟨ls, n, rfl⟩
    · refine .inr ⟨?_, by rw [hspelled.wayDown_child he nofun hc]⟩
      intro q' hq'
      cases (Path.previous?_child_zero q).symm.trans hq'
    · rw [List.concat_eq_append, List.length_append]
      rw [List.concat_eq_append] at he
      have hprevious := Path.previous?_child_succ q ls.length
      have hnode : d.node? (Path.child q ls.length) = some n := by
        rw [Document.node?_child, hparent, Option.bind_some, he, List.append_assoc,
          List.getElem?_append_right (Nat.le_refl _), Nat.sub_self]
        rfl
      cases hn : n.text? with
      | some content =>
        have hn : n.text?.isSome = true := by rw [hn]; rfl
        have he' : parent.children = ls ++ n :: new.toNode :: rs := by simp [he]
        obtain ⟨_, _, _, _, _, _, hb, _⟩ := hspelled.tags (by simp [he'])
        rw [he'] at hb
        have hstart : new.span.start = n.span.stop := hb.start_eq_stop
        have hle := (hb.span_le n (by simp)).2.1
        rw [← hat, hstart]
        exact .inl ⟨_, n, hprevious, hnode, hn, h.nodeAt?_text hnode hn (by omega) (Nat.le_refl _)⟩
      | none =>
        refine .inr ⟨?_, ?_⟩
        · intro q' hq' n' hn'
          cases hprevious.symm.trans hq'
          cases hnode.symm.trans hn'
          exact hn
        · rw [hspelled.wayDown_child he (by simpa using hn) hc, List.length_append]

end TextHoist
