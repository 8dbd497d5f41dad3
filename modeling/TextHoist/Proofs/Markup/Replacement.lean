/-
  Replacing one element of a tree, and the bytes of it. `Element.replace` puts an element
  at a path. In the bytes that spell a tree, the element at a path has bytes of its own,
  which are whole characters, and if other bytes there spell another element, then the
  whole spells the tree with that element replaced (`Element.SpelledBy.refills`, and
  `Document.SpelledBy.refills` from the start of a document).

  The spans of the nodes around and behind the replaced element shift; those of the nodes
  that end before it do not. `SameUntil a` is agreement in everything but the spans that
  reach beyond the offset `a`.
-/
import TextHoist.Proofs.Markup.Acceptance

namespace TextHoist

/-! ## Replacement in trees -/

/-- The same children with the `i`th, if it is an element, changed. -/
def Node.modifyElement (ns : List Node) (i : Nat) (f : Element → Element) : List Node :=
  ns.modify i fun n =>
    match n.element? with
    | some e => (f e).toNode
    | none => n

/-- The element with the one at a path replaced. -/
def Element.replace (e : Element) : Path → Element → Element
  | [], new => new
  | i :: path, new =>
    { e with children := Node.modifyElement e.children i fun below => below.replace path new }

def Document.replace (d : Document) (path : Path) (new : Element) : Document :=
  { d with root := d.root.replace path new }

/-- Nodes taken apart at an index. -/
theorem Node.exists_split {ns : List Node} {i : Nat} {n : Node} (h : ns[i]? = some n) :
    ∃ ls rs, ls.length = i ∧ ns = ls ++ n :: rs := by
  obtain ⟨hi, rfl⟩ := List.getElem?_eq_some_iff.mp h
  refine ⟨ns.take i, ns.drop (i + 1), List.length_take_of_le (Nat.le_of_lt hi), ?_⟩
  rw [List.getElem_cons_drop, List.take_append_drop]

theorem Node.modifyElement_append (ls rs : List Node) (e : Element) (f : Element → Element) :
    Node.modifyElement (ls ++ e.toNode :: rs) ls.length f = ls ++ (f e).toNode :: rs := by
  unfold Node.modifyElement
  rw [List.modify_eq_take_cons_drop (by simp)]
  simp

/-- The way to a place below an element, one step at a time. -/
theorem Element.descendant?_cons_iff {e below : Element} {i : Nat} {path : Path} :
    e.descendant? (i :: path) = some below ↔
      ∃ (ls : List Node) (child : Element) (rs : List Node), ls.length = i ∧
        e.children = ls ++ child.toNode :: rs ∧ child.descendant? path = some below := by
  constructor
  · intro h
    obtain ⟨n, hn, h⟩ := Option.bind_eq_some_iff.mp h
    obtain ⟨child, hchild, h⟩ := Option.bind_eq_some_iff.mp h
    obtain ⟨ls, rs, hl, he⟩ := Node.exists_split hn
    rw [← Element.toNode_eq_of_element? hchild] at he
    exact ⟨ls, child, rs, hl, he, h⟩
  · rintro ⟨ls, child, rs, rfl, he, h⟩
    simp [descendant?, he, h]

theorem Element.descendant?_append (e : Element) (q r : Path) :
    e.descendant? (q ++ r) = (e.descendant? q).bind (·.descendant? r) := by
  induction q generalizing e with
  | nil => rfl
  | cons i q ih => simp [descendant?, ih, Option.bind_assoc]

theorem Document.node?_child (d : Document) (q : Path) (i : Nat) :
    d.node? (Path.child q i) = (d.element? q).bind (·.children[i]?) := by
  simp [Document.node?, Path.child]

theorem Document.node?_eq_some_iff {d : Document} {path : Path} {n : Node} :
    d.node? path = some n ↔ ∃ (q : Path) (i : Nat) (parent : Element), path = Path.child q i ∧
      d.element? q = some parent ∧ parent.children[i]? = some n := by
  constructor
  · intro h
    rcases List.eq_nil_or_concat path with rfl | ⟨q, i, rfl⟩
    · cases h
    · rw [List.concat_eq_append] at h ⊢
      obtain ⟨parent, hparent, hn⟩ :=
        Option.bind_eq_some_iff.mp ((Document.node?_child d q i).symm.trans h)
      exact ⟨q, i, parent, rfl, hparent, hn⟩
  · intro h
    obtain ⟨q, i, parent, rfl, hparent, hn⟩ := h
    rw [Document.node?_child, hparent, Option.bind_some, hn]

theorem Document.element?_child_iff {d : Document} {q : Path} {i : Nat} {e : Element} :
    d.element? (Path.child q i) = some e ↔ ∃ (parent : Element) (ls rs : List Node),
      d.element? q = some parent ∧ ls.length = i ∧ parent.children = ls ++ e.toNode :: rs := by
  unfold Document.element? Path.child
  rw [Element.descendant?_append, Option.bind_eq_some_iff]
  constructor
  · rintro ⟨parent, hparent, h⟩
    obtain ⟨ls, child, rs, hls, hchildren, hchild⟩ := Element.descendant?_cons_iff.mp h
    cases hchild
    exact ⟨parent, ls, rs, hparent, hls, hchildren⟩
  · rintro ⟨parent, ls, rs, hparent, hls, hchildren⟩
    exact ⟨parent, hparent, Element.descendant?_cons_iff.mpr ⟨ls, e, rs, hls, hchildren, rfl⟩⟩

theorem Element.replace_cons {e child new : Element} {ls rs : List Node} {path : Path}
    (h : e.children = ls ++ child.toNode :: rs) :
    e.replace (ls.length :: path) new =
      { e with children := ls ++ (child.replace path new).toNode :: rs } := by
  rw [replace, h, Node.modifyElement_append]

/-- On the way to a replaced element, elements have it replaced. -/
theorem Element.descendant?_replace_append (e : Element) (q r : Path) (new : Element) :
    (e.replace (q ++ r) new).descendant? q = (e.descendant? q).map (·.replace r new) := by
  induction q generalizing e with
  | nil => rfl
  | cons i q ih =>
    simp only [List.cons_append, replace, descendant?, Node.modifyElement, List.getElem?_modify]
    cases e.children[i]? with
    | none => rfl
    | some n =>
      cases hn : n.element? with
      | none => simp [hn]
      | some child => simp [hn, ih]

/-- A replaced element keeps the limits if the new one does wherever the old one did. -/
theorem Element.within_replace {limits : Limits} {e old new : Element} {path : Path} {depth : Nat}
    (h : e.toNode.Within limits depth) (hold : e.descendant? path = some old)
    (hnew : ∀ k, old.toNode.Within limits k → new.toNode.Within limits k) :
    (e.replace path new).toNode.Within limits depth := by
  induction path generalizing e depth with
  | nil =>
    cases hold
    exact hnew depth h
  | cons i path ih =>
    obtain ⟨ls, child, rs, rfl, he, hchild⟩ := Element.descendant?_cons_iff.mp hold
    rw [Element.replace_cons he]
    obtain ⟨hattributes, hdepth, hchildren⟩ := h
    refine ⟨hattributes, hdepth, ?_⟩
    rw [he, Node.withinAll_iff] at hchildren
    rw [Node.withinAll_iff]
    intro n hn
    rw [List.mem_append, List.mem_cons] at hn
    rcases hn with hn | rfl | hn
    · exact hchildren n (by simp [hn])
    · exact ih (hchildren _ (by simp)) hchild
    · exact hchildren n (by simp [hn])

/-! ## Agreement up to an offset -/

/-- The same trees, but for spans that reach beyond an offset. -/
def Element.SameUntil (a : Nat) (e e' : Element) : Prop :=
  e.mapSpans (Span.keepUntil a) = e'.mapSpans (Span.keepUntil a)

@[inherit_doc Element.SameUntil]
def Document.SameUntil (a : Nat) (d d' : Document) : Prop :=
  d.mapSpans (Span.keepUntil a) = d'.mapSpans (Span.keepUntil a)

theorem Element.SameUntil.within_iff {a : Nat} {e e' : Element} (h : e.SameUntil a e')
    {limits : Limits} {depth : Nat} :
    e.toNode.Within limits depth ↔ e'.toNode.Within limits depth := by
  rw [← Node.within_mapSpans (Span.keepUntil a) e.toNode, ← Element.toNode_mapSpans, h,
    Element.toNode_mapSpans, Node.within_mapSpans]

/-- The spans of all nodes behind two positions reach beyond any offset before them. -/
theorem Contents.keepUntil_eq {zone : Zone} {p q : Position} {bs cs : List UInt8}
    {ns ms : List Node} (h : Contents zone p bs ns) (h' : Contents zone q cs ms)
    (he : Node.eraseAll ms = Node.eraseAll ns) {a : Nat} (hp : a ≤ p.offset) (hq : a ≤ q.offset) :
    Node.mapSpansAll (Span.keepUntil a) ms = Node.mapSpansAll (Span.keepUntil a) ns := by
  rw [h.keepUntil_eq_erase hp, h'.keepUntil_eq_erase hq, he]

/-! ## Replacement in bytes -/

/-- Between `pre` and `post`, bytes that spell an element put it at the path, wherever the
whole stands. In its old place the rest of the tree stays. -/
def Element.Refills (e : Element) (path : Path) (p : Position) (pre post : List UInt8) : Prop :=
  ∀ (q : Position) (new : Element) (mid : List UInt8), new.SpelledBy (q.past pre) mid →
    ∃ e' : Element, e'.SpelledBy q (pre ++ mid ++ post) ∧ e'.descendant? path = some new ∧
      (q = p → e'.SameUntil (p.past pre).offset (e.replace path new))

/-- Between `pre` and `post`, bytes that spell an element put it at the path, and the rest
of the document stays. -/
def Document.Refills (d : Document) (path : Path) (pre post : List UInt8) : Prop :=
  ∀ (new : Element) (mid : List UInt8), new.SpelledBy (Position.start.past pre) mid →
    ∃ d' : Document, d'.SpelledBy (pre ++ mid ++ post) ∧ d'.element? path = some new ∧
      d'.SameUntil (Position.start.past pre).offset (d.replace path new)

/-- A span that covers some bytes behind an offset is not kept. -/
theorem Span.keepUntil_past {p : Position} {pre mid post : List UInt8} (h : mid ≠ []) :
    Span.keepUntil (p.past pre).offset ⟨p, p.past (pre ++ mid ++ post)⟩ = .nowhere := by
  have := List.length_pos_iff.mpr h
  rw [Span.keepUntil, if_neg]
  simp only [Position.past_offset, List.length_append]
  omega

/-- The step down to a child: its bytes, and that they may be others. -/
theorem Element.SpelledBy.child {e child : Element} {p : Position} {bs : List UInt8}
    {ls rs : List Node} (h : e.SpelledBy p bs) (he : e.children = ls ++ child.toNode :: rs) :
    ∃ pre mid post, bs = pre ++ mid ++ post ∧ Text.IsText pre ∧ Text.IsText post ∧
      child.SpelledBy (p.past pre) mid ∧
      ∀ (q : Position) (new : Element) (mid' : List UInt8), new.SpelledBy (q.past pre) mid' →
        ∃ ls' rs', ls'.length = ls.length ∧
          ({ e with children := ls' ++ new.toNode :: rs',
                    span := ⟨q, q.past (pre ++ mid' ++ post)⟩ } : Element).SpelledBy q
            (pre ++ mid' ++ post) ∧
          (q = p → ls' = ls ∧
            ∀ a, a ≤ (p.past (pre ++ mid)).offset → a ≤ (p.past (pre ++ mid')).offset →
              Node.mapSpansAll (Span.keepUntil a) rs' =
                Node.mapSpansAll (Span.keepUntil a) rs) := by
  obtain ⟨tag, body, close, rfl, ht, hc, hb, htags⟩ := h.tags (by simp [he])
  rw [he] at hb
  obtain ⟨bl, mid, br, rfl, hl, hmid, hr⟩ := contents_element_iff.mp hb
  rw [← Position.past_append] at hmid hr
  refine ⟨tag ++ bl, mid, br ++ close, by simp, ht.append hl.isText, hr.isText.append hc, hmid, ?_⟩
  intro q new mid' hnew
  obtain ⟨ls', hl', hlength, hstay⟩ := hl.relocated (q.past tag)
  obtain ⟨rs', hr', herase⟩ := hr.relocate (q.past (tag ++ (bl ++ mid')))
  refine ⟨ls', rs', hlength, ?_, ?_⟩
  · rw [Position.past_append] at hnew hr'
    have hspelled := htags q _ _ (contents_element_iff.mpr ⟨bl, mid', br, rfl, hl', hnew, hr'⟩)
    have hbytes : tag ++ (bl ++ mid' ++ br) ++ close = tag ++ bl ++ mid' ++ (br ++ close) := by simp
    rwa [hbytes] at hspelled
  · intro hq
    subst hq
    refine ⟨hstay rfl, fun a ha ha' => hr.keepUntil_eq hr' herase ?_ ?_⟩
    · rwa [List.append_assoc] at ha
    · rwa [List.append_assoc] at ha'

/-- The element at a path has its own bytes, and they may be others. -/
theorem Element.SpelledBy.refills {e old : Element} {p : Position} {bs : List UInt8}
    {path : Path} (h : e.SpelledBy p bs) (hold : e.descendant? path = some old) :
    ∃ pre mid post, bs = pre ++ mid ++ post ∧ Text.IsText pre ∧ Text.IsText post ∧
      old.SpelledBy (p.past pre) mid ∧ e.Refills path p pre post := by
  induction path generalizing e p bs with
  | nil =>
    cases hold
    refine ⟨[], bs, [], by simp, Text.isText_nil, Text.isText_nil, h, ?_⟩
    intro q new mid hnew
    exact ⟨new, by simpa using hnew, rfl, fun _ => rfl⟩
  | cons i path ih =>
    obtain ⟨ls, child, rs, rfl, he, hchild⟩ := Element.descendant?_cons_iff.mp hold
    obtain ⟨pre, mid, post, rfl, hpre, hpost, hmid, hfill⟩ := h.child he
    obtain ⟨pre', mid, post', rfl, hpre', hpost', hmid', hfill'⟩ := ih hmid hchild
    refine ⟨pre ++ pre', mid, post' ++ post, by simp, hpre.append hpre', hpost'.append hpost,
      by rwa [Position.past_append], ?_⟩
    intro q new mid' hnew
    rw [Position.past_append] at hnew
    obtain ⟨child', hspelled, hat, hsame⟩ := hfill' (q.past pre) new mid' hnew
    obtain ⟨ls', rs', hlength, hspelled', hrest⟩ := hfill q child' _ hspelled
    have hbytes : pre ++ (pre' ++ mid' ++ post') ++ post = pre ++ pre' ++ mid' ++ (post' ++ post) :=
      by simp
    rw [hbytes] at hspelled'
    refine ⟨_, hspelled',
      Element.descendant?_cons_iff.mpr ⟨ls', child', rs', hlength, rfl, hat⟩, ?_⟩
    intro hq
    subst hq
    obtain ⟨hls, hbehind⟩ := hrest rfl
    subst hls
    rw [Element.replace_cons he]
    have hbytes' : pre ++ (pre' ++ mid ++ post') ++ post = pre ++ pre' ++ mid ++ (post' ++ post) :=
      by simp
    have hspan : e.span = ⟨q, q.past (pre ++ pre' ++ mid ++ (post' ++ post))⟩ := by
      rw [← hbytes']
      exact h.span_eq
    have hsame := hsame rfl
    rw [← Position.past_append] at hsame
    have hbehind := hbehind (q.past (pre ++ pre')).offset
      (by simp only [Position.past_offset, List.length_append]; omega)
      (by simp only [Position.past_offset, List.length_append]; omega)
    have hchild := congrArg Element.toNode hsame
    rw [Element.toNode_mapSpans, Element.toNode_mapSpans] at hchild
    simp only [Element.SameUntil, Element.mapSpans, hspan, Span.keepUntil_past hmid'.ne_nil,
      Span.keepUntil_past hnew.ne_nil, Node.mapSpansAll_append, Node.mapSpansAll, hchild, hbehind]

/-- The element at a path of a document has its own bytes, and they may be others. -/
theorem Document.SpelledBy.refills {d : Document} {old : Element} {bs : List UInt8} {path : Path}
    (h : d.SpelledBy bs) (hold : d.element? path = some old) :
    ∃ pre mid post, bs = pre ++ mid ++ post ∧ Text.IsText pre ∧ Text.IsText post ∧
      old.SpelledBy (Position.start.past pre) mid ∧ d.Refills path pre post := by
  obtain ⟨before, root, after, rfl, hbefore, hroot, hafter⟩ := h
  obtain ⟨pre, mid, post, rfl, hpre, hpost, hmid, hfill⟩ := hroot.refills hold
  refine ⟨before ++ pre, mid, post ++ after, by simp, hbefore.isText.append hpre,
    hpost.append hafter.isText, by rwa [Position.past_append], ?_⟩
  intro new mid' hnew
  rw [Position.past_append] at hnew
  obtain ⟨root', hroot', hat, hsame⟩ := hfill _ new mid' hnew
  have hsame := hsame rfl
  obtain ⟨trailing, hafter', herase⟩ :=
    hafter.relocate (Position.start.past (before ++ (pre ++ mid' ++ post)))
  refine ⟨⟨d.leading, root', trailing⟩,
    ⟨before, _, after, by simp, hbefore, hroot', hafter'⟩, hat, ?_⟩
  rw [← Position.past_append] at hsame
  have htrailing := hafter.keepUntil_eq hafter' herase
    (a := (Position.start.past (before ++ pre)).offset)
    (by simp only [Position.past_offset, List.length_append]; omega)
    (by simp only [Position.past_offset, List.length_append]; omega)
  unfold Element.SameUntil at hsame
  unfold Document.SameUntil
  simp only [Document.mapSpans, Document.replace, hsame, htrailing]

/-- Every element of a document is spelled somewhere by bytes of its own. -/
theorem Document.SpelledBy.element {d : Document} {e : Element} {bs : List UInt8} {path : Path}
    (h : d.SpelledBy bs) (he : d.element? path = some e) : ∃ p mid, e.SpelledBy p mid := by
  obtain ⟨pre, mid, _, _, _, _, hmid, _⟩ := h.refills he
  exact ⟨Position.start.past pre, mid, hmid⟩

end TextHoist
