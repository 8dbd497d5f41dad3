/-
  The reader accepts the documents of the grammar that keep its limits, and nothing else:
  `Document.parse_eq_ok_iff`. `Node.Within` says on the tree what the limits ask: not too
  many paired elements around a node and, unless that is allowed, no attribute twice in a
  tag.

  One direction runs the reader along a derivation: contents are read into the innermost
  open element, by induction on the derivation (`complete_contents`). The other reads a
  derivation off a run. `Awaits` says what a draft still needs of the bytes to come, and
  each turn takes that back from the draft behind it to the draft before it
  (`Awaits.of_turn`), starting from the end of the run.
-/
import TextHoist.Proofs.Markup.Contents
import TextHoist.Proofs.Markup.Turns

namespace TextHoist

/-! ## Limits on trees -/

namespace Node

mutual

/-- A node below `depth` open elements that keeps the limits. -/
def Within (limits : Limits) (depth : Nat) : Node → Prop
  | element _ attributes children form _ =>
    limits.Admits attributes ∧ (form = .paired → depth + 1 ≤ limits.maxDepth) ∧
      WithinAll limits (depth + 1) children
  | leaf .. => True

def WithinAll (limits : Limits) (depth : Nat) : List Node → Prop
  | [] => True
  | n :: ns => n.Within limits depth ∧ WithinAll limits depth ns

end

theorem withinAll_iff {limits : Limits} {depth : Nat} {ns : List Node} :
    WithinAll limits depth ns ↔ ∀ n ∈ ns, n.Within limits depth := by
  induction ns with
  | nil => simp [WithinAll]
  | cons n ns ih => simp [WithinAll, ih]

mutual

/-- Whether the limits are kept does not depend on spans. -/
theorem within_mapSpans {limits : Limits} {depth : Nat} (f : Span → Span) :
    ∀ n : Node, (n.mapSpans f).Within limits depth ↔ n.Within limits depth
  | element _ _ children _ _ => by
    simp only [mapSpans, Within, withinAll_mapSpansAll f children]
  | leaf .. => Iff.rfl

theorem withinAll_mapSpansAll {limits : Limits} {depth : Nat} (f : Span → Span) :
    ∀ ns : List Node, WithinAll limits depth (mapSpansAll f ns) ↔ WithinAll limits depth ns
  | [] => Iff.rfl
  | n :: ns => by
    simp only [mapSpansAll, WithinAll, within_mapSpans f n, withinAll_mapSpansAll f ns]

end

end Node

theorem OpenElement.push_push (o : OpenElement) (n : Node) (ns : List Node) :
    (⟨o.tag, ns.reverse ++ (o.push n).children⟩ : OpenElement) =
      ⟨o.tag, (n :: ns).reverse ++ o.children⟩ := by
  simp [OpenElement.push]

/-! ## What is spelled is read -/

namespace Draft

variable {limits : Limits} {c c' : Cursor}

theorem passesLeaf_of_spelled {zone : Zone} {kind : LeafKind} {bs : List UInt8}
    {content : String} (hl : LeafSpelled zone kind bs content) (hp : c.Passes bs c')
    (hh : kind = .text → Halts zone.isTextByte c'.rest) :
    c.PassesLeaf zone (.leaf kind content ⟨c.position, c.position.past bs⟩) c' :=
  ⟨kind, bs, content, hl, hp, hh, by rw [hp.position]⟩

theorem halts_of_closingTag {name : String} {bs : List UInt8} (h : ClosingTag name bs)
    (hp : c.Passes bs c') : Halts Zone.inside.isTextByte c.rest := by
  obtain ⟨cs, rfl⟩ := h.eq_cons
  rw [hp.1]
  exact Zone.halts_cons _ _

/-- An element of two tags is read once its body is. -/
theorem complete_pair {c₁ c₂ : Cursor} {leading : List Node} (stack : List OpenElement)
    {name : String} {as : List Attribute} {children : List Node} {tag close : List UInt8}
    (ht : OpeningTag name as .paired tag) (hadm : limits.Admits as)
    (hdepth : stack.length + 1 ≤ limits.maxDepth) (hp : c.Passes tag c₁)
    (hbody : ∀ o : OpenElement, complete limits (building leading (o :: stack)) c₁ =
      complete limits (building leading (⟨o.tag, children.reverse ++ o.children⟩ :: stack)) c₂)
    (hc : ClosingTag name close) (hp' : c₂.Passes close c') :
    complete limits (building leading stack) c =
      complete limits
        (place leading stack ⟨name, as, children, .paired, ⟨c.position, c'.position⟩⟩) c' := by
  rw [complete_of_turn (.opening ht hadm hdepth hp), hbody, complete_of_turn (.closing hc hp')]
  simp [OpenElement.close]

/-- Contents are read into the innermost open element. -/
theorem complete_contents {p : Position} {bs : List UInt8} {ns : List Node}
    (h : Contents .inside p bs ns) {leading : List Node} {o : OpenElement}
    {outer : List OpenElement} (hpos : c.position = p) (hp : c.Passes bs c')
    (hh : Halts Zone.inside.isTextByte c'.rest)
    (hw : Node.WithinAll limits (outer.length + 1) ns) :
    complete limits (building leading (o :: outer)) c =
      complete limits (building leading (⟨o.tag, ns.reverse ++ o.children⟩ :: outer)) c' := by
  induction h generalizing c c' o outer with
  | nil => rw [Cursor.passes_nil_iff.mp hp]; rfl
  | leaf hl hk _ ih =>
    subst hpos
    obtain ⟨c₁, hp₁, hp₂⟩ := hp.split
    have hleaf := passesLeaf_of_spelled hl hp₁ fun ht => by
      rw [hp₂.1]
      exact (hk ht).append hh
    rw [complete_of_turn (.inner hleaf), ih hp₁.position hp₂ hh hw.2, ← OpenElement.push_push]
    rfl
  | single _ ht _ ih =>
    subst hpos
    obtain ⟨c₁, hp₁, hp₂⟩ := hp.split
    rw [complete_of_turn (.single ht hw.1.1 hp₁)]
    show complete limits (building leading (o.push _ :: outer)) c₁ = _
    rw [ih hp₁.position hp₂ hh hw.2, ← OpenElement.push_push, hp₁.position]
    rfl
  | pair _ ht _ hc _ ihbody ih =>
    subst hpos
    obtain ⟨c₃, hp₃, hp₄⟩ := hp.split
    obtain ⟨c₂, hp₂, hclose⟩ := hp₃.split
    obtain ⟨c₁, hp₁, hbody⟩ := hp₂.split
    obtain ⟨⟨hadm, hdepth, hchildren⟩, hns⟩ := hw
    have hh₂ := halts_of_closingTag hc hclose
    have hrun : ∀ o' : OpenElement, complete limits (building leading (o' :: o :: outer)) c₁ = _ :=
      fun _ => ihbody hp₁.position hbody hh₂ hchildren
    rw [complete_pair (o :: outer) ht hadm (hdepth rfl) hp₁ hrun hc hclose]
    show complete limits (building leading (o.push _ :: outer)) c₃ = _
    rw [ih hp₃.position hp₄ hh hns, ← OpenElement.push_push, hp₃.position]
    rfl

/-- Leaves outside the root element are read into any draft that takes them in. -/
theorem complete_margin {p : Position} {bs : List UInt8} {ns : List Node}
    (h : Contents .outside p bs ns) (grow : List Node → Draft)
    (hgrow : ∀ {c c' : Cursor} {n : Node} {acc : List Node}, c.PassesLeaf .outside n c' →
      Turn limits c c' (grow acc) (grow (n :: acc)))
    (acc : List Node) (hpos : c.position = p) (hp : c.Passes bs c')
    (hh : Halts Zone.outside.isTextByte c'.rest) :
    complete limits (grow acc) c = complete limits (grow (ns.reverse ++ acc)) c' := by
  induction h generalizing c c' acc with
  | nil => rw [Cursor.passes_nil_iff.mp hp]; rfl
  | leaf hl hk _ ih =>
    subst hpos
    obtain ⟨c₁, hp₁, hp₂⟩ := hp.split
    have hleaf := passesLeaf_of_spelled hl hp₁ fun ht => by
      rw [hp₂.1]
      exact (hk ht).append hh
    rw [complete_of_turn (hgrow hleaf), ih _ hp₁.position hp₂ hh]
    simp
  | single hz => cases hz
  | pair hz => cases hz

/-- An element is read where no element is open, and then the root has been read. -/
theorem complete_root {e : Element} {bs : List UInt8} (h : e.SpelledBy c.position bs)
    {leading : List Node} (hp : c.Passes bs c') (hw : e.toNode.Within limits 0) :
    complete limits (building leading []) c =
      complete limits (ending leading.reverse e []) c' := by
  obtain ⟨name, as, children, form, span⟩ := e
  obtain ⟨hspan, hforms⟩ := Element.spelledBy_iff.mp h
  simp only at hspan hforms
  rw [hspan, ← hp.position]
  obtain ⟨hadm, hdepth, hchildren⟩ := hw
  rcases hforms with ⟨rfl, rfl, ht⟩ | ⟨rfl, tag, body, close, rfl, ht, hb, hc⟩
  · rw [complete_of_turn (.single ht hadm hp)]
    rfl
  · obtain ⟨c₂, hp₂, hclose⟩ := hp.split
    obtain ⟨c₁, hp₁, hbody⟩ := hp₂.split
    have hh₂ := halts_of_closingTag hc hclose
    have hrun : ∀ o : OpenElement, complete limits (building leading [o]) c₁ = _ :=
      fun _ => complete_contents hb hp₁.position hbody hh₂ hchildren
    rw [complete_pair [] ht hadm (hdepth rfl) hp₁ hrun hc hclose]
    rfl

theorem complete_of_spelledBy {d : Document} {bs : List UInt8} (h : d.SpelledBy bs)
    (hw : d.root.toNode.Within limits 0) :
    complete limits (building [] []) (.ofBytes bs) = .ok d := by
  obtain ⟨before, root, after, rfl, hleading, hroot, htrailing⟩ := h
  have hrest : (Cursor.ofBytes (before ++ root ++ after)).rest = before ++ root ++ after ++ [] := by
    rw [List.append_nil]
    rfl
  obtain ⟨hp, hend⟩ := Cursor.passes_advance hrest
  obtain ⟨c₂, hp₂, hafter⟩ := hp.split
  obtain ⟨c₁, hbefore, hbody⟩ := hp₂.split
  have hpos₁ : c₁.position = Position.start.past before := hbefore.position
  have hpos₂ : c₂.position = Position.start.past (before ++ root) := hp₂.position
  rw [← hpos₁] at hroot
  have hh₁ : Halts Zone.outside.isTextByte c₁.rest := by
    obtain ⟨b, cs, rfl, _⟩ := hroot.eq_cons
    rw [hbody.1]
    exact Zone.halts_cons _ _
  have hh₃ : Halts Zone.outside.isTextByte
      ((Cursor.ofBytes (before ++ root ++ after)).advance (before ++ root ++ after).length).rest := by
    rw [hend]
    exact halts_nil _
  calc complete limits (building [] []) (.ofBytes (before ++ root ++ after))
      = complete limits (building (d.leading.reverse ++ []) []) c₁ :=
        complete_margin hleading (building · []) .leading [] rfl hbefore hh₁
    _ = complete limits (ending d.leading d.root []) c₂ := by
        rw [complete_root hroot hbody hw, List.append_nil, List.reverse_reverse]
    _ = complete limits (ending d.leading d.root (d.trailing.reverse ++ [])) _ :=
        complete_margin htrailing (ending d.leading d.root) .trailing [] hpos₂ hafter hh₃
    _ = .ok d := by
        rw [List.append_nil]
        exact complete_of_done (step_eq_done_iff.mpr ⟨hend, rfl⟩)

end Draft

/-! ## What is read is spelled -/

/-- The bytes bring an open element to its end as `e`, with `depth` elements open. -/
def OpenElement.ClosedBy (limits : Limits) (depth : Nat) (o : OpenElement) (p : Position)
    (bs : List UInt8) (e : Element) : Prop :=
  ∃ body close ns, bs = body ++ close ∧ Contents .inside p body ns ∧
    Node.WithinAll limits depth ns ∧ ClosingTag o.tag.name close ∧
    e = ⟨o.tag.name, o.tag.attributes, o.children.reverse ++ ns, .paired,
      ⟨o.tag.span.start, p.past bs⟩⟩

/-- The bytes, standing at a position, are what a draft needs to become the document. -/
inductive Awaits (limits : Limits) (d : Document) : Draft → Position → List UInt8 → Prop
  | trailing {trailing ns : List Node} {p : Position} {bs : List UInt8} :
      Contents .outside p bs ns → d.trailing = trailing.reverse ++ ns →
      Awaits limits d (.ending d.leading d.root trailing) p bs
  | root {leading ns : List Node} {p : Position} {before root after : List UInt8} :
      Contents .outside p before ns → d.leading = leading.reverse ++ ns →
      d.root.SpelledBy (p.past before) root → d.root.toNode.Within limits 0 →
      Contents .outside (p.past (before ++ root)) after d.trailing →
      Awaits limits d (.building leading []) p (before ++ root ++ after)
  | close {leading : List Node} {o : OpenElement} {outer : List OpenElement} {e : Element}
      {p : Position} {bs rest : List UInt8} :
      o.ClosedBy limits (outer.length + 1) p bs e →
      Awaits limits d (.place leading outer e) (p.past bs) rest →
      Awaits limits d (.building leading (o :: outer)) p (bs ++ rest)

variable {limits : Limits} {c c' : Cursor} {d : Document} {p : Position}

theorem Cursor.PassesLeaf.contents {zone : Zone} {n : Node} (h : c.PassesLeaf zone n c') :
    ∃ bs, c.Passes bs c' ∧ Contents zone c.position bs [n] ∧
      (n.text?.isSome = true → Halts zone.isTextByte c'.rest) := by
  obtain ⟨kind, bs, content, hl, hp, hh, rfl⟩ := h
  refine ⟨bs, hp, ?_, fun ht => hh ?_⟩
  · have h := Contents.leaf hl (fun _ => halts_nil _) (.nil (c.position.past bs))
    rwa [List.append_nil, ← hp.position] at h
  · cases kind <;> first | rfl | cases ht

theorem Cursor.PassesLeaf.within {zone : Zone} {n : Node} {depth : Nat}
    (h : c.PassesLeaf zone n c') : n.Within limits depth := by
  obtain ⟨kind, _, content, _, _, _, rfl⟩ := h
  trivial

namespace Awaits

/-- A node that has been read into an open element was among what the element needed. -/
theorem of_child {n : Node} {bs rest : List UInt8} {leading : List Node} {o : OpenElement}
    {outer : List OpenElement} (hn : Contents .inside p bs [n])
    (ht : n.text?.isSome = true → Halts Zone.inside.isTextByte rest)
    (hw : n.Within limits (outer.length + 1))
    (h : Awaits limits d (.building leading (o.push n :: outer)) (p.past bs) rest) :
    Awaits limits d (.building leading (o :: outer)) p (bs ++ rest) := by
  cases h with
  | close hclosed hrest =>
    obtain ⟨body, close, ns, rfl, hbody, hns, hclose, rfl⟩ := hclosed
    rw [List.append_assoc] at ht
    have hcontents : Contents .inside p (bs ++ body) (n :: ns) :=
      contents_cons_iff.mpr ⟨bs, body, rfl, hn, fun h => (ht h).of_append, hbody⟩
    rw [← List.append_assoc]
    refine .close ⟨bs ++ body, close, n :: ns, (List.append_assoc ..).symm, hcontents, ⟨hw, hns⟩,
      hclose, rfl⟩ ?_
    simpa [OpenElement.push, Position.past_append] using hrest

/-- So was a whole element, inside another or as the root. -/
theorem of_element {e : Element} {bs rest : List UInt8} {leading : List Node}
    {stack : List OpenElement} (he : e.SpelledBy p bs)
    (hw : e.toNode.Within limits stack.length)
    (h : Awaits limits d (.place leading stack e) (p.past bs) rest) :
    Awaits limits d (.building leading stack) p (bs ++ rest) := by
  cases stack with
  | cons o outer => exact of_child he nofun hw h
  | nil =>
    unfold Draft.place at h
    generalize hl : leading.reverse = l at h
    cases h with
    | trailing hns htrailing =>
      rw [List.reverse_nil, List.nil_append] at htrailing
      exact .root (.nil p) (by rw [hl, List.append_nil]) he hw (htrailing ▸ hns)

/-- A turn takes back what was needed behind it to what is needed before it. -/
theorem of_turn {draft draft' : Draft} (ht : Turn limits c c' draft draft')
    (h : Awaits limits d draft' c'.position c'.rest) :
    Awaits limits d draft c.position c.rest := by
  cases ht with
  | leading hl =>
    obtain ⟨bs, hp, hn, hh⟩ := hl.contents
    rw [hp.position] at h
    rw [hp.1]
    generalize c'.rest = rest at h hh
    cases h with
    | root hns hleading hroot hw htrailing =>
      rw [List.append_assoc] at hh
      have hns' := contents_cons_iff.mpr ⟨_, _, rfl, hn, fun ht => (hh ht).of_append, hns⟩
      rw [← Position.past_append] at hroot
      rw [← Position.past_append, ← List.append_assoc] at htrailing
      rw [← List.append_assoc, ← List.append_assoc]
      exact .root hns' (by simp [hleading]) hroot hw htrailing
  | trailing hl =>
    obtain ⟨bs, hp, hn, hh⟩ := hl.contents
    rw [hp.position] at h
    rw [hp.1]
    cases h with
    | trailing hns htrailing =>
      refine .trailing (contents_cons_iff.mpr ⟨_, _, rfl, hn, hh, hns⟩) ?_
      simp [htrailing]
  | inner hl =>
    obtain ⟨bs, hp, hn, hh⟩ := hl.contents
    rw [hp.position] at h
    rw [hp.1]
    exact of_child hn hh hl.within h
  | @single _ _ name as bs htag hadm hp =>
    rw [hp.position] at h
    rw [hp.1]
    let e : Element := ⟨name, as, [], .empty, ⟨c.position, c.position.past bs⟩⟩
    have he : e.SpelledBy c.position bs :=
      Element.spelledBy_iff.mpr ⟨rfl, .inl ⟨rfl, rfl, htag⟩⟩
    exact of_element he ⟨hadm, nofun, trivial⟩ h
  | @opening _ stack name as bs htag hadm hdepth hp =>
    rw [hp.position] at h
    rw [hp.1]
    generalize c'.rest = rest at h
    cases h with
    | close hclosed hrest =>
      obtain ⟨body, close, ns, rfl, hbody, hns, hclose, rfl⟩ := hclosed
      let e : Element := ⟨name, as, ns, .paired, ⟨c.position, c.position.past (bs ++ body ++ close)⟩⟩
      have he : e.SpelledBy c.position (bs ++ body ++ close) :=
        Element.spelledBy_iff.mpr ⟨rfl, .inr ⟨rfl, _, _, _, rfl, htag, hbody, hclose⟩⟩
      rw [← List.append_assoc, ← List.append_assoc]
      rw [← Position.past_append, ← List.append_assoc] at hrest
      exact of_element he ⟨hadm, fun _ => hdepth, hns⟩ hrest
  | closing hclose hp =>
    rw [hp.1]
    refine .close ⟨[], _, [], rfl, .nil _, trivial, hclose, rfl⟩ ?_
    rw [hp.position] at h
    simpa [OpenElement.close] using h

end Awaits

theorem Draft.awaits_of_complete {draft : Draft} (h : complete limits draft c = .ok d) :
    Awaits limits d draft c.position c.rest := by
  fun_induction complete limits draft c with
  | case1 => cases h
  | case2 draft c d' hdone =>
    cases h
    obtain ⟨hrest, rfl⟩ := step_eq_done_iff.mp hdone
    rw [hrest]
    exact .trailing (.nil _) (by simp)
  | case3 draft c draft' c' hmore ih =>
    exact .of_turn (step_eq_more_iff.mp hmore) (ih h)

/-- The reader accepts the documents of the grammar that keep its limits, and builds the
tree that the grammar assigns. -/
theorem Document.parse_eq_ok_iff {bs : List UInt8} :
    Document.parse limits bs = .ok d ↔
      bs.length ≤ limits.maxSize ∧ d.SpelledBy bs ∧ d.root.toNode.Within limits 0 := by
  unfold Document.parse
  rw [bind_eq_ok_iff]
  constructor
  · rintro ⟨_, hsize, h⟩
    refine ⟨Limits.checkSize_eq_ok_iff.mp hsize, ?_⟩
    have ha := Draft.awaits_of_complete h
    generalize hbs : (Cursor.ofBytes bs).rest = bs' at ha
    cases ha with
    | root hns hleading hroot hw htrailing =>
      refine ⟨⟨_, _, _, hbs, ?_, hroot, htrailing⟩, hw⟩
      rw [hleading]
      exact hns
  · rintro ⟨hsize, hd, hw⟩
    exact ⟨(), Limits.checkSize_eq_ok_iff.mpr hsize, Draft.complete_of_spelledBy hd hw⟩

end TextHoist
