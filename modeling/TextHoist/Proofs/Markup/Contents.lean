/-
  Taking spelled contents apart and putting them together. A node in front comes off with
  the bytes that spell it (`contents_cons_iff`), contents split wherever their nodes do
  (`Contents.split`) and join where no run of text goes on (`Contents.append`). The bytes
  spell the same nodes, spans aside, at any other position (`Contents.relocate`).

  Every node takes at least one byte, so the span of a node behind a position ends beyond
  it, and forgetting such spans forgets all of them (`Contents.keepUntil_eq_erase`).
-/
import TextHoist.Proofs.Markup.Grammar
import TextHoist.Proofs.Markup.Spans

namespace TextHoist

variable {zone : Zone} {p : Position} {bs cs : List UInt8} {n : Node} {ns ms : List Node}

theorem OpeningTag.ne_nil {name : String} {as : List Attribute} {form : TagForm}
    (h : OpeningTag name as form bs) : bs ≠ [] := by
  obtain ⟨b, cs, rfl, _⟩ := h.eq_cons
  exact List.cons_ne_nil _ _

theorem contents_nil_iff : Contents zone p bs [] ↔ bs = [] := by
  constructor
  · intro h
    cases h
    rfl
  · rintro rfl
    exact .nil p

/-- What a single node is spelled by has the node's span, and is not empty. -/
theorem Contents.span_eq (h : Contents zone p bs [n]) : n.span = ⟨p, p.past bs⟩ := by
  cases h with
  | leaf _ _ hr => rw [contents_nil_iff.mp hr, List.append_nil]; rfl
  | single _ _ hr => rw [contents_nil_iff.mp hr, List.append_nil]; rfl
  | pair _ _ _ _ hr => rw [contents_nil_iff.mp hr, List.append_nil]; rfl

theorem Contents.ne_nil (h : Contents zone p bs (n :: ns)) : bs ≠ [] := by
  cases h with
  | leaf hl => exact List.append_ne_nil_of_left_ne_nil hl.ne_nil _
  | single _ ht => exact List.append_ne_nil_of_left_ne_nil ht.ne_nil _
  | pair _ ht =>
    rw [List.append_assoc, List.append_assoc]
    exact List.append_ne_nil_of_left_ne_nil ht.ne_nil _

/-- The first node comes off with its own bytes. A text is followed by what ends it. -/
theorem contents_cons_iff : Contents zone p bs (n :: ns) ↔
    ∃ b c, bs = b ++ c ∧ Contents zone p b [n] ∧
      (n.text?.isSome = true → Halts zone.isTextByte c) ∧ Contents zone (p.past b) c ns := by
  constructor
  · intro h
    cases h with
    | leaf hl hk hr =>
      refine ⟨_, _, rfl, ?_, ?_, hr⟩
      · simpa using Contents.leaf hl (fun _ => halts_nil _) (.nil _)
      · intro ht
        refine hk ?_
        rename_i kind _
        cases kind <;> first | rfl | cases ht
    | single hz ht hr =>
      exact ⟨_, _, rfl, by simpa using Contents.single hz ht (.nil _), nofun, hr⟩
    | pair hz ht hb hc hr =>
      exact ⟨_, _, rfl, by simpa using Contents.pair hz ht hb hc (.nil _), nofun, hr⟩
  · rintro ⟨b, c, rfl, hn, ht, hr⟩
    cases hn with
    | leaf hl _ hnil =>
      rw [contents_nil_iff.mp hnil, List.append_nil] at hr ⊢
      exact .leaf hl (fun hk => ht (by rw [hk]; rfl)) hr
    | single hz htag hnil =>
      rw [contents_nil_iff.mp hnil, List.append_nil] at hr ⊢
      exact .single hz htag hr
    | pair hz htag hb hc hnil =>
      rw [contents_nil_iff.mp hnil, List.append_nil] at hr ⊢
      exact .pair hz htag hb hc hr

/-- An element is one tag, or two with its children between them. -/
theorem Element.spelledBy_iff {e : Element} : e.SpelledBy p bs ↔
    e.span = ⟨p, p.past bs⟩ ∧
      ((e.form = .empty ∧ e.children = [] ∧ OpeningTag e.name e.attributes .empty bs) ∨
        (e.form = .paired ∧ ∃ tag body close, bs = tag ++ body ++ close ∧
          OpeningTag e.name e.attributes .paired tag ∧
          Contents .inside (p.past tag) body e.children ∧ ClosingTag e.name close)) := by
  obtain ⟨name, attributes, children, form, span⟩ := e
  constructor
  · intro h
    refine ⟨Contents.span_eq h, ?_⟩
    unfold Element.SpelledBy Element.toNode at h
    cases h with
    | single _ ht hr =>
      rw [contents_nil_iff.mp hr, List.append_nil]
      exact .inl ⟨rfl, rfl, ht⟩
    | pair _ ht hb hc hr =>
      rw [contents_nil_iff.mp hr, List.append_nil]
      exact .inr ⟨rfl, _, _, _, rfl, ht, hb, hc⟩
  · rintro ⟨hspan, ⟨hform, hchildren, ht⟩ | ⟨hform, tag, body, close, rfl, ht, hb, hc⟩⟩
    · simp only at hspan hform hchildren
      subst hspan hform hchildren
      have h := Contents.single rfl ht (.nil (p.past bs))
      rwa [List.append_nil] at h
    · simp only at hspan hform
      subst hspan hform
      have h := Contents.pair rfl ht hb hc (.nil (p.past (tag ++ body ++ close)))
      rwa [List.append_nil] at h

theorem Element.SpelledBy.span_eq {e : Element} (h : e.SpelledBy p bs) :
    e.span = ⟨p, p.past bs⟩ :=
  (Element.spelledBy_iff.mp h).1

theorem Element.SpelledBy.ne_nil {e : Element} (h : e.SpelledBy p bs) : bs ≠ [] :=
  Contents.ne_nil h

/-- An element begins with `<` and the first byte of its name. -/
theorem Element.SpelledBy.eq_cons {e : Element} (h : e.SpelledBy p bs) :
    ∃ b cs, bs = '<'.toUInt8 :: b :: cs ∧ isNameStart b = true := by
  obtain ⟨_, ⟨_, _, ht⟩ | ⟨_, tag, body, close, rfl, ht, _, _⟩⟩ := Element.spelledBy_iff.mp h
  · exact ht.eq_cons
  · obtain ⟨b, cs, rfl, hb⟩ := ht.eq_cons
    exact ⟨b, cs ++ body ++ close, rfl, hb⟩

/-- Contents join where the second part does not go on with a text. -/
theorem Contents.append (h : Contents zone p bs ns) (h' : Contents zone (p.past bs) cs ms)
    (hc : Halts zone.isTextByte cs) : Contents zone p (bs ++ cs) (ns ++ ms) := by
  induction ns generalizing p bs with
  | nil =>
    obtain rfl := contents_nil_iff.mp h
    exact h'
  | cons n ns ih =>
    obtain ⟨b, c, rfl, hn, ht, hr⟩ := contents_cons_iff.mp h
    rw [Position.past_append] at h'
    rw [List.append_assoc]
    exact contents_cons_iff.mpr
      ⟨b, c ++ cs, rfl, hn, fun htext => (ht htext).append hc, ih hr h'⟩

theorem Contents.split (h : Contents zone p bs (ns ++ ms)) :
    ∃ b c, bs = b ++ c ∧ Contents zone p b ns ∧ Contents zone (p.past b) c ms := by
  induction ns generalizing p bs with
  | nil => exact ⟨[], bs, rfl, .nil p, h⟩
  | cons n ns ih =>
    obtain ⟨b, c, rfl, hn, ht, hr⟩ := contents_cons_iff.mp h
    obtain ⟨b', c', rfl, hb, hc⟩ := ih hr
    refine ⟨b ++ b', c', (List.append_assoc ..).symm, ?_, by rwa [Position.past_append]⟩
    exact contents_cons_iff.mpr ⟨b, b', rfl, hn, fun htext => (ht htext).of_append, hb⟩

/-- Where no text goes on, none begins. -/
theorem Contents.head_text (h : Contents zone p bs ns) (hh : Halts zone.isTextByte bs) :
    ∀ m ∈ ns.head?, m.text? = none := by
  cases h with
  | nil => nofun
  | @leaf _ _ _ kind _ _ hl =>
    intro m hm
    cases hm
    cases kind with
    | text =>
      obtain ⟨b, cs, rfl, hb⟩ := hl.text_eq_cons
      have hb' := halts_cons.mp hh
      rw [hb] at hb'
      cases hb'
    | _ => rfl
  | single =>
    intro m hm
    cases hm
    rfl
  | pair =>
    intro m hm
    cases hm
    rfl

/-- No text is next to another. -/
theorem Contents.text_next {m : Node} (h : Contents zone p bs (ns ++ m :: n :: ms))
    (hm : m.text?.isSome = true) : n.text? = none := by
  obtain ⟨_, _, rfl, _, h⟩ := h.split
  obtain ⟨_, _, rfl, _, hhalts, hr⟩ := contents_cons_iff.mp h
  exact hr.head_text (hhalts hm) n rfl

/-- Where one node ends, the next one starts. -/
theorem Contents.start_eq_stop {m : Node} (h : Contents zone p bs (ns ++ m :: n :: ms)) :
    n.span.start = m.span.stop := by
  obtain ⟨_, _, rfl, _, h⟩ := h.split
  obtain ⟨_, _, rfl, hm, _, hr⟩ := contents_cons_iff.mp h
  obtain ⟨_, _, _, hn, _⟩ := contents_cons_iff.mp hr
  rw [hm.span_eq, hn.span_eq]

/-- The same bytes spell the same nodes at another position, spans aside. -/
theorem Contents.relocate (h : Contents zone p bs ns) (q : Position) :
    ∃ ns', Contents zone q bs ns' ∧ Node.eraseAll ns' = Node.eraseAll ns := by
  induction h generalizing q with
  | nil => exact ⟨[], .nil q, rfl⟩
  | leaf hl hk _ ih =>
    obtain ⟨ns', hr, he⟩ := ih _
    refine ⟨_, .leaf hl hk hr, ?_⟩
    simp only [Node.eraseAll, Node.mapSpansAll, Node.mapSpans] at he ⊢
    rw [he]
  | single hz ht _ ih =>
    obtain ⟨ns', hr, he⟩ := ih _
    refine ⟨_, .single hz ht hr, ?_⟩
    simp only [Node.eraseAll, Node.mapSpansAll, Node.mapSpans] at he ⊢
    rw [he]
  | pair hz ht _ hc _ ihbody ih =>
    obtain ⟨children, hb, hbe⟩ := ihbody _
    obtain ⟨ns', hr, he⟩ := ih _
    refine ⟨_, .pair hz ht hb hc hr, ?_⟩
    simp only [Node.eraseAll, Node.mapSpansAll, Node.mapSpans] at hbe he ⊢
    rw [hbe, he]

/-- The same number of nodes, and the very same ones if the position is. -/
theorem Contents.relocated (h : Contents zone p bs ns) (q : Position) :
    ∃ ns', Contents zone q bs ns' ∧ ns'.length = ns.length ∧ (q = p → ns' = ns) := by
  by_cases hq : q = p
  · subst hq
    exact ⟨ns, h, rfl, fun _ => rfl⟩
  · obtain ⟨ns', h', he⟩ := h.relocate q
    have hlength := congrArg List.length he
    simp only [Node.eraseAll, Node.mapSpansAll_eq_map, List.length_map] at hlength
    exact ⟨ns', h', hlength, fun hq' => absurd hq' hq⟩

theorem Element.SpelledBy.relocate {e : Element} (h : e.SpelledBy p bs) (q : Position) :
    ∃ e' : Element, e'.SpelledBy q bs ∧ e'.erase = e.erase := by
  obtain ⟨_, ⟨hform, hnil, ht⟩ | ⟨hform, tag, body, close, rfl, ht, hb, hc⟩⟩ :=
    Element.spelledBy_iff.mp h
  · exact ⟨{ e with span := ⟨q, q.past bs⟩ },
      Element.spelledBy_iff.mpr ⟨rfl, .inl ⟨hform, hnil, ht⟩⟩, rfl⟩
  · obtain ⟨children, hb', he⟩ := hb.relocate (q.past tag)
    refine ⟨{ e with children, span := ⟨q, q.past (tag ++ body ++ close)⟩ },
      Element.spelledBy_iff.mpr ⟨rfl, .inr ⟨hform, tag, body, close, rfl, ht, hb', hc⟩⟩, ?_⟩
    unfold Node.eraseAll at he
    simp only [Element.erase, Element.mapSpans, he]

/-- Nodes around an element, each part with its own bytes. -/
theorem contents_element_iff {e : Element} :
    Contents .inside p bs (ns ++ e.toNode :: ms) ↔ ∃ before mid after,
      bs = before ++ mid ++ after ∧ Contents .inside p before ns ∧
        e.SpelledBy (p.past before) mid ∧ Contents .inside (p.past (before ++ mid)) after ms := by
  constructor
  · intro h
    obtain ⟨before, _, rfl, hns, h⟩ := h.split
    obtain ⟨mid, after, rfl, he, _, hms⟩ := contents_cons_iff.mp h
    rw [← Position.past_append] at hms
    exact ⟨before, mid, after, by simp, hns, he, hms⟩
  · intro h
    obtain ⟨before, mid, after, rfl, hns, he, hms⟩ := h
    rw [Position.past_append] at hms
    rw [List.append_assoc]
    refine hns.append (contents_cons_iff.mpr ⟨mid, after, rfl, he, nofun, hms⟩) ?_
    obtain ⟨b, cs, rfl, _⟩ := he.eq_cons
    exact Zone.halts_cons _ _

/-- An element with something in it is two tags around that, and the tags fit around
anything else, at any position. -/
theorem Element.SpelledBy.tags {e : Element} (h : e.SpelledBy p bs) (hne : e.children ≠ []) :
    ∃ tag body close, bs = tag ++ body ++ close ∧ Text.IsText tag ∧ Text.IsText close ∧
      Contents .inside (p.past tag) body e.children ∧
      ∀ (q : Position) (children : List Node) (body' : List UInt8),
        Contents .inside (q.past tag) body' children →
        ({ e with children, span := ⟨q, q.past (tag ++ body' ++ close)⟩ } : Element).SpelledBy q
          (tag ++ body' ++ close) := by
  obtain ⟨_, ⟨_, hnil, _⟩ | ⟨hform, tag, body, close, rfl, ht, hb, hc⟩⟩ :=
    Element.spelledBy_iff.mp h
  · exact absurd hnil hne
  · refine ⟨tag, body, close, rfl, ht.isText, hc.isText, hb, ?_⟩
    intro q children body' hb'
    exact Element.spelledBy_iff.mpr ⟨rfl, .inr ⟨hform, tag, body', close, rfl, ht, hb', hc⟩⟩

theorem Position.offset_lt_past (h : bs ≠ []) : p.offset < (p.past bs).offset := by
  rw [Position.past_offset]
  have := List.length_pos_iff.mpr h
  omega

/-- A span that starts at or behind `a` and covers something does not end by `a`. -/
theorem Span.keepUntil_eq_nowhere {a : Nat} (ha : a ≤ p.offset) (h : bs ≠ []) :
    Span.keepUntil a ⟨p, p.past bs⟩ = .nowhere := by
  have := Position.offset_lt_past (p := p) h
  rw [Span.keepUntil, if_neg]
  show ¬ (p.past bs).offset ≤ a
  omega

/-- Behind an offset no node ends by it. -/
theorem Contents.keepUntil_eq_erase (h : Contents zone p bs ns) {a : Nat} (ha : a ≤ p.offset) :
    Node.mapSpansAll (Span.keepUntil a) ns = Node.eraseAll ns := by
  induction h with
  | nil => rfl
  | leaf hl _ _ ih =>
    have hr := ih (by rw [Position.past_offset]; omega)
    simp only [Node.eraseAll, Node.mapSpansAll, Node.mapSpans] at hr ⊢
    rw [hr, Span.keepUntil_eq_nowhere ha hl.ne_nil]
  | single _ ht _ ih =>
    have hr := ih (by rw [Position.past_offset]; omega)
    simp only [Node.eraseAll, Node.mapSpansAll, Node.mapSpans] at hr ⊢
    rw [hr, Span.keepUntil_eq_nowhere ha ht.ne_nil]
  | pair _ ht _ _ _ ihbody ih =>
    have hb := ihbody (by rw [Position.past_offset]; omega)
    have hr := ih (by rw [Position.past_offset]; omega)
    simp only [Node.eraseAll, Node.mapSpansAll, Node.mapSpans] at hb hr ⊢
    rw [hb, hr, Span.keepUntil_eq_nowhere ha]
    rw [List.append_assoc]
    exact List.append_ne_nil_of_left_ne_nil ht.ne_nil _

end TextHoist
