/-
  Running the action a second time. An edit leaves the caret where the edited element
  starts, and that element has no children any more, so a second run is meant to find
  nothing to do. But a text that stands right before the element ends at the caret, and a
  caret at the end of a text is on it. So the second run looks at that text, and moves it
  as well if the element around both is listed. In every other case it does nothing
  (`Session.Sound.isSome_resolve?_applied`).

  Anywhere behind its start, a caret in the edited element is strictly inside of it, and what
  is looked up there is the element itself, whatever stands around it. So no action finds
  anything to do there (`Document.SpelledBy.target?_inside`).
-/
import TextHoist.Proofs.Editor.Availability
import TextHoist.Proofs.Markup.Caret
import TextHoist.Proofs.Markup.Names

namespace TextHoist

/-! ## Targets after an edit -/

namespace Document

variable {d : Document} {tags : TagTable} {path q : Path} {new : Element}

/-- There is a target at a child if it is visible text and its parent is listed. -/
theorem isSome_target?_child (i : Nat) : (d.target? tags (Path.child q i)).isSome =
    (d.element? q).any fun parent =>
      parent.children[i]?.any Node.isVisibleText && (tags.attribute? parent.name).isSome := by
  rw [Bool.eq_iff_iff, Option.isSome_iff_exists, Option.any_eq_true]
  constructor
  · rintro ⟨t, ht⟩
    obtain ⟨j, parent, n, hpath, hparent, hn, hv, hname, _⟩ := target?_eq_some_iff.mp ht
    obtain ⟨rfl, hij⟩ := List.append_inj' hpath rfl
    cases hij
    exact ⟨parent, hparent, by simp [hn, hv, hname]⟩
  · rintro ⟨parent, hparent, h⟩
    rw [Bool.and_eq_true, Option.any_eq_true, Option.isSome_iff_exists] at h
    obtain ⟨⟨n, hn, hv⟩, attributeName, hname⟩ := h
    exact ⟨⟨q, parent.name, attributeName, Text.trim parent.innerText⟩,
      target?_eq_some_iff.mpr ⟨i, parent, n, rfl, hparent, hn, hv, hname, rfl, rfl⟩⟩

/-- What is no text is no target. -/
theorem target?_eq_none (h : ∀ n ∈ d.node? path, n.text? = none) : d.target? tags path = none := by
  cases ht : d.target? tags path with
  | none => rfl
  | some t =>
    obtain ⟨i, parent, n, rfl, hparent, hn, hv, _⟩ := target?_eq_some_iff.mp ht
    have hnode : d.node? (Path.child t.element i) = some n :=
      node?_eq_some_iff.mpr ⟨t.element, i, parent, rfl, hparent, hn⟩
    rw [Node.isVisibleText, h n hnode] at hv
    cases hv

theorem node?_of_element? (h : d.element? path = some new) :
    ∀ n ∈ d.node? path, n.text? = none := by
  intro n hn
  rcases List.eq_nil_or_concat path with rfl | ⟨q, i, rfl⟩
  · cases hn
  · rw [List.concat_eq_append] at h hn
    obtain ⟨parent, ls, rs, hparent, rfl, hchildren⟩ := element?_child_iff.mp h
    have hchild := node?_child d q ls.length
    rw [hparent, Option.bind_some, hchildren, List.getElem?_append_right (Nat.le_refl _),
      Nat.sub_self] at hchild
    cases hchild.symm.trans hn
    rfl

/-- A caret where an element without children starts targets what the sibling before it
would. -/
theorem SpelledBy.target?_start {bs : List UInt8} (h : d.SpelledBy bs)
    (hnew : d.element? path = some new) (hc : new.children = []) :
    (d.nodeAt? new.span.start.offset true).bind (d.target? tags) =
      path.previous?.bind (d.target? tags) := by
  rcases h.nodeAt?_start hnew hc with ⟨q, n, hq, _, _, hat⟩ | ⟨hbefore, hat⟩
  · rw [hat, hq]
  · rw [hat, Option.bind_some, target?_eq_none (node?_of_element? hnew)]
    cases hq : path.previous? with
    | none => rfl
    | some q => exact (target?_eq_none (hbefore q hq)).symm

/-- Strictly inside an element without children there is nothing to target. -/
theorem SpelledBy.target?_inside {bs : List UInt8} {a : Nat} (h : d.SpelledBy bs)
    (hnew : d.element? path = some new) (hc : new.children = [])
    (hlt : new.span.start.offset < a) (hlt' : a < new.span.stop.offset) :
    (d.nodeAt? a true).bind (d.target? tags) = none := by
  rw [h.nodeAt?_childless hnew hc hlt hlt', Option.bind_some]
  exact target?_eq_none (node?_of_element? hnew)

theorem isSome_target?_mapSpans (f : Span → Span) (i : Nat) :
    ((d.mapSpans f).target? tags (Path.child q i)).isSome =
      (d.target? tags (Path.child q i)).isSome := by
  rw [isSome_target?_child, isSome_target?_child, element?_mapSpans]
  cases d.element? q with
  | none => rfl
  | some parent =>
    simp only [Option.map_some, Option.any_some, Element.mapSpans, Node.mapSpansAll_eq_map,
      List.getElem?_map, Option.any_map, Node.isVisibleText_mapSpans]

/-- Replacing an element does not change what the sibling before it would target, as far
as there is a target. -/
theorem isSome_target?_replace (i : Nat) (new : Element) :
    ((d.replace (Path.child q (i + 1)) new).target? tags (Path.child q i)).isSome =
      (d.target? tags (Path.child q i)).isSome := by
  have hparent : (d.replace (Path.child q (i + 1)) new).element? q =
      (d.element? q).map (·.replace [i + 1] new) :=
    Element.descendant?_replace_append d.root q [i + 1] new
  rw [isSome_target?_child, isSome_target?_child, hparent]
  cases d.element? q with
  | none => rfl
  | some parent =>
    simp [Element.replace, Node.modifyElement]

/-- Both changes at once. -/
theorem SameUntil.isSome_target? {d' : Document} {a : Nat} (h : d'.SameUntil a (d.replace path new))
    (hq : path.previous? = some q) : (d'.target? tags q).isSome = (d.target? tags q).isSome := by
  obtain ⟨r, i, rfl, rfl⟩ := Path.previous?_eq_some_iff.mp hq
  rw [← isSome_target?_mapSpans (Span.keepUntil a), h, isSome_target?_mapSpans,
    isSome_target?_replace]

end Document

namespace Session

variable {s s' : Session} {action : MoveText} {t : Target}

theorem eq_of_fst_toOption {α : Type} {x : Except Error α × Session} {a : α}
    (h : x.1.toOption = some a) : x = (.ok a, x.2) := by
  rw [← toOption_eq_some_iff.mp h]

theorem execute_eq_notApplicable_iff :
    action.execute s = (.ok .notApplicable, s) ↔ action.resolve? s = none := by
  rcases s.execute_cases action with ⟨hn, hr⟩ | ⟨t, e, ht, hr⟩ | ⟨t, _, _, ht, _, _, hr⟩
  · simp [hn, hr]
  · simp [ht, hr]
  · simp [ht, hr]

/-- An action that has been applied has committed the edit to its target. -/
theorem execute_eq_applied (he : action.execute s = (.ok (.applied t), s')) :
    ∃ edit committed, action.resolve? s = some t ∧ s.document.hoist t s.dialect = .ok edit ∧
      s.commit edit.patch = .ok committed ∧ s' = committed.markDirty := by
  rcases s.execute_cases action with ⟨_, hr⟩ | ⟨_, _, _, hr⟩ | ⟨_, edit, s₁, ht, hedit, hc, hr⟩
  · cases hr.symm.trans he
  · cases hr.symm.trans he
  · cases hr.symm.trans he
    exact ⟨edit, s₁, ht, hedit, hc, rfl⟩

/-- An action that has been applied has put its edit into the document, and the caret where
the edited element starts. -/
theorem Sound.execute_applied (h : s.Sound) (he : action.execute s = (.ok (.applied t), s')) :
    ∃ edit, s.document.hoist t s.dialect = .ok edit ∧
      s'.document.SpelledBy (Text.bytes s'.source) ∧
      s'.document.element? t.element = some edit.element ∧
      s'.caret = edit.element.span.start.offset ∧
      s'.document.SameUntil s'.caret (s.document.replace t.element edit.element) := by
  obtain ⟨edit, _, ht, hedit, hc, rfl⟩ := execute_eq_applied he
  obtain ⟨source, document, hp, hd, rfl⟩ := commit_eq_ok_iff.mp hc
  obtain ⟨path, _, htarget⟩ := Option.bind_eq_some_iff.mp ht
  -- the document committed is the one that the patched text spells
  obtain ⟨source', d', hp', hd', hat, hsame, hread⟩ :=
    Document.ofText_hoist h.document htarget hedit
  cases hp.symm.trans hp'
  cases hd.symm.trans (hread (Document.parse_eq_ok_iff.mp hd).1)
  obtain ⟨_, hstart, _⟩ := Document.span_of_hoist hedit
  refine ⟨edit, hedit, hd', hat, hstart.symm, hsame⟩

/-- After the action has been applied, there is a target again exactly if the sibling
before the edited element is one. -/
theorem Sound.isSome_resolve?_applied (h : s.Sound)
    (he : action.execute s = (.ok (.applied t), s')) :
    (action.resolve? s').isSome =
      (t.element.previous?.bind (s.document.target? action.tags)).isSome := by
  obtain ⟨edit, hedit, hspelled, hat, hcaret, hsame⟩ := h.execute_applied he
  obtain ⟨hchildren, _⟩ := Document.span_of_hoist hedit
  have hresolve : action.resolve? s' =
      t.element.previous?.bind (s'.document.target? action.tags) := by
    rw [← hspelled.target?_start hat hchildren, ← hcaret]
    rfl
  rw [hresolve]
  cases hq : t.element.previous? with
  | none => rfl
  | some q => exact hsame.isSome_target? hq

/-- Running the action again after it has been applied does nothing exactly if the node
right before the edited element is not itself a text to be moved. -/
theorem execute_again_iff {source : String} {dialect : Dialect} {limits : Limits}
    (h : Session.ofText source dialect limits = .ok s) (requests : List Request)
    (he : action.execute (s.after requests) = (.ok (.applied t), s')) :
    action.execute s' = (.ok .notApplicable, s') ↔
      ∀ q ∈ t.element.previous?, (s.after requests).document.target? action.tags q = none := by
  have hsound := ((sound_of_ofText h).after requests).1
  have hsome := hsound.isSome_resolve?_applied he
  rw [execute_eq_notApplicable_iff, ← Option.not_isSome_iff_eq_none, hsome,
    Option.not_isSome_iff_eq_none]
  cases t.element.previous? with
  | none => simp
  | some q => simp

/-- There is a text before the label, but the element around both is not listed. -/
theorem execute_again_label :
    Session.ofText labelSource .html {} = .ok labelSession ∧
    ∃ s', ({} : MoveText).execute (labelSession.after [.setCaret 24]) =
        (.ok (.applied ⟨[1], "Label", "Content", "a & \"b\""⟩), s') ∧
      ({} : MoveText).execute s' = (.ok .notApplicable, s') := by
  have hfirst : (({} : MoveText).execute (labelSession.after [.setCaret 24])).1.toOption =
      some (.applied ⟨[1], "Label", "Content", "a & \"b\""⟩) := by
    decide +kernel
  have hbefore : ∀ q ∈ Path.previous? [1],
      (labelSession.after [.setCaret 24]).document.target? .builtin q = none := by
    decide +kernel
  have happlied := eq_of_fst_toOption hfirst
  exact ⟨ofText_labelSource, _, happlied,
    (execute_again_iff ofText_labelSource [.setCaret 24] happlied).mpr hbefore⟩

/-- A label in a label, each with a text. -/
def nestedSource : String := "<Label>a<Label>b</Label></Label>"

def nestedSession : Session where
  source := nestedSource
  document := ⟨[], ⟨"Label", [], [.leaf .text "a" ⟨⟨7, 1, 8⟩, ⟨8, 1, 9⟩⟩,
    .element "Label" [] [.leaf .text "b" ⟨⟨15, 1, 16⟩, ⟨16, 1, 17⟩⟩] .paired
      ⟨⟨8, 1, 9⟩, ⟨24, 1, 25⟩⟩], .paired, ⟨⟨0, 1, 1⟩, ⟨32, 1, 33⟩⟩⟩, []⟩

/-- The text of the inner label is moved first. The second run then moves the text of the
outer label, and with that the inner label is gone. -/
theorem execute_again_applies :
    Session.ofText nestedSource .xml {} = .ok nestedSession ∧
    ∃ s' s'', ({} : MoveText).execute (nestedSession.after [.setCaret 15]) =
        (.ok (.applied ⟨[1], "Label", "Content", "b"⟩), s') ∧
      ({} : MoveText).execute s' = (.ok (.applied ⟨[], "Label", "Content", "a"⟩), s'') ∧
      s'.source = "<Label>a<Label Content=\"b\"/></Label>" ∧
      s''.source = "<Label Content=\"a\"/>" := by
  have hs : Session.ofText nestedSource .xml {} = .ok nestedSession :=
    ofText_eq_ok_iff.mpr
      ⟨nestedSession.document, toOption_eq_some_iff.mp (by decide +kernel), rfl⟩
  let first := ({} : MoveText).execute (nestedSession.after [.setCaret 15])
  have hfirst : first.1.toOption = some (.applied ⟨[1], "Label", "Content", "b"⟩) := by
    decide +kernel
  have hsecond : (({} : MoveText).execute first.2).1.toOption =
      some (.applied ⟨[], "Label", "Content", "a"⟩) := by
    decide +kernel
  have hsource : first.2.source = "<Label>a<Label Content=\"b\"/></Label>" := by decide +kernel
  have hsource' : (({} : MoveText).execute first.2).2.source = "<Label Content=\"a\"/>" := by
    decide +kernel
  exact ⟨hs, first.2, (({} : MoveText).execute first.2).2, eq_of_fst_toOption hfirst,
    eq_of_fst_toOption hsecond, hsource, hsource'⟩

/-- Inside what an edit has written there is nothing left to move. After the action has been
applied, the caret can be set between any two characters of the text that the committed patch
has put in. There it is on the edited element, no action of any table has a target, and
running one changes nothing. -/
theorem inert_inside_edit {source : String} {dialect : Dialect} {limits : Limits}
    (h : Session.ofText source dialect limits = .ok s) (requests : List Request)
    (he : action.execute (s.after requests) = (.ok (.applied t), s')) :
    ∃ edit committed,
      (s.after requests).document.hoist t (s.after requests).dialect = .ok edit ∧
      (s.after requests).commit edit.patch = .ok committed ∧ s' = committed.markDirty ∧
      ∀ offset, Text.isBoundary s'.source offset = true → edit.patch.start < offset →
        offset < edit.patch.start + edit.patch.replacement.utf8ByteSize →
        ∃ moved, s'.setCaret offset = .ok moved ∧
          (∀ toLeaf, moved.currentNode? toLeaf = some t.element) ∧
          ∀ other : MoveText, other.resolve? moved = none ∧
            other.execute moved = (.ok .notApplicable, moved) := by
  have hsound := ((sound_of_ofText h).after requests).1
  obtain ⟨edit, committed, _, hedit, hcommit, hs'⟩ := execute_eq_applied he
  obtain ⟨edit', hedit', hspelled, hat, _, _⟩ := hsound.execute_applied he
  obtain rfl : edit' = edit := Except.ok.inj (hedit'.symm.trans hedit)
  obtain ⟨hchildren, hstart, hstop⟩ := Document.span_of_hoist hedit
  refine ⟨edit', committed, hedit, hcommit, hs', fun offset hboundary hlt hlt' => ?_⟩
  rw [← hstart] at hlt
  rw [← hstop] at hlt'
  refine ⟨_, setCaret_eq_ok_iff.mpr ⟨hboundary, rfl⟩, ?_, fun other => ?_⟩
  · exact hspelled.nodeAt?_childless hat hchildren hlt hlt'
  · have hnone : other.resolve? { s' with caret := offset } = none :=
      hspelled.target?_inside hat hchildren hlt hlt'
    exact ⟨hnone, execute_eq_notApplicable_iff.mpr hnone⟩

/-- The label is one tag after the edit. The caret goes before the last character of it. -/
theorem inert_inside_edit_label :
    let s : Session := { labelSession with dialect := .xml }
    Session.ofText labelSource .xml {} = .ok s ∧
    ∃ s', ({} : MoveText).execute (s.after [.setCaret 24]) =
        (.ok (.applied ⟨[1], "Label", "Content", "a & \"b\""⟩), s') ∧
      s'.source = "<W>é<Label Content=\"a &amp; &quot;b&quot;\" Content='x'/></W>" ∧
      ∃ moved, s'.setCaret 56 = .ok moved ∧ moved.currentNode? true = some [1] ∧
        ∀ other : MoveText, other.execute moved = (.ok .notApplicable, moved) := by
  intro s
  let t : Target := ⟨[1], "Label", "Content", "a & \"b\""⟩
  let old : Element := ⟨"Label", [⟨"Content", "x", .single⟩],
    [.leaf .text "a & \"b\"" ⟨⟨24, 1, 24⟩, ⟨35, 1, 35⟩⟩], .paired, ⟨⟨5, 1, 5⟩, ⟨43, 1, 43⟩⟩⟩
  let new := "<Label Content=\"a &amp; &quot;b&quot;\" Content='x'/>"
  have hs : Session.ofText labelSource .xml {} = .ok s :=
    ofText_eq_ok_iff.mpr ⟨labelDocument, TextHoist.ofText_labelSource, rfl⟩
  have hafter : s.after [.setCaret 24] = { s with caret := 24 } := by decide
  have ht : ({} : MoveText).resolve? (s.after [.setCaret 24]) = some t := by decide
  have hwritten : (old.withText t.attribute .xml).write = new := by decide
  have hedit : labelDocument.hoist t .xml = .ok ⟨old.hoisted t .xml, ⟨5, 43, new⟩⟩ :=
    Document.hoist_eq_ok_iff.mpr ⟨old, rfl, rfl, isName_iff.mpr (by decide), by rw [hwritten]⟩
  have hpatched : Patch.apply ⟨5, 43, new⟩ labelSource = .ok ("<W>é" ++ new ++ "</W>") :=
    Patch.apply_eq_ok_iff.mpr ⟨"<W>é", "<Label Content='x'>a &amp; \"b\"</Label>", "</W>",
      by decide, by decide, by decide, rfl⟩
  obtain ⟨edit, source, he, hp, hdone, _⟩ :=
    ((sound_of_ofText hs).after [.setCaret 24]).1.execute_target TagTable.builtin_writable ht
  rw [hafter] at he hp
  obtain rfl := Except.ok.inj (he.symm.trans hedit)
  obtain rfl := Except.ok.inj (hp.symm.trans hpatched)
  obtain ⟨s', hrun, hsource⟩ := hdone (by decide)
  obtain ⟨_, _, he', _, _, hinert⟩ := inert_inside_edit hs [.setCaret 24] hrun
  rw [hafter] at he'
  obtain rfl := Except.ok.inj (he'.symm.trans hedit)
  obtain ⟨moved, hmoved, hnode, hnone⟩ :=
    hinert 56 (by rw [hsource]; decide) (by decide) (by decide)
  refine ⟨hs, s', hrun, hsource.trans (by decide), moved, hmoved, hnode true, ?_⟩
  exact fun other => (hnone other).2

end Session

end TextHoist
