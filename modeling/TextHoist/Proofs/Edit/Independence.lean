/-
  Edits in two places do not get in each other's way. Of two elements neither of which is
  inside the other, one has its bytes before the other's, and both may be others at once
  (`Document.SpelledBy.refills_both`): what is between and behind them moves, and is spelled
  by the same bytes as before.

  So after an edit to the one, the text spells a document that has the other at its path,
  at most moved (`Document.SpelledBy.unique`: there is only one such document). A target
  depends on its element and not on where that stands (`Document.target?_of_erase_eq`), and
  a patch over its span replaces its bytes and no others (`Document.rewrite_of_erase_eq`). Both
  edits then come to the same text, whichever is made first (`Document.rewrites_of_lt`).
-/
import TextHoist.Proofs.Edit.Refinement
import TextHoist.Proofs.Markup.RoundTrip

namespace TextHoist

/-! ## Two places in a tree -/

/-- Paths of which neither leads through the other part at some element. -/
theorem Path.exists_fork {p q : Path} (h : ¬ p <+: q) (h' : ¬ q <+: p) :
    ∃ r i j p' q', i ≠ j ∧ p = r ++ i :: p' ∧ q = r ++ j :: q' := by
  induction p generalizing q with
  | nil => exact absurd List.nil_prefix h
  | cons i p ih =>
    cases q with
    | nil => exact absurd List.nil_prefix h'
    | cons j q =>
      by_cases hij : i = j
      · subst hij
        obtain ⟨r, k, l, p', q', hkl, rfl, rfl⟩ :=
          ih (fun hp => h (List.cons_prefix_cons.mpr ⟨rfl, hp⟩))
            fun hq => h' (List.cons_prefix_cons.mpr ⟨rfl, hq⟩)
        exact ⟨i :: r, k, l, p', q', hkl, rfl, rfl⟩
      · exact ⟨[], i, j, p, q, hij, rfl, rfl⟩

/-- Around `a`, `b` and `c`, bytes that spell two elements put them at the two paths. -/
def Element.RefillsBoth (path₁ path₂ : Path) (p : Position) (a b c : List UInt8) : Prop :=
  ∀ (new₁ new₂ : Element) (mid₁ mid₂ : List UInt8), new₁.SpelledBy (p.past a) mid₁ →
    new₂.SpelledBy (p.past (a ++ mid₁ ++ b)) mid₂ →
    ∃ e : Element, e.SpelledBy p (a ++ mid₁ ++ b ++ mid₂ ++ c) ∧
      e.descendant? path₁ = some new₁ ∧ e.descendant? path₂ = some new₂

/-- Two elements in different children of an element have bytes of their own, which may be
others. The children between them move, and so does the second child as a whole. -/
theorem Element.SpelledBy.refills_both {e old₁ old₂ : Element} {p : Position} {bs : List UInt8}
    {i j : Nat} {q₁ q₂ : Path} (h : e.SpelledBy p bs)
    (h₁ : e.descendant? (i :: q₁) = some old₁) (h₂ : e.descendant? (j :: q₂) = some old₂)
    (hij : i < j) :
    ∃ a m₁ b m₂ c, bs = a ++ m₁ ++ b ++ m₂ ++ c ∧ Text.IsText a ∧ Text.IsText b ∧
      Text.IsText c ∧ old₁.SpelledBy (p.past a) m₁ ∧
      old₂.SpelledBy (p.past (a ++ m₁ ++ b)) m₂ ∧
      Element.RefillsBoth (i :: q₁) (j :: q₂) p a b c := by
  obtain ⟨ls, child₁, rest, hls, he, hchild₁⟩ := Element.descendant?_cons_iff.mp h₁
  obtain ⟨ls₂, child₂, rs₂, hls₂, he₂, hchild₂⟩ := Element.descendant?_cons_iff.mp h₂
  have hrest : rest[j - i - 1]? = some child₂.toNode := by
    have hj : e.children[j]? = some child₂.toNode := by simp [he₂, ← hls₂]
    have hsucc : j - ls.length = j - i - 1 + 1 := by omega
    rwa [he, List.getElem?_append_right (by omega), hsucc, List.getElem?_cons_succ] at hj
  obtain ⟨ms, rs, hms, rfl⟩ := Node.exists_split hrest
  -- the bytes: the tag, the children before, the first child, those between, and so on
  obtain ⟨tag, body, close, rfl, htag, hclose, hb, htags⟩ := h.tags (by simp [he])
  rw [he] at hb
  obtain ⟨bl, mid₁, body, rfl, hl, hmid₁, hb⟩ := contents_element_iff.mp hb
  obtain ⟨bm, mid₂, br, rfl, hm, hmid₂, hr⟩ := contents_element_iff.mp hb
  obtain ⟨a₁, m₁, b₁, rfl, ha₁, hb₁, hold₁, hfill₁⟩ := hmid₁.refills hchild₁
  obtain ⟨a₂, m₂, b₂, rfl, ha₂, hb₂, hold₂, hfill₂⟩ := hmid₂.refills hchild₂
  refine ⟨tag ++ bl ++ a₁, m₁, b₁ ++ bm ++ a₂, m₂, b₂ ++ br ++ close, by simp,
    (htag.append hl.isText).append ha₁, (hb₁.append hm.isText).append ha₂,
    (hb₂.append hr.isText).append hclose, ?_, ?_, ?_⟩
  · rwa [Position.past_append, Position.past_append]
  · simpa [Position.past_append] using hold₂
  · intro new₁ new₂ mid₁ mid₂ hnew₁ hnew₂
    rw [Position.past_append, Position.past_append] at hnew₁
    obtain ⟨child₁', hchild₁', hat₁, _⟩ := hfill₁ _ new₁ mid₁ hnew₁
    obtain ⟨ms', hm', hlength, _⟩ :=
      hm.relocated ((p.past tag).past (bl ++ (a₁ ++ mid₁ ++ b₁)))
    obtain ⟨child₂', hchild₂', hat₂, _⟩ :=
      hfill₂ (((p.past tag).past (bl ++ (a₁ ++ mid₁ ++ b₁))).past bm) new₂ mid₂
        (by simpa [Position.past_append] using hnew₂)
    obtain ⟨rs', hr', _⟩ := hr.relocate
      (((p.past tag).past (bl ++ (a₁ ++ mid₁ ++ b₁))).past (bm ++ (a₂ ++ mid₂ ++ b₂)))
    have hspelled := htags p _ _ (contents_element_iff.mpr ⟨bl, _, _, rfl, hl, hchild₁',
      contents_element_iff.mpr ⟨bm, _, br, rfl, hm', hchild₂', hr'⟩⟩)
    have hbytes : tag ++ (bl ++ (a₁ ++ mid₁ ++ b₁) ++ (bm ++ (a₂ ++ mid₂ ++ b₂) ++ br)) ++ close =
        tag ++ bl ++ a₁ ++ mid₁ ++ (b₁ ++ bm ++ a₂) ++ mid₂ ++ (b₂ ++ br ++ close) := by simp
    rw [hbytes] at hspelled
    refine ⟨_, hspelled, Element.descendant?_cons_iff.mpr ⟨ls, child₁', _, hls, rfl, hat₁⟩,
      Element.descendant?_cons_iff.mpr ⟨ls ++ child₁'.toNode :: ms', child₂', rs', ?_, ?_, hat₂⟩⟩
    · simp only [List.length_append, List.length_cons]
      omega
    · simp

/-- Two elements of a document have texts of their own, which may be others. -/
theorem Document.SpelledBy.refills_both {d : Document} {old₁ old₂ : Element} {s : String}
    {r q₁ q₂ : Path} {i j : Nat} (h : d.SpelledBy (Text.bytes s))
    (h₁ : d.element? (r ++ i :: q₁) = some old₁) (h₂ : d.element? (r ++ j :: q₂) = some old₂)
    (hij : i < j) :
    ∃ a m₁ b m₂ c : String, s = a ++ m₁ ++ b ++ m₂ ++ c ∧
      old₁.SpelledBy (Position.start.past (Text.bytes a)) (Text.bytes m₁) ∧
      old₂.SpelledBy (Position.start.past (Text.bytes (a ++ m₁ ++ b))) (Text.bytes m₂) ∧
      ∀ (new₁ new₂ : Element) (w₁ w₂ : String),
        new₁.SpelledBy (Position.start.past (Text.bytes a)) (Text.bytes w₁) →
        new₂.SpelledBy (Position.start.past (Text.bytes (a ++ w₁ ++ b))) (Text.bytes w₂) →
        ∃ d' : Document, d'.SpelledBy (Text.bytes (a ++ w₁ ++ b ++ w₂ ++ c)) ∧
          d'.element? (r ++ i :: q₁) = some new₁ ∧ d'.element? (r ++ j :: q₂) = some new₂ := by
  unfold Document.element? at h₁ h₂
  rw [Element.descendant?_append] at h₁ h₂
  obtain ⟨fork, hfork, h₁⟩ := Option.bind_eq_some_iff.mp h₁
  rw [hfork, Option.bind_some] at h₂
  obtain ⟨pre, mid, post, hs, ⟨pre, rfl⟩, ⟨post, rfl⟩, hspelled, hfill⟩ := h.refills hfork
  obtain ⟨a, m₁, b, m₂, c, rfl, ⟨a, rfl⟩, ⟨b, rfl⟩, ⟨c, rfl⟩, hold₁, hold₂, hboth⟩ :=
    hspelled.refills_both h₁ h₂ hij
  obtain ⟨m₁, rfl⟩ : Text.IsText m₁ := Contents.isText hold₁
  obtain ⟨m₂, rfl⟩ : Text.IsText m₂ := Contents.isText hold₂
  refine ⟨pre ++ a, m₁, b, m₂, c ++ post, Text.bytes_injective (by simpa using hs),
    by simpa [Position.past_append] using hold₁, by simpa [Position.past_append] using hold₂, ?_⟩
  intro new₁ new₂ w₁ w₂ hnew₁ hnew₂
  obtain ⟨fork', hfork', hat₁, hat₂⟩ := hboth new₁ new₂ (Text.bytes w₁) (Text.bytes w₂)
    (by simpa [Position.past_append] using hnew₁) (by simpa [Position.past_append] using hnew₂)
  obtain ⟨d', hd', hat, _⟩ := hfill fork' _ hfork'
  have hat : d'.root.descendant? r = some fork' := hat
  refine ⟨d', by simpa using hd', ?_, ?_⟩
  · unfold Document.element?
    rw [Element.descendant?_append, hat, Option.bind_some, hat₁]
  · unfold Document.element?
    rw [Element.descendant?_append, hat, Option.bind_some, hat₂]

/-! ## Edits as rewritings of a text -/

theorem Element.of_erase_eq {e e' : Element} (h : e.erase = e'.erase) :
    e.name = e'.name ∧ e.attributes = e'.attributes ∧
      Node.mapSpansAll (fun _ => .nowhere) e.children =
        Node.mapSpansAll (fun _ => .nowhere) e'.children := by
  simp only [Element.erase, Element.mapSpans, Element.mk.injEq] at h
  exact ⟨h.1, h.2.1, h.2.2.1⟩

/-- What an edit writes does not depend on where the element stands. -/
theorem Element.write_withText_of_erase_eq {e e' : Element} (h : e.erase = e'.erase)
    (a : Attribute) (dialect : Dialect) :
    (e.withText a dialect).write = (e'.withText a dialect).write := by
  obtain ⟨hname, hattributes, _⟩ := Element.of_erase_eq h
  unfold Element.withText
  rw [hname, hattributes]
  rfl

namespace Document

variable {d d' : Document} {tags : TagTable} {path : Path} {t : Target} {dialect : Dialect}
  {limits : Limits} {s s' : String}

/-- The text with the edit for a target applied to it. -/
def rewrite (d : Document) (t : Target) (dialect : Dialect) (source : String) :
    Except Error String := do
  let edit ← d.hoist t dialect
  edit.patch.apply source

/-- A target is one wherever its element has got to. -/
theorem target?_of_erase_eq {e old : Element} (ht : d.target? tags path = some t)
    (hold : d.element? t.element = some old) (hat : d'.element? t.element = some e)
    (herase : e.erase = old.erase) : d'.target? tags path = some t := by
  obtain ⟨i, parent, n, rfl, hparent, hn, hvisible, hname, htag, htext⟩ :=
    target?_eq_some_iff.mp ht
  obtain rfl : parent = old := Option.some.inj (hparent.symm.trans hold)
  obtain ⟨hsame, _, hchildren⟩ := Element.of_erase_eq herase
  have hinner : e.innerText = parent.innerText := by
    unfold Element.innerText
    rw [← Node.innerTextAll_mapSpansAll (fun _ => .nowhere) e.children, hchildren,
      Node.innerTextAll_mapSpansAll]
  have hchild : (e.children[i]?).map (Node.mapSpans fun _ => .nowhere) =
      some (n.mapSpans fun _ => .nowhere) := by
    rw [← List.getElem?_map, ← Node.mapSpansAll_eq_map, hchildren, Node.mapSpansAll_eq_map,
      List.getElem?_map, hn]
    rfl
  obtain ⟨n', hn', heq⟩ := Option.map_eq_some_iff.mp hchild
  refine target?_eq_some_iff.mpr ⟨i, e, n', rfl, hat, hn', ?_, ?_, ?_, ?_⟩
  · rw [← Node.isVisibleText_mapSpans (fun _ => .nowhere), heq, Node.isVisibleText_mapSpans,
      hvisible]
  · rw [hsame, hname]
  · rw [hsame, htag]
  · rw [hinner, htext]

/-- Wherever the element of a target has got to, rewriting replaces what spells it there, and
nothing else. -/
theorem rewrite_of_erase_eq {e old : Element} {before middle : String} (htags : tags.Writable)
    (ht : d.target? tags path = some t) (hold : d.element? t.element = some old)
    (hat : d'.element? t.element = some e) (herase : e.erase = old.erase)
    (h : e.SpelledBy (Position.start.past (Text.bytes before)) (Text.bytes middle))
    (dialect : Dialect) (after : String) : d'.rewrite t dialect (before ++ middle ++ after) =
      .ok (before ++ (old.withText t.attribute dialect).write ++ after) := by
  obtain ⟨edit, hedit⟩ := hoist_target htags (target?_of_erase_eq ht hold hat herase) dialect
  obtain ⟨e', he', _, _, rfl⟩ := hoist_eq_ok_iff.mp hedit
  obtain rfl : e' = e := Option.some.inj (he'.symm.trans hat)
  unfold rewrite
  rw [hedit, ← Element.write_withText_of_erase_eq herase]
  exact h.apply_patch after _

/-- Where attributes may repeat, a rewritten text is read as whatever it spells, unless it
is too long. -/
theorem ofText_rewrite (hrepeats : limits.allowRepeats = true) (hd : ofText limits s = .ok d)
    (ht : d.target? tags path = some t) (hs' : d.rewrite t dialect s = .ok s')
    (hsize : s'.utf8ByteSize ≤ limits.maxSize) (hd' : d'.SpelledBy (Text.bytes s')) :
    ofText limits s' = .ok d' := by
  have hlimits : limits.whileEditing = limits := by
    unfold Limits.whileEditing
    rw [← hrepeats]
  obtain ⟨edit, hedit, hp⟩ := exists_of_bind_eq_ok hs'
  obtain ⟨_, d'', hp', hd'', _, _, hread⟩ := ofText_hoist (ofText_whileEditing hd) ht hedit
  obtain rfl := Except.ok.inj (hp.symm.trans hp')
  obtain rfl := hd''.unique hd'
  rw [hlimits] at hread
  exact hread hsize

/-! ## Two edits -/

variable {p₁ p₂ : Path} {t₁ t₂ : Target}

/-- Two edits, the one to the element that comes first in the text named first. -/
theorem rewrites_of_lt {r q₁ q₂ : Path} {i j : Nat} (hrepeats : limits.allowRepeats = true)
    (hd : ofText limits s = .ok d) (htags : tags.Writable) (ht₁ : d.target? tags p₁ = some t₁)
    (ht₂ : d.target? tags p₂ = some t₂) (hfork₁ : t₁.element = r ++ i :: q₁)
    (hfork₂ : t₂.element = r ++ j :: q₂) (hij : i < j) (dialect : Dialect) :
    ∃ s₁ s₂ s', d.rewrite t₁ dialect s = .ok s₁ ∧ d.rewrite t₂ dialect s = .ok s₂ ∧
      (s₁.utf8ByteSize ≤ limits.maxSize → ∃ d₁, ofText limits s₁ = .ok d₁ ∧
        d₁.target? tags p₂ = some t₂ ∧ d₁.rewrite t₂ dialect s₁ = .ok s') ∧
      (s₂.utf8ByteSize ≤ limits.maxSize → ∃ d₂, ofText limits s₂ = .ok d₂ ∧
        d₂.target? tags p₁ = some t₁ ∧ d₂.rewrite t₁ dialect s₂ = .ok s') := by
  obtain ⟨_, hspelled, _⟩ := parse_eq_ok_iff.mp hd
  obtain ⟨_, old₁, _, _, hold₁, _, _, hattribute₁, htag₁, _⟩ := target?_eq_some_iff.mp ht₁
  obtain ⟨_, old₂, _, _, hold₂, _, _, hattribute₂, htag₂, _⟩ := target?_eq_some_iff.mp ht₂
  have hname₁ : IsName t₁.attribute.name := htags.isName hattribute₁
  have hname₂ : IsName t₂.attribute.name := htags.isName hattribute₂
  obtain ⟨a, m₁, b, m₂, c, rfl, hspelled₁, hspelled₂, hboth⟩ :=
    hspelled.refills_both (hfork₁ ▸ hold₁) (hfork₂ ▸ hold₂) hij
  rw [← hfork₁, ← hfork₂] at hboth
  have hassoc : ∀ x y z : String, a ++ x ++ (b ++ y ++ z) = a ++ x ++ b ++ y ++ z := by
    intro x y z
    simp only [String.append_assoc]
  -- each edit by itself
  have hs₁ := rewrite_of_erase_eq htags ht₁ hold₁ hold₁ rfl hspelled₁ dialect (b ++ m₂ ++ c)
  have hs₂ := rewrite_of_erase_eq htags ht₂ hold₂ hold₂ rfl hspelled₂ dialect c
  -- the first edit moves the second element, the second leaves the first where it is
  obtain ⟨e₂, hmoved, herase⟩ := hspelled₂.relocate (Position.start.past
    (Text.bytes (a ++ (old₁.withText t₁.attribute dialect).write ++ b)))
  obtain ⟨d₁, hd₁, _, hat₂⟩ := hboth _ e₂ _ m₂ (hspelled₁.hoisted hname₁ dialect) hmoved
  obtain ⟨d₂, hd₂, hat₁, _⟩ := hboth old₁ _ m₁ _ hspelled₁ (hspelled₂.hoisted hname₂ dialect)
  have hs₁₂ := rewrite_of_erase_eq htags ht₂ hold₂ hat₂ herase hmoved dialect c
  have hs₂₁ := rewrite_of_erase_eq htags ht₁ hold₁ hat₁ rfl hspelled₁ dialect
    (b ++ (old₂.withText t₂.attribute dialect).write ++ c)
  rw [hassoc, hassoc] at hs₁ hs₂₁
  refine ⟨_, _, _, hs₁, hs₂, fun hsize => ⟨d₁, ?_, ?_, hs₁₂⟩, fun hsize => ⟨d₂, ?_, ?_, hs₂₁⟩⟩
  · exact ofText_rewrite hrepeats hd ht₁ hs₁ hsize hd₁
  · exact target?_of_erase_eq ht₂ hold₂ hat₂ herase
  · exact ofText_rewrite hrepeats hd ht₂ hs₂ hsize hd₂
  · exact target?_of_erase_eq ht₁ hold₁ hat₁ rfl

/-- Edits to elements neither of which is inside the other commute. After the one, the text
is read, unless it is too long, as a document that has the other target where it was, and
the other edit leads to the same text in either order. -/
theorem rewrites_commute (hrepeats : limits.allowRepeats = true)
    (hd : ofText limits s = .ok d) (htags : tags.Writable) (ht₁ : d.target? tags p₁ = some t₁)
    (ht₂ : d.target? tags p₂ = some t₂) (hapart : ¬ t₁.element <+: t₂.element)
    (hapart' : ¬ t₂.element <+: t₁.element) (dialect : Dialect) :
    ∃ s₁ s₂ s', d.rewrite t₁ dialect s = .ok s₁ ∧ d.rewrite t₂ dialect s = .ok s₂ ∧
      (s₁.utf8ByteSize ≤ limits.maxSize → ∃ d₁, ofText limits s₁ = .ok d₁ ∧
        d₁.target? tags p₂ = some t₂ ∧ d₁.rewrite t₂ dialect s₁ = .ok s') ∧
      (s₂.utf8ByteSize ≤ limits.maxSize → ∃ d₂, ofText limits s₂ = .ok d₂ ∧
        d₂.target? tags p₁ = some t₁ ∧ d₂.rewrite t₁ dialect s₂ = .ok s') := by
  obtain ⟨r, i, j, q₁, q₂, hij, hfork₁, hfork₂⟩ := Path.exists_fork hapart hapart'
  rcases Nat.lt_or_gt_of_ne hij with hlt | hlt
  · exact rewrites_of_lt hrepeats hd htags ht₁ ht₂ hfork₁ hfork₂ hlt dialect
  · obtain ⟨s₂, s₁, s', hs₂, hs₁, hsecond, hfirst⟩ :=
      rewrites_of_lt hrepeats hd htags ht₂ ht₁ hfork₂ hfork₁ hlt dialect
    exact ⟨s₁, s₂, s', hs₁, hs₂, hfirst, hsecond⟩

/-- Two elements on different lines and levels, of which the first one gets longer. -/
def pairSource : String :=
  "<W><Label a='1' >x</Label>\n<P>y<Button>é &lt;</Button></P></W>"

def pairDocument : Document :=
  ⟨[], ⟨"W", [], [
    .element "Label" [⟨"a", "1", .single⟩] [.leaf .text "x" ⟨⟨17, 1, 18⟩, ⟨18, 1, 19⟩⟩] .paired
      ⟨⟨3, 1, 4⟩, ⟨26, 1, 27⟩⟩,
    .leaf .text "\n" ⟨⟨26, 1, 27⟩, ⟨27, 2, 1⟩⟩,
    .element "P" [] [.leaf .text "y" ⟨⟨30, 2, 4⟩, ⟨31, 2, 5⟩⟩,
      .element "Button" [] [.leaf .text "é <" ⟨⟨39, 2, 13⟩, ⟨46, 2, 19⟩⟩] .paired
        ⟨⟨31, 2, 5⟩, ⟨55, 2, 28⟩⟩] .paired ⟨⟨27, 2, 1⟩, ⟨59, 2, 32⟩⟩],
    .paired, ⟨⟨0, 1, 1⟩, ⟨63, 2, 36⟩⟩⟩, []⟩

theorem rewrites_commute_pair :
    let limits : Limits := { allowRepeats := true }
    let label : Target := ⟨[0], "Label", "Content", "x"⟩
    let button : Target := ⟨[2, 1], "Button", "Content", "é <"⟩
    ofText limits pairSource = .ok pairDocument ∧
    pairDocument.target? .builtin [0, 0] = some label ∧
    pairDocument.target? .builtin [2, 1, 0] = some button ∧
    ∃ s₁ s₂ d₁ d₂ s', pairDocument.rewrite label .xml pairSource = .ok s₁ ∧
      ofText limits s₁ = .ok d₁ ∧ d₁.target? .builtin [2, 1, 0] = some button ∧
      d₁.rewrite button .xml s₁ = .ok s' ∧
      pairDocument.rewrite button .xml pairSource = .ok s₂ ∧
      ofText limits s₂ = .ok d₂ ∧ d₂.target? .builtin [0, 0] = some label ∧
      d₂.rewrite label .xml s₂ = .ok s' := by
  intro limits label button
  have hd : ofText limits pairSource = .ok pairDocument :=
    toOption_eq_some_iff.mp (by decide +kernel)
  have ht₁ : pairDocument.target? .builtin [0, 0] = some label := by decide +kernel
  have ht₂ : pairDocument.target? .builtin [2, 1, 0] = some button := by decide +kernel
  have hsize : ∀ t ∈ [label, button], ∀ s ∈ (pairDocument.rewrite t .xml pairSource).toOption,
      s.utf8ByteSize ≤ limits.maxSize := by
    decide +kernel
  obtain ⟨s₁, s₂, s', hs₁, hs₂, hfirst, hsecond⟩ := rewrites_commute rfl hd
    TagTable.builtin_writable ht₁ ht₂ (by decide) (by decide) .xml
  obtain ⟨d₁, hd₁, hstill₂, hs₁₂⟩ :=
    hfirst (hsize label (by simp) s₁ (toOption_eq_some_iff.mpr hs₁))
  obtain ⟨d₂, hd₂, hstill₁, hs₂₁⟩ :=
    hsecond (hsize button (by simp) s₂ (toOption_eq_some_iff.mpr hs₂))
  exact ⟨hd, ht₁, ht₂, s₁, s₂, d₁, d₂, s', hs₁, hd₁, hstill₂, hs₁₂, hs₂, hd₂, hstill₁, hs₂₁⟩

end Document

end TextHoist
