/-
  Attributes that repeat, and the error that tells of them. A text that is read while
  attributes may repeat is read the same where they must not, unless a tag has one name
  twice. Then the first such name in the order of the text is the one reported, at the
  attribute that has it for the second time, and no other error comes before
  (`Document.parse_repeated`).

  `Node.repeated?` finds that name in a tree. In a tree that has none, an element put in
  place of another brings in its own repeated names and no others
  (`Element.repeated?_replace`).
-/
import TextHoist.Proofs.Markup.Bounds

namespace TextHoist

/-! ## The first name that repeats -/

/-- The first of some attributes' names that has been seen, or that an earlier one has. -/
def Attribute.repeated? (seen : List Attribute) : List Attribute → Option String
  | [] => none
  | a :: as => if seen.any (·.name == a.name) then some a.name else repeated? (a :: seen) as

theorem Attribute.repeated?_eq_none_iff {seen as : List Attribute} :
    Attribute.repeated? seen as = none ↔ Unrepeated seen as := by
  induction as generalizing seen with
  | nil => simp [Attribute.repeated?, Unrepeated]
  | cons a as ih =>
    rw [Attribute.repeated?, unrepeated_cons_iff, ← ih]
    cases seen.any (·.name == a.name) <;> simp

/-- One more attribute in front can only make its own name repeat. -/
theorem Attribute.repeated?_append {seen as : List Attribute} (a : Attribute)
    (h : Unrepeated seen as) : Attribute.repeated? (seen ++ [a]) as =
      if as.any (·.name == a.name) then some a.name else none := by
  induction as generalizing seen with
  | nil => rfl
  | cons b as ih =>
    obtain ⟨hb, has⟩ := unrepeated_cons_iff.mp h
    have hany : (seen ++ [a]).any (·.name == b.name) = (b.name == a.name) := by
      rw [List.any_append, hb, Bool.false_or, List.any_cons, List.any_nil, Bool.or_false]
      exact BEq.comm
    rw [Attribute.repeated?, hany, List.any_cons]
    cases hname : b.name == a.name with
    | true => simp [eq_of_beq hname]
    | false =>
      rw [← List.cons_append, ih has]
      simp

namespace Node

mutual

/-- The first name, in the order of the text, that repeats within a tag. -/
def repeated? : Node → Option String
  | element _ attributes children _ _ =>
    (Attribute.repeated? [] attributes).or (repeatedAll? children)
  | leaf .. => none

def repeatedAll? : List Node → Option String
  | [] => none
  | n :: ns => n.repeated?.or (repeatedAll? ns)

end

theorem repeatedAll?_append (ms ns : List Node) :
    repeatedAll? (ms ++ ns) = (repeatedAll? ms).or (repeatedAll? ns) := by
  induction ms with
  | nil => rfl
  | cons m ms ih => rw [List.cons_append, repeatedAll?, repeatedAll?, ih, Option.or_assoc]

mutual

theorem repeated?_mapSpans (f : Span → Span) : ∀ n : Node, (n.mapSpans f).repeated? = n.repeated?
  | element _ _ children _ _ => by
    rw [mapSpans, repeated?, repeated?, repeatedAll?_mapSpansAll f children]
  | leaf .. => rfl

theorem repeatedAll?_mapSpansAll (f : Span → Span) :
    ∀ ns : List Node, repeatedAll? (mapSpansAll f ns) = repeatedAll? ns
  | [] => rfl
  | n :: ns => by
    rw [mapSpansAll, repeatedAll?, repeatedAll?, repeated?_mapSpans f n,
      repeatedAll?_mapSpansAll f ns]

end

end Node

theorem Element.SameUntil.repeated?_eq {a : Nat} {e e' : Element} (h : e.SameUntil a e') :
    e.toNode.repeated? = e'.toNode.repeated? := by
  rw [← Node.repeated?_mapSpans (Span.keepUntil a) e.toNode, ← Element.toNode_mapSpans, h,
    Element.toNode_mapSpans, Node.repeated?_mapSpans]

/-- Where no name repeated, only the new element can bring one in. -/
theorem Element.repeated?_replace {e old new : Element} {path : Path}
    (h : e.toNode.repeated? = none) (hold : e.descendant? path = some old) :
    (e.replace path new).toNode.repeated? = new.toNode.repeated? := by
  induction path generalizing e with
  | nil => rfl
  | cons i path ih =>
    obtain ⟨ls, child, rs, rfl, he, hchild⟩ := Element.descendant?_cons_iff.mp hold
    rw [Element.replace_cons he]
    have h : (Attribute.repeated? [] e.attributes).or (Node.repeatedAll? e.children) = none := h
    rw [he, Node.repeatedAll?_append, Node.repeatedAll?] at h
    simp only [Option.or_eq_none_iff] at h
    obtain ⟨hattributes, hls, hmid, hrs⟩ := h
    show (Attribute.repeated? [] e.attributes).or (Node.repeatedAll? (ls ++ _ :: rs)) = _
    rw [Node.repeatedAll?_append, Node.repeatedAll?, hattributes, hls, hrs, ih hmid hchild]
    simp

theorem Limits.admits_iff_repeated? {limits : Limits} (hstrict : limits.allowRepeats = false)
    {as : List Attribute} : limits.Admits as ↔ Attribute.repeated? [] as = none := by
  rw [Attribute.repeated?_eq_none_iff, unrepeated_nil_iff, Limits.Admits, hstrict]
  simp

mutual

/-- Limits that admit no repeated name ask for that besides what they ask anyway. -/
theorem Node.within_iff_repeated? {limits : Limits} (hstrict : limits.allowRepeats = false)
    {depth : Nat} : ∀ n : Node, n.Within limits depth ↔
      n.Within limits.whileEditing depth ∧ n.repeated? = none
  | .element _ as children form _ => by
    have hloose : limits.whileEditing.Admits as := .inl rfl
    simp only [Node.Within, Node.repeated?, Option.or_eq_none_iff, hloose,
      Limits.admits_iff_repeated? hstrict, Node.withinAll_iff_repeated? hstrict children]
    constructor
    · rintro ⟨has, hdepth, hchildren, hnone⟩
      exact ⟨⟨trivial, hdepth, hchildren⟩, has, hnone⟩
    · rintro ⟨⟨_, hdepth, hchildren⟩, has, hnone⟩
      exact ⟨has, hdepth, hchildren, hnone⟩
  | .leaf .. => by simp [Node.Within, Node.repeated?]

theorem Node.withinAll_iff_repeated? {limits : Limits} (hstrict : limits.allowRepeats = false)
    {depth : Nat} : ∀ ns : List Node, Node.WithinAll limits depth ns ↔
      Node.WithinAll limits.whileEditing depth ns ∧ Node.repeatedAll? ns = none
  | [] => by simp [Node.WithinAll, Node.repeatedAll?]
  | n :: ns => by
    simp only [Node.WithinAll, Node.repeatedAll?, Option.or_eq_none_iff,
      Node.within_iff_repeated? hstrict n, Node.withinAll_iff_repeated? hstrict ns]
    exact and_and_and_comm

end

/-! ## The error -/

/-- Where bytes stand at a position, the error tells of a repeated name and points at an
attribute among them that has it. -/
def Error.TellsRepeat (e : Error) (p : Position) (bs : List UInt8) (name : String) : Prop :=
  ∃ (pre mid post : List UInt8) (a : Attribute), bs = pre ++ mid ++ post ∧ a.SpelledBy mid ∧
    a.name = name ∧ e = ⟨.duplicateAttribute name, ⟨p.past pre, p.past (pre ++ mid)⟩, none⟩

namespace Error.TellsRepeat

variable {e : Error} {p : Position} {bs : List UInt8} {name : String}

theorem prepend {cs : List UInt8} (h : e.TellsRepeat (p.past cs) bs name) :
    e.TellsRepeat p (cs ++ bs) name := by
  obtain ⟨pre, mid, post, a, rfl, ha, hname, rfl⟩ := h
  refine ⟨cs ++ pre, mid, post, a, by simp, ha, hname, ?_⟩
  simp only [List.append_assoc, Position.past_append]

theorem append (h : e.TellsRepeat p bs name) (cs : List UInt8) :
    e.TellsRepeat p (bs ++ cs) name := by
  obtain ⟨pre, mid, post, a, rfl, ha, hname, rfl⟩ := h
  exact ⟨pre, mid, post ++ cs, a, by simp, ha, hname, rfl⟩

end Error.TellsRepeat

/-! ## Reading up to the error -/

variable {limits : Limits} {c c' : Cursor} {name : String}

namespace Cursor

theorem readAttributes_repeated {seen as : List Attribute} {attributes : List UInt8}
    (hl : AttributeList attributes as) (hp : c.Passes attributes c')
    (h : Attribute.repeated? seen as = some name) :
    ∃ e : Error, readAttributes false seen c.skipBlank = .error e ∧
      e.TellsRepeat c.position attributes name := by
  induction hl generalizing c seen with
  | nil => cases h
  | @cons gap bs cs a as hgap ha _ ih =>
    obtain ⟨c₂, hp', hp₃⟩ := hp.split
    obtain ⟨c₁, hp₁, hp₂⟩ := hp'.split
    rw [readAttributes_step hgap ha hp₁ hp₂]
    rw [Attribute.repeated?] at h
    cases hseen : seen.any (·.name == a.name) with
    | true =>
      rw [hseen, if_pos rfl] at h
      refine ⟨_, if_pos rfl, gap, bs, cs, a, rfl, ha, Option.some.inj h, ?_⟩
      rw [hp₁.position, hp'.position, Option.some.inj h]
    | false =>
      rw [hseen, if_neg (by decide)] at h
      obtain ⟨e, he, htells⟩ := ih hp₃ h
      rw [hp'.position] at htells
      exact ⟨e, he, htells.prepend⟩

theorem readTag_repeated {tagName : String} {as : List Attribute} {form : TagForm}
    {bs : List UInt8} (ht : OpeningTag tagName as form bs) (hp : c.Passes bs c')
    (h : Attribute.repeated? [] as = some name) :
    ∃ e : Error, readTag false c = .error e ∧ e.TellsRepeat c.position bs name := by
  obtain ⟨attributes, gap, hname, hl, hs, hgap, rfl⟩ := ht
  obtain ⟨c₄, hp, hp₅⟩ := hp.split
  obtain ⟨c₃, hp, hp₄⟩ := hp.split
  obtain ⟨c₂, hp, hp₃⟩ := hp.split
  obtain ⟨c₁, hp₁, hp₂⟩ := hp.split
  have hh : Halts isNameByte c₂.rest := by
    rw [hp₃.1, hp₄.1, hp₅.1, ← List.append_assoc, ← List.append_assoc]
    exact OpeningTag.name_halts hs hgap
  obtain ⟨e, he, htells⟩ := readAttributes_repeated hl hp₃ h
  rw [hp.position] at htells
  rw [readTag_of_name hname hp₁ hp₂ hh, he]
  exact ⟨e, rfl, (htells.prepend.append gap).append form.ending⟩

end Cursor

namespace Draft

/-- Reading on from here comes to an error that tells of a name that repeats in the bytes. -/
def MeetsRepeat (limits : Limits) (draft : Draft) (c : Cursor) (bs : List UInt8)
    (name : String) : Prop :=
  ∃ e : Error, complete limits draft c = .error e ∧ e.TellsRepeat c.position bs name

theorem MeetsRepeat.prepend {draft draft' : Draft} {bs cs : List UInt8}
    (hrun : complete limits draft c = complete limits draft' c') (hp : c.Passes cs c')
    (h : MeetsRepeat limits draft' c' bs name) : MeetsRepeat limits draft c (cs ++ bs) name := by
  obtain ⟨e, he, htells⟩ := h
  rw [hp.position] at htells
  exact ⟨e, hrun.trans he, htells.prepend⟩

theorem MeetsRepeat.append {draft : Draft} {bs : List UInt8}
    (h : MeetsRepeat limits draft c bs name) (cs : List UInt8) :
    MeetsRepeat limits draft c (bs ++ cs) name := by
  obtain ⟨e, he, htells⟩ := h
  exact ⟨e, he, htells.append cs⟩

variable {leading : List Node}

/-- A tag that has a name twice is as far as the reading goes. -/
theorem meetsRepeat_tag (hstrict : limits.allowRepeats = false) (stack : List OpenElement)
    {tagName : String} {as : List Attribute} {form : TagForm} {bs : List UInt8}
    (ht : OpeningTag tagName as form bs) (hp : c.Passes bs c')
    (h : Attribute.repeated? [] as = some name) :
    MeetsRepeat limits (building leading stack) c bs name := by
  obtain ⟨e, he, htells⟩ := Cursor.readTag_repeated ht hp h
  refine ⟨e, complete_of_error ?_, htells⟩
  obtain ⟨b, cs, rfl, hb⟩ := ht.eq_cons
  rw [step_eq_enter hp.1 hb]
  unfold enter
  rw [hstrict, he]
  rfl

/-- In an element of two tags, a name repeats in the first tag or in the body. -/
theorem meetsRepeat_pair {c₁ : Cursor} (hstrict : limits.allowRepeats = false)
    (stack : List OpenElement) {tagName : String} {as : List Attribute} {children : List Node}
    {tag body : List UInt8} (ht : OpeningTag tagName as .paired tag)
    (hdepth : stack.length + 1 ≤ limits.maxDepth) (hp : c.Passes tag c₁)
    (hbody : ∀ o : OpenElement, Node.repeatedAll? children = some name →
      MeetsRepeat limits (building leading (o :: stack)) c₁ body name)
    (hname : (Attribute.repeated? [] as).or (Node.repeatedAll? children) = some name) :
    MeetsRepeat limits (building leading stack) c (tag ++ body) name := by
  cases has : Attribute.repeated? [] as with
  | some first =>
    rw [has] at hname
    cases hname
    exact (meetsRepeat_tag hstrict stack ht hp has).append body
  | none =>
    rw [has, Option.none_or] at hname
    have hadm := (Limits.admits_iff_repeated? hstrict).mpr has
    exact .prepend (complete_of_turn (.opening ht hadm hdepth hp)) hp (hbody _ hname)

/-- In the contents of an element, the reading goes as far as the first tag that has a name
twice. -/
theorem meetsRepeat_contents (hstrict : limits.allowRepeats = false) {p : Position}
    {bs : List UInt8} {ns : List Node} (h : Contents .inside p bs ns) {o : OpenElement}
    {outer : List OpenElement} (hpos : c.position = p) (hp : c.Passes bs c')
    (hh : Halts Zone.inside.isTextByte c'.rest)
    (hw : Node.WithinAll limits.whileEditing (outer.length + 1) ns)
    (hname : Node.repeatedAll? ns = some name) :
    MeetsRepeat limits (building leading (o :: outer)) c bs name := by
  induction h generalizing c c' o outer with
  | nil => cases hname
  | leaf hl hk _ ih =>
    subst hpos
    obtain ⟨c₁, hp₁, hp₂⟩ := hp.split
    have hleaf := passesLeaf_of_spelled hl hp₁ fun ht => by
      rw [hp₂.1]
      exact (hk ht).append hh
    exact .prepend (complete_of_turn (.inner hleaf)) hp₁ (ih hp₁.position hp₂ hh hw.2 hname)
  | @single _ _ cs _ as _ _ ht _ ih =>
    subst hpos
    obtain ⟨c₁, hp₁, hp₂⟩ := hp.split
    rw [Node.repeatedAll?, Node.repeated?, Node.repeatedAll?, Option.or_none] at hname
    cases has : Attribute.repeated? [] as with
    | some first =>
      rw [has] at hname
      cases hname
      exact (meetsRepeat_tag hstrict _ ht hp₁ has).append cs
    | none =>
      rw [has] at hname
      have hadm := (Limits.admits_iff_repeated? hstrict).mpr has
      exact .prepend (complete_of_turn (.single ht hadm hp₁)) hp₁
        (ih hp₁.position hp₂ hh hw.2 hname)
  | @pair _ tag body close cs _ as children _ _ ht hb hc _ ihbody ih =>
    subst hpos
    obtain ⟨c₃, hp₃, hp₄⟩ := hp.split
    obtain ⟨c₂, hp₂, hclose⟩ := hp₃.split
    obtain ⟨c₁, hp₁, hbody⟩ := hp₂.split
    obtain ⟨⟨_, hdepth, hchildren⟩, hns⟩ := hw
    have hh₂ := halts_of_closingTag hc hclose
    rw [Node.repeatedAll?, Node.repeated?] at hname
    have hdepth : (o :: outer).length + 1 ≤ limits.maxDepth := hdepth rfl
    cases hpair : (Attribute.repeated? [] as).or (Node.repeatedAll? children) with
    | some first =>
      rw [hpair] at hname
      cases hname
      have hinner : ∀ o' : OpenElement, Node.repeatedAll? children = some name →
          MeetsRepeat limits (building leading (o' :: o :: outer)) c₁ body name :=
        fun _ => ihbody hp₁.position hbody hh₂ hchildren
      exact ((meetsRepeat_pair hstrict _ ht hdepth hp₁ hinner hpair).append close).append cs
    | none =>
      rw [hpair, Option.none_or] at hname
      obtain ⟨has, hnone⟩ := Option.or_eq_none_iff.mp hpair
      have hadm := (Limits.admits_iff_repeated? hstrict).mpr has
      have hwithin := (Node.withinAll_iff_repeated? hstrict children).mpr ⟨hchildren, hnone⟩
      have hrun : ∀ o' : OpenElement,
          complete limits (building leading (o' :: o :: outer)) c₁ = _ :=
        fun _ => complete_contents hb hp₁.position hbody hh₂ hwithin
      exact .prepend (complete_pair (o :: outer) ht hadm hdepth hp₁ hrun hc hclose) hp₃
        (ih hp₃.position hp₄ hh hns hname)

theorem meetsRepeat_root (hstrict : limits.allowRepeats = false) {root : Element}
    {bs : List UInt8} (h : root.SpelledBy c.position bs) (hp : c.Passes bs c')
    (hw : root.toNode.Within limits.whileEditing 0)
    (hname : root.toNode.repeated? = some name) :
    MeetsRepeat limits (building leading []) c bs name := by
  obtain ⟨_, hdepth, hchildren⟩ := hw
  have hname : (Attribute.repeated? [] root.attributes).or (Node.repeatedAll? root.children) =
    some name := hname
  obtain ⟨_, ⟨_, hnil, ht⟩ | ⟨hform, tag, body, close, rfl, ht, hb, hc⟩⟩ :=
    Element.spelledBy_iff.mp h
  · rw [hnil, Node.repeatedAll?, Option.or_none] at hname
    exact meetsRepeat_tag hstrict [] ht hp hname
  · obtain ⟨c₂, hp₂, hclose⟩ := hp.split
    obtain ⟨c₁, hp₁, hbody⟩ := hp₂.split
    have hh₂ := halts_of_closingTag hc hclose
    have hinner : ∀ o : OpenElement, Node.repeatedAll? root.children = some name →
        MeetsRepeat limits (building leading [o]) c₁ body name :=
      fun _ => meetsRepeat_contents hstrict hb hp₁.position hbody hh₂ hchildren
    exact (meetsRepeat_pair hstrict [] ht (hdepth hform) hp₁ hinner hname).append close

end Draft

/-- What is read while attributes may repeat is read the same where they must not, if none
does. Otherwise the first name that repeats is reported. -/
theorem Document.parse_repeated {d : Document} {bs : List UInt8}
    (hstrict : limits.allowRepeats = false)
    (h : Document.parse limits.whileEditing bs = .ok d) :
    (d.root.toNode.repeated? = none → Document.parse limits bs = .ok d) ∧
    ∀ name, d.root.toNode.repeated? = some name →
      ∃ e : Error, Document.parse limits bs = .error e ∧ e.TellsRepeat .start bs name := by
  obtain ⟨hsize, hspelled, hwithin⟩ := Document.parse_eq_ok_iff.mp h
  constructor
  · intro hnone
    exact Document.parse_eq_ok_iff.mpr
      ⟨hsize, hspelled, (Node.within_iff_repeated? hstrict _).mpr ⟨hwithin, hnone⟩⟩
  · intro name hname
    obtain ⟨before, root, after, rfl, hleading, hroot, _⟩ := hspelled
    obtain ⟨hp, _⟩ := Cursor.passes_advance (c := .ofBytes (before ++ root ++ after))
      (List.append_nil _).symm
    obtain ⟨c₂, hp₂, _⟩ := hp.split
    obtain ⟨c₁, hbefore, hbody⟩ := hp₂.split
    have hpos : c₁.position = Position.start.past before := hbefore.position
    rw [← hpos] at hroot
    have hh : Halts Zone.outside.isTextByte c₁.rest := by
      obtain ⟨b, cs, rfl, _⟩ := hroot.eq_cons
      rw [hbody.1]
      exact Zone.halts_cons _ _
    have hmargin : Draft.complete limits (.building [] []) (.ofBytes (before ++ root ++ after)) = _ :=
      Draft.complete_margin hleading (.building · []) .leading [] rfl hbefore hh
    obtain ⟨e, he, htells⟩ := (Draft.MeetsRepeat.prepend hmargin hbefore
      (Draft.meetsRepeat_root hstrict hroot hbody hwithin hname)).append after
    refine ⟨e, ?_, htells⟩
    have hcheck : limits.checkSize (before ++ root ++ after).length = .ok () :=
      Limits.checkSize_eq_ok_iff.mpr hsize
    unfold Document.parse
    rw [hcheck]
    exact he

end TextHoist
