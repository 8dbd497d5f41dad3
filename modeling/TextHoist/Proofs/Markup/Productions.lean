/-
  The grammar of markup, production by production. `Contents` says which bytes spell which
  nodes at which position; the productions here know no positions and relate bytes to trees
  without spans. They take nothing from the reader: byte classes, openers and closers are
  written out where they are used. Only references are left to `Reference.decode`.

      document = misc* element misc*
      misc     = a longest run of blanks, a comment, an instruction or a doctype
      element  = '<' name attributes S? '/>'
               | '<' name attributes S? '>' content '</' name S? '>'
      content  = (a longest run without '<', a comment, a CDATA section, an instruction
                  or an element)*

  A tree is derived from some bytes exactly if the bytes spell it somewhere, spans aside
  (`derives_iff`). Each level of paired elements takes bytes of its own, so a reader that
  is allowed as many levels as there are bytes reads all that can be derived
  (`Document.parse_iff_derives`).
-/
import TextHoist.Proofs.Markup.Acceptance

namespace TextHoist

/-- The document without its spans. -/
def Document.erase (d : Document) : Document := d.mapSpans fun _ => .nowhere

namespace Production

/-! ## Names, attributes and blanks -/

/-- Space, tab, carriage return or line feed. -/
def Blank (b : UInt8) : Prop := b ∈ Text.bytes " \t\r\n"

/-- A letter, `_`, `:` or any byte that is not ASCII. -/
def NameStart (b : UInt8) : Prop :=
  ('A'.toUInt8 ≤ b ∧ b ≤ 'Z'.toUInt8) ∨ ('a'.toUInt8 ≤ b ∧ b ≤ 'z'.toUInt8) ∨
    b ∈ Text.bytes "_:" ∨ 0x80 ≤ b

/-- One of those, a digit, `-` or `.`. -/
def NameByte (b : UInt8) : Prop :=
  NameStart b ∨ ('0'.toUInt8 ≤ b ∧ b ≤ '9'.toUInt8) ∨ b ∈ Text.bytes "-."

def Name (name : String) : Prop :=
  ∃ b bs, Text.bytes name = b :: bs ∧ NameStart b ∧ ∀ x ∈ bs, NameByte x

instance (b : UInt8) : Decidable (Blank b) := inferInstanceAs (Decidable (_ ∈ _))

instance (b : UInt8) : Decidable (NameStart b) := inferInstanceAs (Decidable (_ ∨ _))

instance (b : UInt8) : Decidable (NameByte b) := inferInstanceAs (Decidable (_ ∨ _))

instance (name : String) : Decidable (Name name) :=
  match h : Text.bytes name with
  | [] => isFalse fun ⟨b, bs, h', _⟩ => List.cons_ne_nil b bs (h'.symm.trans h)
  | b :: bs =>
    haveI := List.decidableBAll NameByte bs
    decidable_of_decidable_of_iff (p := NameStart b ∧ ∀ x ∈ bs, NameByte x)
      ⟨fun hb => ⟨b, bs, h, hb⟩, fun ⟨_, _, h', hb⟩ => by cases h.symm.trans h'; exact hb⟩

/-- Blanks, or nothing. -/
def Gap (bs : List UInt8) : Prop := ∀ b ∈ bs, Blank b

instance (bs : List UInt8) : Decidable (Gap bs) := inferInstanceAs (Decidable (∀ b ∈ bs, Blank b))

/-- At least one blank. -/
def Space (bs : List UInt8) : Prop := bs ≠ [] ∧ Gap bs

/-- A quoted value without its quote and without `<`, references resolved. -/
inductive Value : List UInt8 → Quote → String → Prop
  | double {raw value : String} : '"'.toUInt8 ∉ Text.bytes raw → '<'.toUInt8 ∉ Text.bytes raw →
      Reference.decode raw = .ok value → Value (Text.bytes ("\"" ++ raw ++ "\"")) .double value
  | single {raw value : String} : '\''.toUInt8 ∉ Text.bytes raw → '<'.toUInt8 ∉ Text.bytes raw →
      Reference.decode raw = .ok value → Value (Text.bytes ("'" ++ raw ++ "'")) .single value

inductive Attr : List UInt8 → Attribute → Prop
  | mk {gap gap' quoted : List UInt8} {name value : String} {quote : Quote} :
      Name name → Gap gap → Gap gap' → Value quoted quote value →
      Attr (Text.bytes name ++ gap ++ Text.bytes "=" ++ gap' ++ quoted) ⟨name, value, quote⟩

/-- Attributes behind others; nothing need stand between them. -/
inductive MoreAttrs : List UInt8 → List Attribute → Prop
  | nil : MoreAttrs [] []
  | cons {gap bs cs : List UInt8} {a : Attribute} {as : List Attribute} :
      Gap gap → Attr bs a → MoreAttrs cs as → MoreAttrs (gap ++ bs ++ cs) (a :: as)

/-- The attributes of a tag, a blank before the first. -/
inductive Attrs : List UInt8 → List Attribute → Prop
  | nil : Attrs [] []
  | cons {gap bs cs : List UInt8} {a : Attribute} {as : List Attribute} :
      Space gap → Attr bs a → MoreAttrs cs as → Attrs (gap ++ bs ++ cs) (a :: as)

/-! ## Nodes -/

/-- What stands between an opener and the first closer behind it. A doctype is closed by the
first `>` outside square brackets, and does not open as a comment does. -/
inductive Delimited : List UInt8 → LeafKind → String → Prop
  | comment {c : String} : ¬ Text.bytes "-->" <:+: Text.bytes c →
      Delimited (Text.bytes ("<!--" ++ c ++ "-->")) .comment c
  | cdata {c : String} : ¬ Text.bytes "]]>" <:+: Text.bytes c →
      Delimited (Text.bytes ("<![CDATA[" ++ c ++ "]]>")) .cdata c
  | instruction {c : String} : ¬ Text.bytes "?>" <:+: Text.bytes c →
      Delimited (Text.bytes ("<?" ++ c ++ "?>")) .instruction c
  | doctype {c : String} : ¬ Text.bytes "<!--" <+: Text.bytes ("<!" ++ c ++ ">") →
      bracketsAfter 0 (Text.bytes c) = some 0 →
      Delimited (Text.bytes ("<!" ++ c ++ ">")) .doctype c

mutual

inductive Elem : List UInt8 → Node → Prop
  | empty {attributes gap : List UInt8} {name : String} {as : List Attribute} :
      Name name → Attrs attributes as → Gap gap →
      Elem (Text.bytes "<" ++ Text.bytes name ++ attributes ++ gap ++ Text.bytes "/>")
        (.element name as [] .empty .nowhere)
  | paired {attributes gap body gap' : List UInt8} {name : String} {as : List Attribute}
      {children : List Node} :
      Name name → Attrs attributes as → Gap gap → Content body children → Gap gap' →
      Elem (Text.bytes "<" ++ Text.bytes name ++ attributes ++ gap ++ Text.bytes ">" ++ body ++
          (Text.bytes "</" ++ Text.bytes name ++ gap' ++ Text.bytes ">"))
        (.element name as children .paired .nowhere)

inductive Content : List UInt8 → List Node → Prop
  | nil : Content [] []
  | text {cs : List UInt8} {raw content : String} {ns : List Node} :
      raw ≠ "" → '<'.toUInt8 ∉ Text.bytes raw → Reference.decode raw = .ok content →
      (∀ b ∈ cs.head?, b = '<'.toUInt8) → Content cs ns →
      Content (Text.bytes raw ++ cs) (.leaf .text content .nowhere :: ns)
  | delimited {bs cs : List UInt8} {kind : LeafKind} {c : String} {ns : List Node} :
      kind ≠ .doctype → Delimited bs kind c → Content cs ns →
      Content (bs ++ cs) (.leaf kind c .nowhere :: ns)
  | element {bs cs : List UInt8} {n : Node} {ns : List Node} :
      Elem bs n → Content cs ns → Content (bs ++ cs) (n :: ns)

end

/-- What stands before and after the root element. -/
inductive Misc : List UInt8 → List Node → Prop
  | nil : Misc [] []
  | blank {cs : List UInt8} {s : String} {ns : List Node} :
      Space (Text.bytes s) → (∀ b ∈ cs.head?, ¬ Blank b) → Misc cs ns →
      Misc (Text.bytes s ++ cs) (.leaf .text s .nowhere :: ns)
  | delimited {bs cs : List UInt8} {kind : LeafKind} {c : String} {ns : List Node} :
      kind ≠ .cdata → Delimited bs kind c → Misc cs ns →
      Misc (bs ++ cs) (.leaf kind c .nowhere :: ns)

/-- The bytes derive the document. -/
inductive Derives : List UInt8 → Document → Prop
  | mk {before bs after : List UInt8} {leading trailing : List Node} {root : Element} :
      Misc before leading → Elem bs root.toNode → Misc after trailing →
      Derives (before ++ bs ++ after) ⟨leading, root, trailing⟩

/-! ## The productions for tags are those of the reader -/

theorem isBlankByte_iff {b : UInt8} : Text.isBlankByte b = true ↔ Blank b := by
  have hbytes : Text.bytes " \t\r\n" =
      [' '.toUInt8, '\t'.toUInt8, '\r'.toUInt8, '\n'.toUInt8] := by
    decide
  simp only [Blank, hbytes, Text.isBlankByte, Bool.or_eq_true, beq_iff_eq, List.mem_cons,
    List.not_mem_nil, or_false, or_assoc]

theorem isNameStart_iff {b : UInt8} : isNameStart b = true ↔ NameStart b := by
  have hbytes : Text.bytes "_:" = ['_'.toUInt8, ':'.toUInt8] := by decide
  simp only [NameStart, hbytes, isNameStart, Bool.or_eq_true, Bool.and_eq_true, decide_eq_true_eq,
    beq_iff_eq, List.mem_cons, List.not_mem_nil, or_false, or_assoc]
  exact or_left_comm

theorem isNameByte_iff {b : UInt8} : isNameByte b = true ↔ NameByte b := by
  have hbytes : Text.bytes "-." = ['-'.toUInt8, '.'.toUInt8] := by decide
  simp only [NameByte, hbytes, isNameByte, Bool.or_eq_true, Bool.and_eq_true, decide_eq_true_eq,
    beq_iff_eq, List.mem_cons, List.not_mem_nil, or_false, or_assoc, isNameStart_iff]

theorem name_iff {name : String} : Name name ↔ IsName name := by
  simp only [Name, IsName, isNameStart_iff, isNameByte_iff]

theorem gap_iff {bs : List UInt8} : Gap bs ↔ Blanks bs := by
  simp only [Gap, Blanks, isBlankByte_iff]

theorem admits_iff {quote : Quote} {raw : String} : quote.Admits raw ↔
    quote.byte ∉ Text.bytes raw ∧ '<'.toUInt8 ∉ Text.bytes raw := by
  constructor
  · intro h
    exact ⟨fun hq => (h _ hq).1 rfl, fun hlt => (h _ hlt).2 rfl⟩
  · intro h b hb
    exact ⟨fun hq => h.1 (hq ▸ hb), fun hlt => h.2 (hlt ▸ hb)⟩

theorem bytes_quoted (mark raw : String) : Text.bytes (mark ++ raw ++ mark) =
    Text.bytes mark ++ (Text.bytes raw ++ Text.bytes mark) := by
  rw [Text.bytes_append, Text.bytes_append, List.append_assoc]

theorem value_iff {bs : List UInt8} {quote : Quote} {value : String} : Value bs quote value ↔
    ∃ raw, quote.Admits raw ∧ Reference.decode raw = .ok value ∧
      bs = [quote.byte] ++ (Text.bytes raw ++ [quote.byte]) := by
  constructor
  · intro h
    cases h with
    | double hq hlt hd => exact ⟨_, admits_iff.mpr ⟨hq, hlt⟩, hd, bytes_quoted "\"" _⟩
    | single hq hlt hd => exact ⟨_, admits_iff.mpr ⟨hq, hlt⟩, hd, bytes_quoted "'" _⟩
  · intro h
    obtain ⟨raw, ha, hd, rfl⟩ := h
    obtain ⟨hq, hlt⟩ := admits_iff.mp ha
    cases quote with
    | double =>
      have hv := Value.double hq hlt hd
      rw [bytes_quoted] at hv
      exact hv
    | single =>
      have hv := Value.single hq hlt hd
      rw [bytes_quoted] at hv
      exact hv

theorem attr_iff {bs : List UInt8} {a : Attribute} : Attr bs a ↔ a.SpelledBy bs := by
  constructor
  · intro h
    obtain ⟨hname, hgap, hgap', hvalue⟩ := h
    obtain ⟨raw, ha, hd, rfl⟩ := value_iff.mp hvalue
    exact ⟨_, _, raw, name_iff.mp hname, gap_iff.mp hgap, gap_iff.mp hgap', ha, hd, rfl⟩
  · intro h
    obtain ⟨gap, gap', raw, hname, hgap, hgap', ha, hd, rfl⟩ := h
    exact .mk (name_iff.mpr hname) (gap_iff.mpr hgap) (gap_iff.mpr hgap')
      (value_iff.mpr ⟨raw, ha, hd, rfl⟩)

theorem moreAttrs_iff {bs : List UInt8} {as : List Attribute} :
    MoreAttrs bs as ↔ AttributeList bs as := by
  constructor
  · intro h
    induction h with
    | nil => exact .nil
    | cons hgap ha _ ih => exact .cons (gap_iff.mp hgap) (attr_iff.mp ha) ih
  · intro h
    induction h with
    | nil => exact .nil
    | cons hgap ha _ ih => exact .cons (gap_iff.mpr hgap) (attr_iff.mpr ha) ih

/-- A blank before the first attribute is all that sets the first one apart. -/
theorem attrs_iff {bs : List UInt8} {as : List Attribute} : Attrs bs as ↔
    AttributeList bs as ∧ ∀ b ∈ bs.head?, Text.isBlankByte b = true := by
  constructor
  · intro h
    cases h with
    | nil => exact ⟨.nil, nofun⟩
    | @cons gap bs cs a as hspace ha has =>
      obtain ⟨hne, hgap⟩ := hspace
      refine ⟨.cons (gap_iff.mp hgap) (attr_iff.mp ha) (moreAttrs_iff.mp has), ?_⟩
      cases gap with
      | nil => exact absurd rfl hne
      | cons b gap =>
        intro b' hb'
        cases hb'
        exact gap_iff.mp hgap b List.mem_cons_self
  · intro h
    obtain ⟨hlist, hblank⟩ := h
    cases hlist with
    | nil => exact .nil
    | @cons gap bs cs a as hgap ha has =>
      refine .cons ⟨?_, gap_iff.mpr hgap⟩ (attr_iff.mpr ha) (moreAttrs_iff.mpr has)
      rintro rfl
      -- without blanks the first byte would be one of the attribute's name
      obtain ⟨b, bs', rfl, hb⟩ := ha.eq_cons
      have hb' := hblank b rfl
      rw [isBlankByte_of_isNameStart hb] at hb'
      cases hb'

theorem openingTag_iff {bs : List UInt8} {name : String} {as : List Attribute} {form : TagForm} :
    OpeningTag name as form bs ↔ ∃ attributes gap, Name name ∧ Attrs attributes as ∧ Gap gap ∧
      bs = Text.bytes "<" ++ Text.bytes name ++ attributes ++ gap ++ form.ending := by
  constructor
  · intro h
    obtain ⟨attributes, gap, hname, has, hblank, hgap, rfl⟩ := h
    exact ⟨attributes, gap, name_iff.mpr hname, attrs_iff.mpr ⟨has, hblank⟩, gap_iff.mpr hgap, rfl⟩
  · intro h
    obtain ⟨attributes, gap, hname, has, hgap, rfl⟩ := h
    obtain ⟨hlist, hblank⟩ := attrs_iff.mp has
    exact ⟨attributes, gap, name_iff.mp hname, hlist, hblank, gap_iff.mp hgap, rfl⟩

theorem Elem.of_tag {bs : List UInt8} {name : String} {as : List Attribute}
    (h : OpeningTag name as .empty bs) : Elem bs (.element name as [] .empty .nowhere) := by
  obtain ⟨attributes, gap, hname, has, hgap, rfl⟩ := openingTag_iff.mp h
  exact .empty hname has hgap

theorem closingTag_iff {bs : List UInt8} {name : String} : ClosingTag name bs ↔
    ∃ gap, Name name ∧ Gap gap ∧
      bs = Text.bytes "</" ++ Text.bytes name ++ gap ++ Text.bytes ">" := by
  simp only [ClosingTag, name_iff, gap_iff]
  exact Iff.rfl

theorem Elem.of_tags {tag body close : List UInt8} {name : String} {as : List Attribute}
    {children : List Node} (ht : OpeningTag name as .paired tag) (hb : Content body children)
    (hc : ClosingTag name close) :
    Elem (tag ++ body ++ close) (.element name as children .paired .nowhere) := by
  obtain ⟨attributes, gap, hname, has, hgap, rfl⟩ := openingTag_iff.mp ht
  obtain ⟨gap', _, hgap', rfl⟩ := closingTag_iff.mp hc
  exact .paired hname has hgap hb hgap'

/-! ## The productions for nodes are those of the reader -/

theorem delimited_iff {bs : List UInt8} {kind : LeafKind} {c : String} : Delimited bs kind c ↔
    kind ≠ .text ∧ kind.Encloses c ∧ bs = Text.bytes (kind.opener ++ c ++ kind.closer) := by
  constructor
  · intro h
    cases h with
    | comment hc => exact ⟨by decide, ⟨hc, by simp⟩, rfl⟩
    | cdata hc => exact ⟨by decide, ⟨hc, by simp⟩, rfl⟩
    | instruction hc => exact ⟨by decide, ⟨hc, by simp⟩, rfl⟩
    | doctype hc hb =>
      refine ⟨by decide, ⟨hb, fun _ hp => hc ?_⟩, rfl⟩
      rw [Text.bytes_append, Text.bytes_append, List.append_assoc]
      exact (List.prefix_append_right_inj (Text.bytes "<!")).mpr (hp.trans (List.prefix_append _ _))
  · intro h
    obtain ⟨hk, ⟨ha, hd⟩, rfl⟩ := h
    cases kind with
    | text => exact absurd rfl hk
    | comment => exact .comment ha
    | cdata => exact .cdata ha
    | instruction => exact .instruction ha
    | doctype =>
      refine .doctype (fun hp => ?_) ha
      rw [Text.bytes_append, Text.bytes_append, List.append_assoc] at hp
      exact absurd (dashes_prefix_append
        ((List.prefix_append_right_inj (Text.bytes "<!")).mp hp)) (hd rfl)

theorem halts_inside_iff {cs : List UInt8} :
    Halts Zone.inside.isTextByte cs ↔ ∀ b ∈ cs.head?, b = '<'.toUInt8 := by
  simp [Halts, Zone.isTextByte]

theorem halts_outside_iff {cs : List UInt8} :
    Halts Zone.outside.isTextByte cs ↔ ∀ b ∈ cs.head?, ¬ Blank b := by
  simp [Halts, Zone.isTextByte, ← isBlankByte_iff]

theorem content_of_contents {p : Position} {bs : List UInt8} {ns : List Node}
    (h : Contents .inside p bs ns) : Content bs (Node.eraseAll ns) := by
  induction h with
  | nil => exact .nil
  | leaf hl hk _ ih =>
    cases hl with
    | text hne hlt hd => exact .text hne hlt hd (halts_inside_iff.mp (hk rfl)) ih
    | delimited hs he =>
      obtain ⟨htext, hdoctype, _⟩ := LeafKind.standsIn_iff.mp hs
      exact .delimited (hdoctype rfl) (delimited_iff.mpr ⟨htext, he, rfl⟩) ih
  | single _ ht _ ih => exact .element (.of_tag ht) ih
  | pair _ ht _ hc _ ihbody ih => exact .element (.of_tags ht ihbody hc) ih

theorem misc_of_contents {p : Position} {bs : List UInt8} {ns : List Node}
    (h : Contents .outside p bs ns) : Misc bs (Node.eraseAll ns) := by
  induction h with
  | nil => exact .nil
  | leaf hl hk _ ih =>
    cases hl with
    | blank hne hb =>
      exact .blank ⟨mt Text.bytes_eq_nil_iff.mp hne, gap_iff.mpr hb⟩
        (halts_outside_iff.mp (hk rfl)) ih
    | delimited hs he =>
      obtain ⟨htext, _, hcdata⟩ := LeafKind.standsIn_iff.mp hs
      exact .delimited (hcdata rfl) (delimited_iff.mpr ⟨htext, he, rfl⟩) ih
  | single hz => cases hz
  | pair hz => cases hz

mutual

theorem Elem.spelled {bs : List UInt8} {n : Node} (p : Position) :
    Elem bs n → ∃ e : Element, e.SpelledBy p bs ∧ (e.mapSpans fun _ => .nowhere).toNode = n
  | .empty hname has hgap => by
    have ht : OpeningTag _ _ .empty _ := openingTag_iff.mpr ⟨_, _, hname, has, hgap, rfl⟩
    exact ⟨⟨_, _, [], .empty, _⟩, Element.spelledBy_iff.mpr ⟨rfl, .inl ⟨rfl, rfl, ht⟩⟩, rfl⟩
  | .paired hname has hgap hbody hgap' => by
    have ht : OpeningTag _ _ .paired _ := openingTag_iff.mpr ⟨_, _, hname, has, hgap, rfl⟩
    have hc := closingTag_iff.mpr ⟨_, hname, hgap', rfl⟩
    obtain ⟨children, hb, rfl⟩ := hbody.spelled _
    exact ⟨⟨_, _, children, .paired, _⟩,
      Element.spelledBy_iff.mpr ⟨rfl, .inr ⟨rfl, _, _, _, rfl, ht, hb, hc⟩⟩, rfl⟩

theorem Content.spelled {bs : List UInt8} {ms : List Node} (p : Position) :
    Content bs ms → ∃ ns, Contents .inside p bs ns ∧ Node.eraseAll ns = ms
  | .nil => ⟨[], .nil p, rfl⟩
  | .text hne hlt hd hh hr => by
    obtain ⟨ns, hns, rfl⟩ := hr.spelled _
    exact ⟨_, .leaf (.text hne hlt hd) (fun _ => halts_inside_iff.mpr hh) hns, rfl⟩
  | .delimited hk hdel hr => by
    obtain ⟨htext, he, rfl⟩ := delimited_iff.mp hdel
    obtain ⟨ns, hns, rfl⟩ := hr.spelled _
    have hs : LeafKind.standsIn _ .inside = true := LeafKind.standsIn_iff.mpr ⟨htext, fun _ => hk, by simp⟩
    exact ⟨_, .leaf (.delimited hs he) (fun ht => absurd ht htext) hns, rfl⟩
  | .element hn hr => by
    obtain ⟨e, he, rfl⟩ := hn.spelled p
    obtain ⟨ns, hns, rfl⟩ := hr.spelled _
    have hnot : e.toNode.text?.isSome ≠ true := Bool.false_ne_true
    exact ⟨_, contents_cons_iff.mpr ⟨_, _, rfl, he, fun h => absurd h hnot, hns⟩, rfl⟩

end

theorem Misc.spelled {bs : List UInt8} {ms : List Node} (h : Misc bs ms) (p : Position) :
    ∃ ns, Contents .outside p bs ns ∧ Node.eraseAll ns = ms := by
  induction h generalizing p with
  | nil => exact ⟨[], .nil p, rfl⟩
  | blank hs hh _ ih =>
    obtain ⟨ns, hns, rfl⟩ := ih _
    have hl := LeafSpelled.blank (mt Text.bytes_eq_nil_iff.mpr hs.1) (gap_iff.mp hs.2)
    exact ⟨_, .leaf hl (fun _ => halts_outside_iff.mpr hh) hns, rfl⟩
  | delimited hk hdel _ ih =>
    obtain ⟨htext, he, rfl⟩ := delimited_iff.mp hdel
    obtain ⟨ns, hns, rfl⟩ := ih _
    have hs : LeafKind.standsIn _ .outside = true := LeafKind.standsIn_iff.mpr ⟨htext, by simp, fun _ => hk⟩
    exact ⟨_, .leaf (.delimited hs he) (fun ht => absurd ht htext) hns, rfl⟩

/-- Content that is a single element is derived as one. -/
theorem elem_of_spelledBy {p : Position} {bs : List UInt8} {e : Element} (h : e.SpelledBy p bs) :
    Elem bs (e.mapSpans fun _ => .nowhere).toNode := by
  have hc : Content bs [(e.mapSpans fun _ => .nowhere).toNode] := content_of_contents h
  cases hc with
  | element hn hr =>
    cases hr
    rw [List.append_nil]
    exact hn

/-- Some bytes derive a document without spans exactly if they spell it, spans aside. -/
theorem derives_iff {bs : List UInt8} {d : Document} :
    Derives bs d ↔ ∃ d' : Document, d'.SpelledBy bs ∧ d'.erase = d := by
  constructor
  · intro h
    obtain ⟨hleading, hroot, htrailing⟩ := h
    obtain ⟨leading, hl, rfl⟩ := hleading.spelled .start
    obtain ⟨root, hr, hroot⟩ := hroot.spelled _
    obtain ⟨trailing, ht, rfl⟩ := htrailing.spelled _
    refine ⟨⟨leading, root, trailing⟩, ⟨_, _, _, rfl, hl, hr, ht⟩, ?_⟩
    have he := congrArg Node.element? hroot
    simp only [Element.element?_toNode, Option.some.injEq] at he
    rw [← he]
    rfl
  · intro h
    obtain ⟨d', ⟨before, root, after, rfl, hl, hr, ht⟩, rfl⟩ := h
    exact .mk (misc_of_contents hl) (elem_of_spelledBy hr) (misc_of_contents ht)

end Production

/-! ## Nesting -/

namespace Node

mutual

/-- How many paired elements are inside each other at most, in and below a node. -/
def nesting : Node → Nat
  | element _ _ children form _ => (if form = .paired then 1 else 0) + nestingAll children
  | leaf .. => 0

def nestingAll : List Node → Nat
  | [] => 0
  | n :: ns => max n.nesting (nestingAll ns)

end

mutual

theorem nesting_mapSpans (f : Span → Span) : ∀ n : Node, (n.mapSpans f).nesting = n.nesting
  | element _ _ children _ _ => by simp only [mapSpans, nesting, nestingAll_mapSpansAll f children]
  | leaf .. => rfl

theorem nestingAll_mapSpansAll (f : Span → Span) :
    ∀ ns : List Node, nestingAll (mapSpansAll f ns) = nestingAll ns
  | [] => rfl
  | n :: ns => by
    simp only [mapSpansAll, nestingAll, nesting_mapSpans f n, nestingAll_mapSpansAll f ns]

end

end Node

def Document.nesting (d : Document) : Nat := d.root.toNode.nesting

theorem Document.nesting_erase (d : Document) : d.erase.nesting = d.nesting :=
  Node.nesting_mapSpans _ d.root.toNode

variable {zone : Zone} {p : Position} {bs : List UInt8} {ns : List Node} {limits : Limits}

/-- Each level of nesting takes at least one byte. -/
theorem Contents.nestingAll_le (h : Contents zone p bs ns) : Node.nestingAll ns ≤ bs.length := by
  induction h with
  | nil => exact Nat.le_refl 0
  | leaf _ _ _ ih =>
    simp only [Node.nestingAll, Node.nesting, List.length_append]
    omega
  | single _ _ _ ih =>
    simp only [Node.nestingAll, Node.nesting, List.length_append, reduceCtorEq, if_false]
    omega
  | pair _ ht _ _ _ ihbody ih =>
    have := List.length_pos_iff.mpr ht.ne_nil
    simp only [Node.nestingAll, Node.nesting, List.length_append, if_true]
    omega

/-- Where attributes may repeat, the limits ask for nothing but a bound on the nesting. -/
theorem Contents.withinAll_iff (h : Contents zone p bs ns) (hrep : limits.allowRepeats = true)
    (depth : Nat) : Node.WithinAll limits depth ns ↔
      Node.nestingAll ns = 0 ∨ depth + Node.nestingAll ns ≤ limits.maxDepth := by
  have hadmits : ∀ as, limits.Admits as := fun _ => .inl hrep
  induction h generalizing depth with
  | nil => simp [Node.WithinAll, Node.nestingAll]
  | leaf _ _ _ ih =>
    simp only [Node.WithinAll, Node.Within, Node.nestingAll, Node.nesting, ih, true_and]
    omega
  | single _ _ _ ih =>
    simp only [Node.WithinAll, Node.Within, Node.nestingAll, Node.nesting, ih, hadmits,
      reduceCtorEq, false_implies, true_and, if_false]
    omega
  | pair _ _ _ _ _ ihbody ih =>
    simp only [Node.WithinAll, Node.Within, Node.nestingAll, Node.nesting, ih, ihbody, hadmits,
      true_implies, true_and, if_true]
    omega

theorem Document.SpelledBy.nesting_le {d : Document} (h : d.SpelledBy bs) :
    d.nesting ≤ bs.length := by
  obtain ⟨before, root, after, rfl, _, hr, _⟩ := h
  have hle : max d.nesting 0 ≤ root.length := Contents.nestingAll_le hr
  simp only [List.length_append]
  omega

theorem Document.SpelledBy.within_iff {d : Document} (h : d.SpelledBy bs)
    (hrep : limits.allowRepeats = true) :
    d.root.toNode.Within limits 0 ↔ d.nesting ≤ limits.maxDepth := by
  obtain ⟨before, root, after, rfl, _, hr, _⟩ := h
  have hw : (d.root.toNode.Within limits 0 ∧ True) ↔
      max d.nesting 0 = 0 ∨ 0 + max d.nesting 0 ≤ limits.maxDepth :=
    Contents.withinAll_iff hr hrep 0
  rw [and_true] at hw
  rw [hw]
  omega

/-! ## The reader -/

/-- Trees that differ in their spans alone keep the same limits. -/
theorem Document.within_iff_of_erase_eq {d d' : Document} (h : d'.erase = d.erase) :
    d'.root.toNode.Within limits 0 ↔ d.root.toNode.Within limits 0 := by
  have hroot : d'.erase.root.toNode = d.erase.root.toNode := by rw [h]
  have herase : ∀ d : Document,
      d.erase.root.toNode.Within limits 0 ↔ d.root.toNode.Within limits 0 :=
    fun d => Node.within_mapSpans _ d.root.toNode
  rw [← herase d', hroot, herase d]

/-- What is read, spans aside: the trees that are derived and keep the limits. -/
theorem Document.parse_erase_iff {d : Document} :
    (∃ d', Document.parse limits bs = .ok d' ∧ d'.erase = d.erase) ↔
      bs.length ≤ limits.maxSize ∧ Production.Derives bs d.erase ∧
        d.root.toNode.Within limits 0 := by
  constructor
  · intro h
    obtain ⟨d', hd', he⟩ := h
    obtain ⟨hsize, hspelled, hw⟩ := Document.parse_eq_ok_iff.mp hd'
    exact ⟨hsize, Production.derives_iff.mpr ⟨d', hspelled, he⟩,
      (Document.within_iff_of_erase_eq he).mp hw⟩
  · intro h
    obtain ⟨hsize, hderives, hw⟩ := h
    obtain ⟨d', hspelled, he⟩ := Production.derives_iff.mp hderives
    exact ⟨d', Document.parse_eq_ok_iff.mpr ⟨hsize, hspelled,
      (Document.within_iff_of_erase_eq he).mpr hw⟩, he⟩

/-- A tree that is derived keeps limits that admit its nesting. It goes no deeper than it
has bytes. -/
theorem Production.Derives.within {d : Document} (h : Derives bs d.erase)
    (hrep : limits.allowRepeats = true)
    (hdepth : d.nesting ≤ limits.maxDepth ∨ bs.length ≤ limits.maxDepth) :
    d.root.toNode.Within limits 0 := by
  obtain ⟨d', hspelled, he⟩ := derives_iff.mp h
  have hnesting : d'.nesting = d.nesting := by
    rw [← Document.nesting_erase, he, Document.nesting_erase]
  have hle := hspelled.nesting_le
  rw [← Document.within_iff_of_erase_eq he, hspelled.within_iff hrep]
  omega

/-- Where attributes may repeat and the limits leave room, a tree is read from some bytes,
spans aside, exactly if the grammar derives it from them. The limits leave room if they
admit as many bytes as there are, and as many levels as the tree has or, whatever the tree,
as there are bytes. -/
theorem Document.parse_iff_derives {limits : Limits} {bs : List UInt8} {d : Document}
    (hrep : limits.allowRepeats = true) (hsize : bs.length ≤ limits.maxSize)
    (hdepth : d.nesting ≤ limits.maxDepth ∨ bs.length ≤ limits.maxDepth) :
    (∃ d', Document.parse limits bs = .ok d' ∧ d'.erase = d.erase) ↔
      Production.Derives bs d.erase := by
  rw [Document.parse_erase_iff]
  constructor
  · intro h
    exact h.2.1
  · intro h
    exact ⟨hsize, h, h.within hrep hdepth⟩

/-- Closers that the opener or the content seems to bring on, and attributes with nothing
between them. -/
def crowdedSource : String :=
  "<?>?>\n<!-->--><a b='&lt;'c=\"'\"\t>x&#65;<![CDATA[]]]]><d/></a >"

def crowdedDocument : Document :=
  ⟨[.leaf .instruction ">" .nowhere, .leaf .text "\n" .nowhere, .leaf .comment ">" .nowhere],
    ⟨"a", [⟨"b", "<", .single⟩, ⟨"c", "'", .double⟩],
      [.leaf .text "xA" .nowhere, .leaf .cdata "]]" .nowhere,
        .element "d" [] [] .empty .nowhere], .paired, .nowhere⟩, []⟩

theorem Document.parse_iff_derives_crowded :
    let limits : Limits := { maxDepth := 1, maxSize := 64, allowRepeats := true }
    (Text.bytes crowdedSource).length ≤ limits.maxSize ∧
    crowdedDocument.nesting ≤ limits.maxDepth ∧
    (∃ d', Document.parse limits (Text.bytes crowdedSource) = .ok d' ∧
      d'.erase = crowdedDocument.erase) ∧
    Production.Derives (Text.bytes crowdedSource) crowdedDocument.erase := by
  intro limits
  have hsize : (Text.bytes crowdedSource).length ≤ limits.maxSize := by decide +kernel
  have hdepth : crowdedDocument.nesting ≤ limits.maxDepth := by decide +kernel
  have hread : ((Document.parse limits (Text.bytes crowdedSource)).toOption.map Document.erase) =
      some crowdedDocument.erase := by
    decide +kernel
  obtain ⟨d', hd', he⟩ := Option.map_eq_some_iff.mp hread
  have hparse := toOption_eq_some_iff.mp hd'
  exact ⟨hsize, hdepth, ⟨d', hparse, he⟩,
    (Document.parse_iff_derives rfl hsize (.inl hdepth)).mp ⟨d', hparse, he⟩⟩

end TextHoist
