/-
  The grammar of markup, as relations between bytes and what they spell. They are stated
  without a reader: `Attribute.SpelledBy`, `OpeningTag` and `ClosingTag` say which bytes
  make up an attribute and a tag, `LeafSpelled` which make up a leaf, and
  `Contents zone p bs ns` that the bytes `bs`, standing at position `p`, spell the nodes
  `ns`, each with the span it has there. A document is leaves, one element, leaves
  (`Document.SpelledBy`).

  A run of text is as long as it can be: the constructor for leaves asks of the bytes
  behind a text that they do not go on with it. Spans are the only place where positions
  enter, so nodes can be spelled anywhere by the same bytes (`Contents.relocate`), and
  contents can be taken apart and put together (`Contents.split`, `Contents.append`).
-/
import TextHoist.Markup.Leaf
import TextHoist.Markup.Tag
import TextHoist.Proofs.Source.Passage
import TextHoist.Proofs.Text.Encoding

namespace TextHoist

/-! ## Names, attributes and tags -/

def Blanks (bs : List UInt8) : Prop := ∀ b ∈ bs, Text.isBlankByte b = true

/-- A byte that names begin with, then bytes that names go on with. -/
def IsName (name : String) : Prop :=
  ∃ b bs, Text.bytes name = b :: bs ∧ isNameStart b = true ∧ ∀ x ∈ bs, isNameByte x = true

def Quote.byte (quote : Quote) : UInt8 := quote.char.toUInt8

/-- A text that may stand between quotes. -/
def Quote.Admits (quote : Quote) (raw : String) : Prop :=
  ∀ b ∈ Text.bytes raw, b ≠ quote.byte ∧ b ≠ '<'.toUInt8

/-- A name, an equals sign and a quoted value that decodes to the attribute's. -/
def Attribute.SpelledBy (a : Attribute) (bs : List UInt8) : Prop :=
  ∃ gap gap' raw, IsName a.name ∧ Blanks gap ∧ Blanks gap' ∧ a.quote.Admits raw ∧
    Reference.decode raw = .ok a.value ∧
    bs = Text.bytes a.name ++ gap ++ ['='.toUInt8] ++ gap' ++
      ([a.quote.byte] ++ (Text.bytes raw ++ [a.quote.byte]))

/-- Attributes one after the other, blanks allowed before each. -/
inductive AttributeList : List UInt8 → List Attribute → Prop
  | nil : AttributeList [] []
  | cons {gap bs cs : List UInt8} {a : Attribute} {as : List Attribute} :
      Blanks gap → a.SpelledBy bs → AttributeList cs as → AttributeList (gap ++ bs ++ cs) (a :: as)

/-- How a tag ends. -/
def TagForm.ending : TagForm → List UInt8
  | empty => ['/'.toUInt8, '>'.toUInt8]
  | paired => ['>'.toUInt8]

/-- The tag that opens an element, or is all of it. A blank divides the name from the first
attribute. -/
def OpeningTag (name : String) (as : List Attribute) (form : TagForm) (bs : List UInt8) : Prop :=
  ∃ attributes gap, IsName name ∧ AttributeList attributes as ∧
    (∀ b ∈ attributes.head?, Text.isBlankByte b = true) ∧ Blanks gap ∧
    bs = ['<'.toUInt8] ++ Text.bytes name ++ attributes ++ gap ++ form.ending

def ClosingTag (name : String) (bs : List UInt8) : Prop :=
  ∃ gap, IsName name ∧ Blanks gap ∧
    bs = Text.bytes "</" ++ Text.bytes name ++ gap ++ ['>'.toUInt8]

/-! ## Leaves -/

/-- Inside the root element, or before and after it. -/
inductive Zone where
  | inside
  | outside
  deriving DecidableEq, Repr

/-- The bytes a run of text is made of. -/
def Zone.isTextByte : Zone → UInt8 → Bool
  | inside, b => b != '<'.toUInt8
  | outside, b => Text.isBlankByte b

/-- Where a leaf with opener and closer may stand. -/
def LeafKind.standsIn : LeafKind → Zone → Bool
  | text, _ => false
  | comment, _ => true
  | instruction, _ => true
  | cdata, zone => zone = .inside
  | doctype, zone => zone = .outside

/-- The square brackets left open after some bytes, `n` being open before them; none if a
`>` outside brackets is among the bytes. -/
def bracketsAfter : Nat → List UInt8 → Option Nat
  | n, [] => some n
  | n, b :: bs =>
    if b == '['.toUInt8 then bracketsAfter (n + 1) bs
    else if b == ']'.toUInt8 then bracketsAfter (n - 1) bs
    else if b == '>'.toUInt8 && n == 0 then none
    else bracketsAfter n bs

/-- The bytes do not bring the end of a leaf of this kind before the closer does. -/
def LeafKind.Avoids (kind : LeafKind) (bs : List UInt8) : Prop :=
  match kind with
  | doctype => bracketsAfter 0 bs = some 0
  | _ => ¬ Text.bytes kind.closer <:+: bs

/-- A content that may stand between opener and closer. That of a doctype must not make
the opener read as a comment's. -/
def LeafKind.Encloses (kind : LeafKind) (content : String) : Prop :=
  kind.Avoids (Text.bytes content) ∧
    (kind = .doctype → ¬ Text.bytes "--" <+: Text.bytes content)

inductive LeafSpelled : Zone → LeafKind → List UInt8 → String → Prop
  | text {raw content : String} : raw ≠ "" → '<'.toUInt8 ∉ Text.bytes raw →
      Reference.decode raw = .ok content → LeafSpelled .inside .text (Text.bytes raw) content
  | blank {content : String} : content ≠ "" → Blanks (Text.bytes content) →
      LeafSpelled .outside .text (Text.bytes content) content
  | delimited {zone : Zone} {kind : LeafKind} {content : String} :
      kind.standsIn zone = true → kind.Encloses content →
      LeafSpelled zone kind (Text.bytes (kind.opener ++ content ++ kind.closer)) content

/-! ## Contents and documents -/

/-- The bytes, standing at a position, spell the nodes. -/
inductive Contents (zone : Zone) : Position → List UInt8 → List Node → Prop
  | nil (p : Position) : Contents zone p [] []
  | leaf {p : Position} {bs cs : List UInt8} {kind : LeafKind} {content : String}
      {ns : List Node} :
      LeafSpelled zone kind bs content → (kind = .text → Halts zone.isTextByte cs) →
      Contents zone (p.past bs) cs ns →
      Contents zone p (bs ++ cs) (.leaf kind content ⟨p, p.past bs⟩ :: ns)
  | single {p : Position} {bs cs : List UInt8} {name : String} {as : List Attribute}
      {ns : List Node} :
      zone = .inside → OpeningTag name as .empty bs → Contents zone (p.past bs) cs ns →
      Contents zone p (bs ++ cs) (.element name as [] .empty ⟨p, p.past bs⟩ :: ns)
  | pair {p : Position} {tag body close cs : List UInt8} {name : String} {as : List Attribute}
      {children ns : List Node} :
      zone = .inside → OpeningTag name as .paired tag →
      Contents zone (p.past tag) body children → ClosingTag name close →
      Contents zone (p.past (tag ++ body ++ close)) cs ns →
      Contents zone p (tag ++ body ++ close ++ cs)
        (.element name as children .paired ⟨p, p.past (tag ++ body ++ close)⟩ :: ns)

/-- The bytes, standing at a position, spell the element. -/
def Element.SpelledBy (e : Element) (p : Position) (bs : List UInt8) : Prop :=
  Contents .inside p bs [e.toNode]

/-- Leaves, the root element, leaves. -/
def Document.SpelledBy (d : Document) (bs : List UInt8) : Prop :=
  ∃ before root after, bs = before ++ root ++ after ∧
    Contents .outside .start before d.leading ∧
    d.root.SpelledBy (Position.start.past before) root ∧
    Contents .outside (Position.start.past (before ++ root)) after d.trailing

/-! ## What the pieces begin with -/

theorem isNameByte_of_isNameStart {b : UInt8} (h : isNameStart b = true) : isNameByte b = true := by
  simp [isNameByte, h]

theorem IsName.all {name : String} (h : IsName name) :
    ∀ b ∈ Text.bytes name, isNameByte b = true := by
  obtain ⟨b, bs, hname, hb, hbs⟩ := h
  intro x hx
  rw [hname, List.mem_cons] at hx
  rcases hx with rfl | hx
  · exact isNameByte_of_isNameStart hb
  · exact hbs x hx

theorem AttributeList.isName {bs : List UInt8} {as : List Attribute} (h : AttributeList bs as) :
    ∀ a ∈ as, IsName a.name := by
  induction h with
  | nil => nofun
  | cons _ ha _ ih =>
    intro a hmem
    rcases List.mem_cons.mp hmem with rfl | hmem
    · obtain ⟨_, _, _, hname, _⟩ := ha
      exact hname
    · exact ih a hmem

theorem OpeningTag.isName {name : String} {as : List Attribute} {form : TagForm}
    {bs : List UInt8} (h : OpeningTag name as form bs) :
    IsName name ∧ ∀ a ∈ as, IsName a.name := by
  obtain ⟨_, _, hname, has, _⟩ := h
  exact ⟨hname, has.isName⟩

theorem OpeningTag.eq_cons {name : String} {as : List Attribute} {form : TagForm}
    {bs : List UInt8} (h : OpeningTag name as form bs) :
    ∃ b cs, bs = '<'.toUInt8 :: b :: cs ∧ isNameStart b = true := by
  obtain ⟨attributes, gap, ⟨b, cs, hname, hb, _⟩, _, _, _, rfl⟩ := h
  exact ⟨b, cs ++ attributes ++ gap ++ form.ending, by simp [hname], hb⟩

theorem ClosingTag.eq_cons {name : String} {bs : List UInt8} (h : ClosingTag name bs) :
    ∃ cs, bs = '<'.toUInt8 :: '/'.toUInt8 :: cs := by
  obtain ⟨gap, _, _, rfl⟩ := h
  exact ⟨_, rfl⟩

/-- A leaf with opener and closer stands inside the root element unless it is a doctype, and
outside unless it is a CDATA section. -/
theorem LeafKind.standsIn_iff {kind : LeafKind} {zone : Zone} : kind.standsIn zone = true ↔
    kind ≠ .text ∧ (zone = .inside → kind ≠ .doctype) ∧ (zone = .outside → kind ≠ .cdata) := by
  cases kind <;> cases zone <;> decide

theorem LeafKind.standsIn_ne_text {kind : LeafKind} {zone : Zone}
    (h : kind.standsIn zone = true) : kind ≠ .text :=
  (standsIn_iff.mp h).1

theorem LeafKind.bytes_opener {kind : LeafKind} (h : kind ≠ .text) :
    ∃ cs, Text.bytes kind.opener = '<'.toUInt8 :: cs := by
  cases kind with
  | text => exact absurd rfl h
  | _ => exact ⟨_, rfl⟩

/-- A leaf that is no text begins as a tag does. -/
theorem LeafSpelled.eq_cons {zone : Zone} {kind : LeafKind} {bs : List UInt8} {content : String}
    (h : LeafSpelled zone kind bs content) (hk : kind ≠ .text) :
    ∃ cs, bs = '<'.toUInt8 :: cs := by
  cases h with
  | text => exact absurd rfl hk
  | blank => exact absurd rfl hk
  | delimited =>
    obtain ⟨cs, hcs⟩ := LeafKind.bytes_opener hk
    rw [Text.bytes_append, Text.bytes_append, hcs]
    exact ⟨_, rfl⟩

/-- A text begins with a byte of its run. -/
theorem LeafSpelled.text_eq_cons {zone : Zone} {bs : List UInt8} {content : String}
    (h : LeafSpelled zone .text bs content) :
    ∃ b cs, bs = b :: cs ∧ zone.isTextByte b = true := by
  cases h with
  | @text raw _ hne hraw _ =>
    cases hbytes : Text.bytes raw with
    | nil => exact absurd (Text.bytes_eq_nil_iff.mp hbytes) hne
    | cons b bs =>
      refine ⟨b, bs, rfl, ?_⟩
      rw [Zone.isTextByte, bne_iff_ne]
      rintro rfl
      exact hraw (hbytes ▸ List.mem_cons_self)
  | blank hne hblank =>
    cases hbytes : Text.bytes content with
    | nil => exact absurd (Text.bytes_eq_nil_iff.mp hbytes) hne
    | cons b bs => exact ⟨b, bs, rfl, hblank b (hbytes ▸ List.mem_cons_self)⟩
  | delimited hs => cases hs

theorem LeafSpelled.ne_nil {zone : Zone} {kind : LeafKind} {bs : List UInt8} {content : String}
    (h : LeafSpelled zone kind bs content) : bs ≠ [] := by
  by_cases hk : kind = .text
  · subst hk
    obtain ⟨b, cs, rfl, _⟩ := h.text_eq_cons
    exact List.cons_ne_nil _ _
  · obtain ⟨cs, rfl⟩ := h.eq_cons hk
    exact List.cons_ne_nil _ _

/-- Neither a run of text nor a run of blanks goes on into a tag. -/
theorem Zone.halts_cons (zone : Zone) (bs : List UInt8) :
    Halts zone.isTextByte ('<'.toUInt8 :: bs) := by
  rw [TextHoist.halts_cons]
  cases zone <;> rfl

/-! ## Encoded text -/

theorem Blanks.isText {bs : List UInt8} (h : Blanks bs) : Text.IsText bs := by
  induction bs with
  | nil => exact Text.isText_nil
  | cons b bs ih =>
    have hb : Text.IsText [b] := by
      have := h b List.mem_cons_self
      simp only [Text.isBlankByte, Bool.or_eq_true, beq_iff_eq] at this
      rcases this with ((rfl | rfl) | rfl) | rfl <;> exact Text.isText_singleton _ (by decide)
    exact hb.append (ih fun x hx => h x (List.mem_cons_of_mem _ hx))

theorem Quote.isText_byte (quote : Quote) : Text.IsText [quote.byte] := by
  cases quote <;> exact Text.isText_singleton _ (by decide)

theorem TagForm.isText_ending (form : TagForm) : Text.IsText form.ending := by
  cases form with
  | empty => exact ⟨"/>", rfl⟩
  | paired => exact ⟨">", rfl⟩

theorem Attribute.SpelledBy.isText {a : Attribute} {bs : List UInt8} (h : a.SpelledBy bs) :
    Text.IsText bs := by
  obtain ⟨gap, gap', raw, _, hg, hg', _, _, rfl⟩ := h
  have hvalue := a.quote.isText_byte.append
    ((Text.isText_bytes raw).append a.quote.isText_byte)
  have hequals : Text.IsText ['='.toUInt8] := Text.isText_singleton _ (by decide)
  exact ((((Text.isText_bytes _).append hg.isText).append hequals).append hg'.isText).append hvalue

theorem AttributeList.isText {bs : List UInt8} {as : List Attribute} (h : AttributeList bs as) :
    Text.IsText bs := by
  induction h with
  | nil => exact Text.isText_nil
  | cons hgap ha _ ih => exact (hgap.isText.append ha.isText).append ih

theorem OpeningTag.isText {name : String} {as : List Attribute} {form : TagForm}
    {bs : List UInt8} (h : OpeningTag name as form bs) : Text.IsText bs := by
  obtain ⟨attributes, gap, _, ha, _, hgap, rfl⟩ := h
  have hopen : Text.IsText ['<'.toUInt8] := Text.isText_singleton _ (by decide)
  exact (((hopen.append (Text.isText_bytes _)).append ha.isText).append hgap.isText).append
    form.isText_ending

theorem ClosingTag.isText {name : String} {bs : List UInt8} (h : ClosingTag name bs) :
    Text.IsText bs := by
  obtain ⟨gap, _, hgap, rfl⟩ := h
  have hend : Text.IsText ['>'.toUInt8] := Text.isText_singleton _ (by decide)
  exact (((Text.isText_bytes _).append (Text.isText_bytes _)).append hgap.isText).append hend

theorem LeafSpelled.isText {zone : Zone} {kind : LeafKind} {bs : List UInt8} {content : String}
    (h : LeafSpelled zone kind bs content) : Text.IsText bs := by
  cases h <;> exact Text.isText_bytes _

/-- Whatever the grammar admits is encoded text. -/
theorem Contents.isText {zone : Zone} {p : Position} {bs : List UInt8} {ns : List Node}
    (h : Contents zone p bs ns) : Text.IsText bs := by
  induction h with
  | nil => exact Text.isText_nil
  | leaf hl _ _ ih => exact hl.isText.append ih
  | single _ ht _ ih => exact ht.isText.append ih
  | pair _ ht _ hc _ ihbody ih => exact ((ht.isText.append ihbody).append hc.isText).append ih

end TextHoist
