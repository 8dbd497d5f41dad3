/-
  Written attributes and tags are spelled by what is written for them. From this follow
  what `Attribute.make` accepts and gives back (`Attribute.make_eq_ok_iff`): the name,
  freed of blanks around it, has to be a name, and then neither name nor value can bring
  about any other attribute. In what is written for the attribute the last two quotes are
  the value's own, since the escaped value has none, so whatever the name contains, it
  has to be read in front of them.
-/
import TextHoist.Markup.Reading
import TextHoist.Proofs.Markup.Contents
import TextHoist.Proofs.Markup.Escape
import TextHoist.Proofs.Markup.ReadTag
import TextHoist.Proofs.Text.Trim

namespace TextHoist

/-! ## Writing -/

theorem Quote.bytes_char (quote : Quote) :
    Text.bytes (String.singleton quote.char) = [quote.byte] := by
  cases quote <;> rfl

theorem Attribute.bytes_write (a : Attribute) :
    Text.bytes a.write = Text.bytes a.name ++ ['='.toUInt8] ++
      ([a.quote.byte] ++
        (Text.bytes (Reference.escapeAttribute a.quote a.value) ++ [a.quote.byte])) := by
  simp only [Attribute.write, Text.bytes_append, Quote.bytes_char, List.append_assoc]
  rfl

theorem Attribute.spelledBy_write {a : Attribute} (h : IsName a.name) :
    a.SpelledBy (Text.bytes a.write) := by
  refine ⟨[], [], Reference.escapeAttribute a.quote a.value, h, by simp [Blanks],
    by simp [Blanks], Reference.admits_escapeAttribute _ _,
    Reference.decode_escape (Reference.inAttribute_faithful _) _, ?_⟩
  rw [Attribute.bytes_write]
  simp

theorem attributeList_writeAll {as : List Attribute} (h : ∀ a ∈ as, IsName a.name) :
    AttributeList (Text.bytes (Attribute.writeAll as)) as := by
  induction as with
  | nil => exact .nil
  | cons a as ih =>
    have hcons : Attribute.writeAll (a :: as) = " " ++ a.write ++ Attribute.writeAll as := by
      simp [Attribute.writeAll, String.append_assoc]
    have hblank : Blanks (Text.bytes " ") := by
      intro b hb
      obtain rfl : b = ' '.toUInt8 := List.mem_singleton.mp hb
      rfl
    rw [hcons, Text.bytes_append, Text.bytes_append]
    exact .cons hblank (Attribute.spelledBy_write (h a List.mem_cons_self))
      (ih fun x hx => h x (List.mem_cons_of_mem _ hx))

theorem writeAll_head {as : List Attribute} :
    ∀ b ∈ (Text.bytes (Attribute.writeAll as)).head?, Text.isBlankByte b = true := by
  cases as with
  | nil => nofun
  | cons a as =>
    have hcons : Attribute.writeAll (a :: as) = " " ++ (a.write ++ Attribute.writeAll as) := by
      simp [Attribute.writeAll, String.append_assoc]
    rw [hcons, Text.bytes_append]
    intro b hb
    cases hb
    rfl

/-- How a written tag ends. -/
def TagForm.written : TagForm → String
  | empty => "/>"
  | paired => ">"

theorem openingTag_write {name : String} {as : List Attribute} (form : TagForm)
    (hname : IsName name) (has : ∀ a ∈ as, IsName a.name) :
    OpeningTag name as form
      (Text.bytes ("<" ++ name ++ Attribute.writeAll as ++ form.written)) := by
  refine ⟨_, [], hname, attributeList_writeAll has, writeAll_head, by simp [Blanks], ?_⟩
  have hend : Text.bytes form.written = form.ending := by cases form <;> rfl
  simp only [Text.bytes_append, hend, List.append_nil]
  rfl

theorem closingTag_write {name : String} (hname : IsName name) :
    ClosingTag name (Text.bytes ("</" ++ name ++ ">")) := by
  refine ⟨[], hname, by simp [Blanks], ?_⟩
  simp only [Text.bytes_append, List.append_nil]
  rfl

/-- An element without children is spelled by what is written for it. -/
theorem Element.spelledBy_write {e : Element} (hname : IsName e.name)
    (has : ∀ a ∈ e.attributes, IsName a.name) (hchildren : e.children = []) (p : Position) :
    ({ e with span := ⟨p, p.past (Text.bytes e.write)⟩ } : Element).SpelledBy p
      (Text.bytes e.write) := by
  refine Element.spelledBy_iff.mpr ⟨rfl, ?_⟩
  obtain ⟨name, attributes, children, form, span⟩ := e
  simp only at hname has hchildren ⊢
  subst hchildren
  cases form with
  | empty => exact .inl ⟨rfl, rfl, openingTag_write .empty hname has⟩
  | paired =>
    refine .inr ⟨rfl, _, [], _, ?_, openingTag_write .paired hname has, .nil _,
      closingTag_write hname⟩
    simp [Element.write, Element.toNode, Node.write, Node.writeAll, TagForm.written,
      Text.bytes_append]

/-! ## Names inside blanks -/

namespace Text

/-- The blanks that may stand between the parts of a tag. -/
def isGap (c : Char) : Bool := c == ' ' || c == '\t' || c == '\r' || c == '\n'

/-- The text without such blanks at its two ends. -/
def strip (s : String) : String :=
  String.ofList ((s.toList.dropWhile isGap).reverse.dropWhile isGap).reverse

theorem isGap_iff {c : Char} : isGap c = true ↔ c.toNat < 0x80 ∧ isBlankByte c.toUInt8 = true := by
  constructor
  · intro h
    simp only [isGap, Bool.or_eq_true, beq_iff_eq] at h
    rcases h with ((rfl | rfl) | rfl) | rfl <;> exact ⟨by decide, by decide⟩
  · rintro ⟨hc, hb⟩
    simp only [isBlankByte, Bool.or_eq_true, beq_iff_eq] at hb
    rcases hb with ((hb | hb) | hb) | hb
    all_goals
      obtain rfl := toUInt8_inj hc (by decide) hb
      rfl

/-- Blank bytes are the bytes of blank characters. -/
theorem blanks_bytes_iff {s : String} : Blanks (bytes s) ↔ ∀ c ∈ s.toList, isGap c = true := by
  constructor
  · intro h c hc
    have hmem : ∀ b ∈ String.utf8EncodeChar c, isBlankByte b = true := by
      intro b hb
      exact h b (by rw [bytes_eq_flatMap]; exact List.mem_flatMap.mpr ⟨c, hc, hb⟩)
    by_cases hca : c.toNat < 0x80
    · refine isGap_iff.mpr ⟨hca, hmem _ ?_⟩
      rw [utf8EncodeChar_ascii c hca]
      exact List.mem_cons_self
    · obtain ⟨b, cs, he, hb, _⟩ := utf8EncodeChar_wide c (Nat.not_lt.mp hca)
      have hblank := hmem b (by rw [he]; exact List.mem_cons_self)
      simp only [isBlankByte, Bool.or_eq_true, beq_iff_eq] at hblank
      rcases hblank with ((rfl | rfl) | rfl) | rfl <;> exact absurd hb (by decide)
  · intro h b hb
    rw [bytes_eq_flatMap, List.mem_flatMap] at hb
    obtain ⟨c, hc, hb⟩ := hb
    obtain ⟨hca, hblank⟩ := isGap_iff.mp (h c hc)
    rw [utf8EncodeChar_ascii c hca, List.mem_singleton] at hb
    rwa [hb]

theorem exists_strip (s : String) : ∃ before after,
    s = before ++ strip s ++ after ∧ Blanks (bytes before) ∧ Blanks (bytes after) := by
  obtain ⟨before, after, hs, hbefore, hafter⟩ := exists_trimmed isGap s.toList
  refine ⟨String.ofList before, String.ofList after, ?_, ?_, ?_⟩
  · rw [← String.toList_inj]
    simpa [strip] using hs
  · rwa [blanks_bytes_iff, String.toList_ofList]
  · rwa [blanks_bytes_iff, String.toList_ofList]

end Text

theorem IsName.not_gap {name : String} (h : IsName name) :
    ∀ c ∈ name.toList, Text.isGap c = false := by
  intro c hc
  cases hg : Text.isGap c with
  | false => rfl
  | true =>
    obtain ⟨hca, hblank⟩ := Text.isGap_iff.mp hg
    have := h.all _ ((Text.toUInt8_mem_bytes_iff hca).mpr hc)
    rw [isNameByte_of_isBlankByte hblank] at this
    cases this

/-- A name is what is left of a text that has only blanks around it. -/
theorem IsName.strip_eq {name before after : String} (h : IsName name)
    (hb : Blanks (Text.bytes before)) (ha : Blanks (Text.bytes after)) :
    Text.strip (before ++ name ++ after) = name := by
  rw [Text.blanks_bytes_iff] at hb ha
  have hname := h.not_gap
  have hne : name.toList ≠ [] := by
    obtain ⟨b, bs, hbytes, _⟩ := h
    intro he
    rw [Text.bytes_eq_flatMap, he] at hbytes
    cases hbytes
  -- at either end the first character of the name stops the run of blanks
  have hstop : ∀ cs ds : List Char, cs ≠ [] → (∀ c ∈ cs, Text.isGap c = false) →
      (cs ++ ds).dropWhile Text.isGap = cs ++ ds := by
    intro cs ds hcs hgap
    cases cs with
    | nil => exact absurd rfl hcs
    | cons c cs =>
      rw [List.cons_append, List.dropWhile_cons_of_neg]
      rw [hgap c List.mem_cons_self]
      decide
  rw [← String.toList_inj, Text.strip, String.toList_ofList, String.toList_append,
    String.toList_append, List.append_assoc, List.dropWhile_append_of_pos hb,
    hstop _ _ hne hname, List.reverse_append,
    List.dropWhile_append_of_pos fun c hc => ha c (List.mem_reverse.mp hc)]
  have hrev := hstop name.toList.reverse [] (by simpa using hne)
    fun c hc => hname c (List.mem_reverse.mp hc)
  rw [List.append_nil] at hrev
  rw [hrev, List.reverse_reverse]

/-! ## Attributes that are made -/

/-- Two splittings at the last of some byte are one. -/
theorem append_cons_inj_of_last {b : UInt8} {xs ys zs ws : List UInt8} (hz : b ∉ zs)
    (hw : b ∉ ws) (h : xs ++ b :: zs = ys ++ b :: ws) : xs = ys ∧ zs = ws := by
  have hnil : ∀ {m zs ws : List UInt8}, b ∉ zs → b :: zs = m ++ b :: ws → m = [] := by
    intro m zs ws hz h
    cases m with
    | nil => rfl
    | cons x m =>
      injection h with _ h
      exact absurd (by rw [h]; simp) hz
  rcases List.append_eq_append_iff.mp h with ⟨m, rfl, hm⟩ | ⟨m, rfl, hm⟩
  · obtain rfl := hnil hz hm
    simpa using hm
  · obtain rfl := hnil hw hm
    simpa using hm.symm

/-- Blanks end no bytes that end with something else. -/
theorem Blanks.eq_nil_of_append {gap xs ys : List UInt8} {b : UInt8} (hgap : Blanks gap)
    (hb : Text.isBlankByte b = false) (h : xs ++ gap = ys ++ [b]) : gap = [] := by
  rcases List.eq_nil_or_concat gap with rfl | ⟨gap', x, rfl⟩
  · rfl
  · rw [List.concat_eq_append, ← List.append_assoc] at h
    obtain ⟨_, hx⟩ := List.append_inj' h rfl
    cases hx
    rw [hgap b (by simp)] at hb
    cases hb

/-- What is read as one attribute: an attribute's bytes, blanks around them. -/
theorem Attribute.parse_eq_ok_iff {input : List UInt8} {a : Attribute} :
    Attribute.parse input = .ok a ↔ ∃ gap bs gap', input = gap ++ bs ++ gap' ∧
      Blanks gap ∧ a.SpelledBy bs ∧ Blanks gap' := by
  unfold Attribute.parse
  constructor
  · intro h
    obtain ⟨⟨a', c⟩, ha, h⟩ := exists_of_bind_eq_ok h
    simp only at h
    split at h
    case isFalse => cases h
    case isTrue hend =>
      cases h
      obtain ⟨gap, hgap, hp, _⟩ :=
        Cursor.skipBlank_eq_iff.mp (Eq.refl (Cursor.ofBytes input).skipBlank)
      obtain ⟨bs, hbs, hp'⟩ := Cursor.readAttribute_eq_ok_iff.mp ha
      obtain ⟨gap', hgap', hp'', _⟩ := Cursor.skipBlank_eq_iff.mp (Eq.refl c.skipBlank)
      refine ⟨gap, bs, gap', ?_, hgap, hbs, hgap'⟩
      have hall := ((hp.trans hp').trans hp'').1
      rwa [List.isEmpty_iff.mp hend, List.append_nil] at hall
  · rintro ⟨gap, bs, gap', rfl, hgap, hbs, hgap'⟩
    have hrest : (Cursor.ofBytes (gap ++ bs ++ gap')).rest = gap ++ bs ++ gap' ++ [] :=
      (List.append_nil _).symm
    obtain ⟨hp, hend⟩ := Cursor.passes_advance hrest
    obtain ⟨c₂, hp, hp₃⟩ := hp.split
    obtain ⟨c₁, hp₁, hp₂⟩ := hp.split
    have hstop : Halts Text.isBlankByte c₁.rest := by
      obtain ⟨b, cs, rfl, hb⟩ := hbs.eq_cons
      rw [hp₂.1]
      exact halts_cons.mpr (isBlankByte_of_isNameStart hb)
    have hfirst : (Cursor.ofBytes (gap ++ bs ++ gap')).skipBlank = c₁ :=
      Cursor.skipBlank_eq_iff.mpr ⟨gap, hgap, hp₁, hstop⟩
    have hread : c₁.readAttribute = .ok (a, c₂) :=
      Cursor.readAttribute_eq_ok_iff.mpr ⟨bs, hbs, hp₂⟩
    have hlast := Cursor.skipBlank_eq_iff.mpr ⟨gap', hgap', hp₃, hend ▸ halts_nil _⟩
    rw [hfirst, hread]
    show (if c₂.skipBlank.atEnd then _ else _) = _
    rw [hlast, if_pos (by rw [Cursor.atEnd, hend]; rfl)]

/-- An attribute can be made of a name and any value if the name is one, blanks around it
aside. Then it has that name and that value. -/
theorem Attribute.make_eq_ok_iff {name value : String} {a : Attribute} :
    Attribute.make name value = .ok a ↔
      IsName (Text.strip name) ∧ a = ⟨Text.strip name, value, .double⟩ := by
  let escaped := Reference.escapeAttribute .double value
  have hdecode : Reference.decode escaped = .ok value :=
    Reference.decode_escape (Reference.inAttribute_faithful _) _
  have hadmits : Quote.double.Admits escaped := Reference.admits_escapeAttribute _ _
  have hbytes : Text.bytes (Attribute.mk name value .double).write =
      Text.bytes name ++ ['='.toUInt8] ++
        ([Quote.double.byte] ++ (Text.bytes escaped ++ [Quote.double.byte])) :=
    Attribute.bytes_write _
  rw [Attribute.make, Attribute.parse_eq_ok_iff, hbytes]
  constructor
  · rintro ⟨gap, bs, gap', hsplit, hgap, ⟨g, g', raw, hname, hg, hg', hraw, hvalue, rfl⟩, hgap'⟩
    obtain ⟨aname, avalue, quote⟩ := a
    simp only at hname hraw hvalue hsplit
    have hall : (gap ++ Text.bytes aname ++ g ++ ['='.toUInt8] ++ g' ++
        quote.byte :: Text.bytes raw) ++ [quote.byte] ++ gap' =
        (Text.bytes name ++ ['='.toUInt8] ++ Quote.double.byte :: Text.bytes escaped) ++
          [Quote.double.byte] := by
      simpa using hsplit.symm
    -- the last byte is the closing quote, so nothing stands behind the attribute
    obtain rfl : gap' = [] := hgap'.eq_nil_of_append (by decide) hall
    rw [List.append_nil] at hall
    obtain ⟨hall, hquote⟩ := List.append_inj' hall rfl
    have hquote : quote.byte = Quote.double.byte := by simpa using hquote
    -- neither value has a quote in it, so they begin at the same one
    rw [hquote] at hall
    obtain ⟨hlead, hraw'⟩ := append_cons_inj_of_last
      (fun h => (hraw _ h).1 hquote.symm) (fun h => (hadmits _ h).1 rfl) hall
    obtain rfl : raw = escaped := Text.bytes_injective hraw'
    -- the name in the attribute ends at the last equals sign
    obtain rfl : g' = [] := hg'.eq_nil_of_append (by decide) hlead
    rw [List.append_nil] at hlead
    obtain ⟨hlead, _⟩ := List.append_inj' hlead rfl
    obtain ⟨before, rfl⟩ := hgap.isText
    obtain ⟨after, rfl⟩ := hg.isText
    obtain rfl : before ++ aname ++ after = name := Text.bytes_injective (by simpa using hlead)
    rw [hname.strip_eq hgap hg]
    refine ⟨hname, ?_⟩
    rw [hdecode] at hvalue
    cases hvalue
    cases quote with
    | double => rfl
    | single => exact absurd hquote (by decide)
  · rintro ⟨hname, rfl⟩
    obtain ⟨before, after, hsplit, hbefore, hafter⟩ := Text.exists_strip name
    refine ⟨Text.bytes before, _, [], ?_, hbefore, ⟨Text.bytes after, [], escaped, hname, hafter,
      by simp [Blanks], hadmits, hdecode, rfl⟩, by simp [Blanks]⟩
    have hname' : Text.bytes name =
        Text.bytes before ++ Text.bytes (Text.strip name) ++ Text.bytes after := by
      rw [← Text.bytes_append, ← Text.bytes_append, ← hsplit]
    simp [hname']

end TextHoist
