/-
  Tags and the attributes in them. The order in which the input is looked at decides
  which of several faults is reported, namely the first one met: a repeated attribute
  before what is wrong with a later one, a closing tag of the wrong name before a missing
  `>`.
-/
import TextHoist.Markup.Lexeme

namespace TextHoist

/-- An opening tag, or the single tag of an element written as one. -/
structure Tag where
  name : String
  attributes : List Attribute
  form : TagForm
  span : Span
  deriving DecidableEq, Repr

namespace Cursor

/-- The quote that opens an attribute value. -/
def readQuote (c : Cursor) : Except Error (Quote × Cursor) :=
  if c.isAt Quote.double.char then .ok (.double, c.advance 1)
  else if c.isAt Quote.single.char then .ok (.single, c.advance 1)
  else .error (.noted c.position .invalidToken "expected quoted attribute value")

/-- An attribute value behind its opening quote, up to and with the closing one. -/
def readValue (c : Cursor) (quote : Quote) : Except Error (String × Cursor) :=
  let bs := c.run fun b => b != quote.char.toUInt8 && b != '<'.toUInt8
  let stop := c.advance bs.length
  if stop.isAt quote.char then do
    let value ← decodedText ⟨c.position, stop.position⟩ bs
    return (value, stop.advance 1)
  else if stop.atEnd then
    .error (.noted stop.position .unterminated "unterminated attribute value")
  else .error (.noted stop.position .invalidToken "'<' not allowed in attribute value")

/-- A name and a quoted value, blanks allowed around the equals sign. -/
def readAttribute (c : Cursor) : Except Error (Attribute × Cursor) := do
  let (name, c) ← c.readName
  let c ← c.skipBlank.expect '='
  let (quote, c) ← c.skipBlank.readQuote
  let (value, c) ← c.readValue quote
  return (⟨name, value, quote⟩, c)

theorem readQuote_moves (c : Cursor) : c.Moves c.readQuote := by
  intro q c' h
  unfold readQuote at h
  split at h
  case isTrue hp => cases h; exact ⟨1, by omega, reads_one_of_isAt hp⟩
  case isFalse =>
    split at h
    case isTrue hp => cases h; exact ⟨1, by omega, reads_one_of_isAt hp⟩
    case isFalse => cases h

theorem readValue_moves (c : Cursor) (quote : Quote) : c.Moves (c.readValue quote) := by
  intro value c' h
  unfold readValue at h
  simp only at h
  split at h
  case isTrue hp =>
    obtain ⟨t, _, h⟩ := exists_of_bind_eq_ok h
    cases h
    exact ⟨_, by omega, (reads_advance (c.length_run_le _)).trans (reads_one_of_isAt hp)⟩
  case isFalse =>
    split at h <;> cases h

theorem readAttribute_moves (c : Cursor) : c.Moves c.readAttribute := by
  intro a c' h
  unfold readAttribute at h
  obtain ⟨⟨name, c₁⟩, hn, h⟩ := exists_of_bind_eq_ok h
  obtain ⟨c₂, he, h⟩ := exists_of_bind_eq_ok h
  obtain ⟨⟨quote, c₃⟩, hq, h⟩ := exists_of_bind_eq_ok h
  obtain ⟨⟨value, c₄⟩, hv, h⟩ := exists_of_bind_eq_ok h
  cases h
  obtain ⟨i, hi, hname⟩ := readName_moves _ _ _ hn
  obtain ⟨j, _, hquote⟩ := readQuote_moves _ _ _ hq
  obtain ⟨k, _, hvalue⟩ := readValue_moves _ _ _ _ hv
  have hc := hname.trans (c₁.reads_skipBlank.trans (expect_reads he))
  exact ⟨_, by omega, hc.trans (c₂.reads_skipBlank.trans (hquote.trans hvalue))⟩

/-- The attributes of a tag, from the first of them up to the `/` or `>` that ends the tag;
`seen` are those already read, latest first. Blanks between attributes are allowed and
not required. -/
def readAttributes (allowRepeats : Bool) (seen : List Attribute) (c : Cursor) :
    Except Error (List Attribute × Cursor) :=
  if c.atEnd then .error (.noted c.position .unterminated "unexpected end of input")
  else if c.isAt '/' || c.isAt '>' then .ok (seen.reverse, c)
  else
    match _h : c.readAttribute with
    | .error e => .error e
    | .ok (a, c') =>
      if !allowRepeats && seen.any (·.name == a.name) then
        .error ⟨.duplicateAttribute a.name, ⟨c.position, c'.position⟩, none⟩
      else readAttributes allowRepeats (a :: seen) c'.skipBlank
termination_by c.rest.length
decreasing_by
  have := c.readAttribute_moves.length_rest_lt _h
  have := c'.reads_skipBlank.length_rest
  omega

theorem readAttributes_reads {allowRepeats : Bool} {seen as : List Attribute} {c c' : Cursor}
    (h : readAttributes allowRepeats seen c = .ok (as, c')) : ∃ n, c.Reads n c' := by
  fun_induction readAttributes allowRepeats seen c with
  | case1 | case3 | case4 => cases h
  | case2 => cases h; exact ⟨0, .refl _⟩
  | case5 _ _ _ _ _ _ ha _ ih =>
    obtain ⟨n, hn⟩ := ih h
    obtain ⟨m, _, hm⟩ := readAttribute_moves _ _ _ ha
    exact ⟨_, hm.trans ((reads_skipBlank _).trans hn)⟩

/-- The end of a tag, which says how its element is written. -/
def readTagEnd (c : Cursor) : Except Error (TagForm × Cursor) :=
  if c.isAt '/' then do
    let c ← (c.advance 1).expect '>'
    return (.empty, c)
  else do
    let c ← c.expect '>'
    return (.paired, c)

/-- A tag that opens an element. -/
def readTag (allowRepeats : Bool) (c : Cursor) : Except Error (Tag × Cursor) := do
  let inner ← c.expect '<'
  if inner.isAt '/' then
    .error (.noted inner.position .invalidToken "unexpected closing tag")
  else do
    let (name, c₁) ← inner.readName
    let (attributes, c₂) ← readAttributes allowRepeats [] c₁.skipBlank
    let (form, stop) ← c₂.readTagEnd
    return (⟨name, attributes, form, ⟨c.position, stop.position⟩⟩, stop)

/-- The tag that closes the element of a given name; its `</` comes next. -/
def readClosingTag (c : Cursor) (opened : String) : Except Error Cursor := do
  let (closed, c') ← (c.advance 2).readName
  if closed = opened then c'.skipBlank.expect '>'
  else .error ⟨.mismatchedTag opened closed, ⟨c.position, c'.position⟩, none⟩

theorem readTagEnd_moves (c : Cursor) : c.Moves c.readTagEnd := by
  intro form c' h
  unfold readTagEnd at h
  split at h
  case isTrue hp =>
    obtain ⟨c₁, he, h⟩ := exists_of_bind_eq_ok h
    cases h
    exact ⟨_, by omega, (reads_one_of_isAt hp).trans (expect_reads he)⟩
  case isFalse =>
    obtain ⟨c₁, he, h⟩ := exists_of_bind_eq_ok h
    cases h
    exact ⟨_, by omega, expect_reads he⟩

theorem readTag_moves (allowRepeats : Bool) (c : Cursor) : c.Moves (readTag allowRepeats c) := by
  intro t c' h
  unfold readTag at h
  obtain ⟨inner, hi, h⟩ := exists_of_bind_eq_ok h
  split at h
  case isTrue => cases h
  case isFalse =>
    obtain ⟨⟨name, c₁⟩, hn, h⟩ := exists_of_bind_eq_ok h
    obtain ⟨⟨as, c₂⟩, ha, h⟩ := exists_of_bind_eq_ok h
    obtain ⟨⟨form, stop⟩, he, h⟩ := exists_of_bind_eq_ok h
    cases h
    obtain ⟨i, _, hname⟩ := readName_moves _ _ _ hn
    obtain ⟨j, hattributes⟩ := readAttributes_reads ha
    obtain ⟨k, _, hend⟩ := readTagEnd_moves _ _ _ he
    exact ⟨_, by omega, (expect_reads hi).trans (hname.trans
      (c₁.reads_skipBlank.trans (hattributes.trans hend)))⟩

theorem readClosingTag_moves {c c' : Cursor} {opened : String} (hc : c.startsWith "</" = true)
    (h : c.readClosingTag opened = .ok c') : ∃ n, 0 < n ∧ c.Reads n c' := by
  unfold readClosingTag at h
  obtain ⟨⟨closed, c₁⟩, hn, h⟩ := exists_of_bind_eq_ok h
  simp only at h
  split at h
  case isFalse => cases h
  case isTrue =>
    obtain ⟨i, _, hname⟩ := readName_moves _ _ _ hn
    have hopen := reads_of_startsWith hc
    exact ⟨_, by omega, hopen.trans (hname.trans (c₁.reads_skipBlank.trans (expect_reads h)))⟩

end Cursor

end TextHoist
