/-
  The errors that a whole input can be refused with. Whatever stands in it, an error lies in
  the bytes that are read, unless the input is too long and nothing is read at all
  (`Document.parse_error_cases`). Hence two facts about every input: only text is accepted,
  and no text is refused for its encoding; and an error points at a place of the input, with
  the line and column that a cursor has there.

  An element that is never closed is reported from its opening tag on, which has been read
  long before. `Draft.ReadFrom` keeps of every open element that its tag was come to; each
  turn preserves that (`Draft.ReadFrom.turn`), and so does the whole run.
-/
import TextHoist.Proofs.Markup.Acceptance
import TextHoist.Proofs.Markup.Faults
import TextHoist.Proofs.Markup.Written

namespace TextHoist

/-! ## Documents -/

/-- The elements that are open, innermost first. -/
def Draft.opened : Draft → List OpenElement
  | building _ stack => stack
  | ending .. => []

variable {limits : Limits} {c c' : Cursor}

/-- A turn passes text. -/
theorem Turn.passesText {draft draft' : Draft} (h : Turn limits c c' draft draft') :
    c.PassesText c' := by
  have hleaf : ∀ {zone : Zone} {n : Node}, c.PassesLeaf zone n c' → c.PassesText c' := by
    intro zone n hl
    obtain ⟨_, bs, _, hspelled, hp, _⟩ := hl
    exact ⟨bs, hp, hspelled.isText⟩
  cases h with
  | leading hl => exact hleaf hl
  | trailing hl => exact hleaf hl
  | inner hl => exact hleaf hl
  | single htag _ hp => exact ⟨_, hp, htag.isText⟩
  | opening htag _ _ hp => exact ⟨_, hp, htag.isText⟩
  | closing hclose hp => exact ⟨_, hp, hclose.isText⟩

theorem Draft.mem_opened_place {leading : List Node} {stack : List OpenElement} {e : Element}
    {o : OpenElement} (h : o ∈ (place leading stack e).opened) : ∃ o' ∈ stack, o'.tag = o.tag := by
  cases stack with
  | nil => cases h
  | cons o' outer =>
    rcases List.mem_cons.mp h with rfl | h
    · exact ⟨o', List.mem_cons_self, rfl⟩
    · exact ⟨o, List.mem_cons_of_mem _ h, rfl⟩

/-- What is open after a turn was open before, or has been opened by it. -/
theorem Turn.opened {draft draft' : Draft} (h : Turn limits c c' draft draft') :
    ∀ o ∈ draft'.opened, o.tag.span.start = c.position ∨ ∃ o' ∈ draft.opened, o'.tag = o.tag := by
  intro o ho
  cases h with
  | leading => cases ho
  | trailing => cases ho
  | @inner _ o' outer =>
    rcases List.mem_cons.mp ho with rfl | ho
    · exact .inr ⟨o', List.mem_cons_self, rfl⟩
    · exact .inr ⟨o, List.mem_cons_of_mem _ ho, rfl⟩
  | single => exact .inr (Draft.mem_opened_place ho)
  | opening =>
    rcases List.mem_cons.mp ho with rfl | ho
    · exact .inl rfl
    · exact .inr ⟨o, ho, rfl⟩
  | closing =>
    obtain ⟨o', ho', htag⟩ := Draft.mem_opened_place ho
    exact .inr ⟨o', List.mem_cons_of_mem _ ho', htag⟩

namespace Draft

theorem failsWithin_enter (leading : List Node) (stack : List OpenElement) (c : Cursor) :
    c.FailsWithin (enter limits leading stack c) := by
  unfold enter
  refine (Cursor.failsWithin_readTag _ _).bind fun ⟨tag, c₁⟩ htag => ?_
  obtain ⟨_, _, _, _, hspan⟩ := Cursor.readTag_eq_ok_iff.mp htag
  simp only
  split
  · exact Cursor.failsWithin_ok _
  · refine .bind ?_ fun _ _ => Cursor.failsWithin_ok _
    unfold Limits.checkDepth
    rw [hspan]
    split
    · exact Cursor.failsWithin_here rfl rfl
    · exact Cursor.failsWithin_ok _

/-- A step fails at what comes next, or because an element is open at the end. -/
theorem step_error {draft : Draft} {e : Error} (h : step limits draft c = .error e) :
    e.MetFrom c ∨ ∃ o ∈ draft.opened, e = unclosed o c.position := by
  have hkeep : ∀ {grow : Node → Draft} {r : Except Error (Node × Cursor)}, c.FailsWithin r →
      c.FailsWithin (keep grow r) := fun hr => hr.bind fun _ _ => Cursor.failsWithin_ok _
  unfold step at h
  split at h
  case h_1 =>
    split at h
    case h_1 r hr => exact .inl (hkeep (Cursor.failsWithin_outerLeaf? hr) e h)
    case h_2 =>
      split at h
      case isTrue => exact .inl (Cursor.failsWithin_here rfl rfl e h)
      case isFalse => exact .inl (failsWithin_enter _ _ _ e h)
  case h_2 leading o outer =>
    split at h
    case isTrue hc =>
      have hclose := Cursor.failsWithin_readClosingTag o.tag.name hc
      exact .inl (hclose.bind (fun _ _ => Cursor.failsWithin_ok _) e h)
    case isFalse =>
      split at h
      case h_1 r hr => exact .inl (hkeep (Cursor.failsWithin_innerLeaf? hr) e h)
      case h_2 =>
        split at h
        case isTrue =>
          cases h
          exact .inr ⟨o, List.mem_cons_self, rfl⟩
        case isFalse => exact .inl (failsWithin_enter _ _ _ e h)
  case h_3 =>
    split at h
    case h_1 r hr => exact .inl (hkeep (Cursor.failsWithin_outerLeaf? hr) e h)
    case h_2 =>
      split at h
      case isTrue => cases h
      case isFalse => exact .inl (Cursor.failsWithin_here rfl rfl e h)

/-- Text has been passed from the origin to the cursor, and the tag of every open element on
the way. -/
def ReadFrom (origin : Cursor) (draft : Draft) (c : Cursor) : Prop :=
  origin.PassesText c ∧ ∀ o ∈ draft.opened, ∃ c₁ : Cursor, origin.PassesText c₁ ∧
    c₁.PassesText c ∧ o.tag.span.start = c₁.position

theorem ReadFrom.turn {origin : Cursor} {draft draft' : Draft} (h : ReadFrom origin draft c)
    (ht : Turn limits c c' draft draft') : ReadFrom origin draft' c' := by
  have hp := ht.passesText
  refine ⟨h.1.trans hp, fun o ho => ?_⟩
  rcases ht.opened o ho with hstart | ⟨o', ho', htag⟩
  · exact ⟨c, h.1, hp, hstart⟩
  · obtain ⟨c₁, hbefore, hafter, hstart⟩ := h.2 o' ho'
    exact ⟨c₁, hbefore, hafter.trans hp, htag ▸ hstart⟩

theorem ReadFrom.step_error {origin : Cursor} {draft : Draft} {e : Error}
    (h : ReadFrom origin draft c) (he : step limits draft c = .error e) : e.MetFrom origin := by
  rcases Draft.step_error he with hmet | ⟨o, ho, rfl⟩
  · exact hmet.before h.1
  · obtain ⟨c₁, ⟨pre, hpre, _⟩, ⟨mid, hmid, _⟩, hstart⟩ := h.2 o ho
    exact ⟨.inl rfl, pre, mid, c₁, c, hpre, hmid, by rw [unclosed, hstart]⟩

/-- However far the reading has come, what it fails with is met from the origin. -/
theorem ReadFrom.complete {origin : Cursor} {draft : Draft} (h : ReadFrom origin draft c) :
    origin.FailsWithin (complete limits draft c) := by
  fun_induction Draft.complete limits draft c with
  | case1 draft c e he =>
    intro _ hfail
    cases hfail
    exact h.step_error he
  | case2 => exact Cursor.failsWithin_ok _
  | case3 draft c draft' c' hmore ih => exact ih (h.turn (step_eq_more_iff.mp hmore))

end Draft

/-- An input that is too long is refused as such, before anything is read. All other errors
are met in reading. -/
theorem Document.parse_error_cases {bs : List UInt8} {e : Error}
    (h : Document.parse limits bs = .error e) :
    limits.maxSize < bs.length ∧ e = ⟨.sizeExceeded limits.maxSize, .nowhere, none⟩ ∨
      bs.length ≤ limits.maxSize ∧ e.MetFrom (.ofBytes bs) := by
  unfold Document.parse Limits.checkSize at h
  split at h
  case isTrue hlong =>
    cases h
    exact .inl ⟨hlong, rfl⟩
  case isFalse hshort =>
    have hstart : Draft.ReadFrom (.ofBytes bs) (.building [] []) (.ofBytes bs) :=
      ⟨.refl _, fun o ho => by cases ho⟩
    exact .inr ⟨Nat.not_lt.mp hshort, hstart.complete e h⟩

theorem Attribute.failsWithin_parse (bs : List UInt8) :
    (Cursor.ofBytes bs).FailsWithin (Attribute.parse bs) := by
  unfold Attribute.parse
  refine .before ?_ (Cursor.passesText_skipBlank _)
  refine (Cursor.failsWithin_readAttribute _).bind fun ⟨a, c⟩ ha => ?_
  have hp := (Cursor.passesText_readAttribute ha).trans c.passesText_skipBlank
  refine .before ?_ hp
  simp only
  split
  · exact Cursor.failsWithin_ok _
  · exact Cursor.failsWithin_here rfl rfl

/-! ## Encoding -/

theorem Document.SpelledBy.isText {d : Document} {bs : List UInt8} (h : d.SpelledBy bs) :
    Text.IsText bs := by
  obtain ⟨before, root, after, rfl, hleading, hroot, htrailing⟩ := h
  exact (hleading.isText.append (Contents.isText hroot)).append htrailing.isText

theorem Error.MetFrom.not_isText {e : Error} (h : e.MetFrom c) (hcause : e.cause = .invalidUtf8) :
    ¬ Text.IsText c.rest := by
  rcases h.cause with hmarkup | ⟨_, hrest⟩
  · rw [hcause] at hmarkup
    cases hmarkup
  · exact hrest

/-- Only text is read, as a document or as an attribute, and no text is refused for its
encoding. -/
theorem Document.parse_respects_encoding (limits : Limits) (bs : List UInt8) :
    (∀ d, Document.parse limits bs = .ok d → Text.IsText bs) ∧
    (Text.IsText bs → ∀ e, Document.parse limits bs = .error e → e.cause ≠ .invalidUtf8) ∧
    (∀ a, Attribute.parse bs = .ok a → Text.IsText bs) ∧
    (Text.IsText bs → ∀ e, Attribute.parse bs = .error e → e.cause ≠ .invalidUtf8) := by
  refine ⟨fun d h => ?_, fun htext e h hcause => ?_, fun a h => ?_, fun htext e h hcause => ?_⟩
  · obtain ⟨_, hspelled, _⟩ := Document.parse_eq_ok_iff.mp h
    exact hspelled.isText
  · rcases Document.parse_error_cases h with ⟨_, rfl⟩ | ⟨_, hmet⟩
    · cases hcause
    · exact hmet.not_isText hcause htext
  · obtain ⟨gap, spelled, gap', rfl, hgap, hspelled, hgap'⟩ := Attribute.parse_eq_ok_iff.mp h
    exact (hgap.isText.append hspelled.isText).append hgap'.isText
  · exact (Attribute.failsWithin_parse bs e h).not_isText hcause htext

/-- A name that breaks off inside a character, and a comment that breaks off behind one. -/
theorem Document.parse_respects_encoding_broken :
    Document.parse {} [0x3C, 0xC3] = .error (.here ⟨1, 1, 2⟩ .invalidUtf8) ∧
      ¬ Text.IsText [0x3C, 0xC3] ∧
      ∀ e, Document.parse {} (Text.bytes "<!--é") = .error e → e.cause ≠ .invalidUtf8 := by
  have hread : Document.parse {} [0x3C, 0xC3] = .error (.here ⟨1, 1, 2⟩ .invalidUtf8) :=
    Draft.complete_of_error rfl
  refine ⟨hread, fun htext => ?_, ?_⟩
  · exact (Document.parse_respects_encoding {} _).2.1 htext _ hread rfl
  · exact (Document.parse_respects_encoding {} _).2.1 (Text.isText_bytes "<!--é")

/-! ## Places -/

/-- The span goes from one place of the input to another that is not before it, and tells
their lines and columns as a cursor moved there does. -/
def Span.PointsInto (span : Span) (bs : List UInt8) : Prop :=
  span.start.offset ≤ span.stop.offset ∧ span.stop.offset ≤ bs.length ∧
    span.start = ((Cursor.ofBytes bs).advance span.start.offset).position ∧
    span.stop = ((Cursor.ofBytes bs).advance span.stop.offset).position

theorem Error.MetFrom.ofReading {e : Error} (h : e.MetFrom c) :
    (∀ max, e.cause ≠ .sizeExceeded max) ∧ e.cause.isMalformed = false := by
  have hcause := h.cause
  cases hc : e.cause with
  | sizeExceeded | malformed => simp [hc, Cause.isOfMarkup] at hcause
  | _ => simp [Cause.isMalformed]

theorem Cursor.Passes.place {bs cs : List UInt8} (h : (Cursor.ofBytes bs).Passes cs c) :
    c.position.offset = cs.length ∧ cs.length ≤ bs.length ∧
      c.position = ((Cursor.ofBytes bs).advance c.position.offset).position := by
  have hoffset : c.position.offset = cs.length := by
    rw [h.position, Position.past_offset]
    exact Nat.zero_add _
  have hbs : bs = cs ++ c.rest := h.1
  refine ⟨hoffset, ?_, ?_⟩
  · rw [hbs, List.length_append]
    exact Nat.le_add_right _ _
  · rw [hoffset, ← h.2]

theorem Error.MetFrom.pointsInto {e : Error} {bs : List UInt8} (h : e.MetFrom (.ofBytes bs)) :
    e.span.PointsInto bs := by
  obtain ⟨pre, mid, c₁, c₂, hpre, hmid, hspan⟩ := h.place
  obtain ⟨hstart, _, hplace⟩ := hpre.place
  obtain ⟨hstop, hle, hplace'⟩ := (hpre.trans hmid).place
  rw [hspan]
  refine ⟨?_, hstop ▸ hle, hplace, hplace'⟩
  simp only [hstart, hstop, List.length_append]
  exact Nat.le_add_right _ _

/-- Whatever keeps an input from being read is reported at a place in it, unless it is too
long, which concerns no place. -/
theorem Document.parse_error_points_inside {limits : Limits} {bs : List UInt8} {e : Error}
    (h : Document.parse limits bs = .error e) :
    (e = ⟨.sizeExceeded limits.maxSize, .nowhere, none⟩ ∧ limits.maxSize < bs.length) ∨
    (bs.length ≤ limits.maxSize ∧ (∀ max, e.cause ≠ .sizeExceeded max) ∧
      e.cause.isMalformed = false ∧ e.span.PointsInto bs) := by
  rcases Document.parse_error_cases h with ⟨hlong, he⟩ | ⟨hshort, hmet⟩
  · exact .inl ⟨he, hlong⟩
  · obtain ⟨hsize, hmalformed⟩ := hmet.ofReading
    exact .inr ⟨hshort, hsize, hmalformed, hmet.pointsInto⟩

/-- A comment that goes on to the end of the input, on the second line. -/
theorem Document.parse_error_points_inside_comment :
    ∃ e : Error, Document.parse {} (Text.bytes "<!--世\n-") = .error e ∧
      e.cause = .unterminated ∧ e.span = ⟨⟨0, 1, 1⟩, ⟨9, 2, 2⟩⟩ ∧
      e.span.PointsInto (Text.bytes "<!--世\n-") := by
  have hread : Document.parse {} (Text.bytes "<!--世\n-") =
    .error ⟨.unterminated, ⟨⟨0, 1, 1⟩, ⟨9, 2, 2⟩⟩, none⟩ := Draft.complete_of_error rfl
  rcases Document.parse_error_points_inside hread with ⟨hlong, _⟩ | ⟨_, _, _, hpoints⟩
  · cases hlong
  · exact ⟨_, hread, rfl, rfl, hpoints⟩

end TextHoist
