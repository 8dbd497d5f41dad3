/-
  What reading can fail with, and where. `e.MetFrom c` says what an error met on the way from
  a cursor can be: it lies in the markup, or in an encoding, and then what is left to read
  is no text; and it points at a stretch of what is left. Every reading function fails in
  that way only (`Cursor.FailsWithin`). A failure further on counts as one from where the
  reading began, provided that text was passed on the way (`Cursor.FailsWithin.before`), so
  each function is accounted for by those it calls.

  Bytes are taken to be text in pieces, and the scanning goes byte by byte. That no piece
  ends inside a character is due to what it ends at: the end of the input, or an ASCII byte
  (`Cursor.Passes.isText`).
-/
import TextHoist.Proofs.Markup.ReadLeaf
import TextHoist.Proofs.Text.Boundary

namespace TextHoist

/-- The causes that lie in the markup, rather than in its encoding, its size or an edit. -/
def Cause.isOfMarkup : Cause → Bool
  | invalidUtf8 | sizeExceeded _ | malformed _ => false
  | _ => true

namespace Cursor

/-- The cursor `c'` is reached from `c` by reading whole characters. -/
def PassesText (c c' : Cursor) : Prop := ∃ bs, c.Passes bs c' ∧ Text.IsText bs

theorem PassesText.refl (c : Cursor) : c.PassesText c :=
  ⟨[], passes_nil_iff.mpr rfl, Text.isText_nil⟩

theorem PassesText.trans {c c' c'' : Cursor} (h : c.PassesText c') (h' : c'.PassesText c'') :
    c.PassesText c'' := by
  obtain ⟨bs, hp, ht⟩ := h
  obtain ⟨cs, hp', ht'⟩ := h'
  exact ⟨bs ++ cs, hp.trans hp', ht.append ht'⟩

end Cursor

/-- The error can be met in reading on from `c`. -/
structure Error.MetFrom (e : Error) (c : Cursor) : Prop where
  cause : e.cause.isOfMarkup = true ∨ e.cause = .invalidUtf8 ∧ ¬ Text.IsText c.rest
  place : ∃ pre mid c₁ c₂, c.Passes pre c₁ ∧ c₁.Passes mid c₂ ∧
    e.span = ⟨c₁.position, c₂.position⟩

theorem Error.MetFrom.before {e : Error} {c c' : Cursor} (h : e.MetFrom c')
    (hp : c.PassesText c') : e.MetFrom c := by
  obtain ⟨bs, hp, ht⟩ := hp
  obtain ⟨pre, mid, c₁, c₂, hpre, hmid, hspan⟩ := h.place
  refine ⟨h.cause.imp_right fun hcause => ⟨hcause.1, fun htext => hcause.2 ?_⟩,
    bs ++ pre, mid, c₁, c₂, hp.trans hpre, hmid, hspan⟩
  rw [hp.1] at htext
  exact ht.of_append htext

namespace Cursor

/-- If the result is an error, it is one that can be met in reading on from `c`. -/
def FailsWithin {α : Type} (c : Cursor) (r : Except Error α) : Prop :=
  ∀ e, r = .error e → e.MetFrom c

section Rules

variable {α β : Type} {c c' : Cursor}

theorem failsWithin_ok (a : α) : c.FailsWithin (.ok a : Except Error α) := by
  intro e h
  cases h

theorem FailsWithin.bind {x : Except Error α} {f : α → Except Error β} (hx : c.FailsWithin x)
    (hf : ∀ a, x = .ok a → c.FailsWithin (f a)) : c.FailsWithin (x >>= f) := by
  intro e h
  cases hr : x with
  | error e' =>
    rw [hr] at h
    cases h
    exact hx e hr
  | ok a =>
    rw [hr] at h
    exact hf a hr e h

theorem FailsWithin.before {r : Except Error α} (h : c'.FailsWithin r) (hp : c.PassesText c') :
    c.FailsWithin r :=
  fun e he => (h e he).before hp

/-- A fault of the markup is reported over bytes that have been passed. -/
theorem failsWithin_over {bs : List UInt8} {e : Error} (hp : c.Passes bs c')
    (hspan : e.span = ⟨c.position, c'.position⟩) (hcause : e.cause.isOfMarkup = true) :
    c.FailsWithin (.error e : Except Error α) := by
  intro _ h
  cases h
  exact ⟨.inl hcause, [], bs, c, c', passes_nil_iff.mpr rfl, hp, hspan⟩

/-- Or at the place behind them. -/
theorem failsWithin_behind {bs : List UInt8} {e : Error} (hp : c.Passes bs c')
    (hspan : e.span = .point c'.position) (hcause : e.cause.isOfMarkup = true) :
    c.FailsWithin (.error e : Except Error α) := by
  intro _ h
  cases h
  exact ⟨.inl hcause, bs, [], c', c', hp, passes_nil_iff.mpr rfl, hspan⟩

theorem failsWithin_here {e : Error} (hspan : e.span = .point c.position)
    (hcause : e.cause.isOfMarkup = true) : c.FailsWithin (.error e : Except Error α) :=
  failsWithin_behind (passes_nil_iff.mpr rfl) hspan hcause

/-- Bytes that encode no text are reported where the cursor is, if they show that what is
left is none either. -/
theorem failsWithin_textOf {bs : List UInt8} (h : Text.IsText c.rest → Text.IsText bs) :
    c.FailsWithin (textOf c.position bs) := by
  intro e he
  have hbad : ¬ Text.IsText bs := by
    rintro ⟨s, hs⟩
    rw [textOf_eq_ok_iff.mpr hs] at he
    cases he
  have he' : e = .here c.position .invalidUtf8 := by
    unfold textOf at he
    split at he <;> cases he
    rfl
  subst he'
  exact ⟨.inr ⟨rfl, fun htext => hbad (h htext)⟩, [], [], c, c, passes_nil_iff.mpr rfl,
    passes_nil_iff.mpr rfl, rfl⟩

/-- Bytes that are passed up to where no character goes on are text if all that is left is. -/
theorem Passes.isText {bs : List UInt8} (hp : c.Passes bs c')
    (hcut : Halts Position.isContinuation c'.rest) (h : Text.IsText c.rest) : Text.IsText bs := by
  rw [hp.1] at h
  exact (h.split hcut).1

theorem failsWithin_decodedText {bs : List UInt8} (hp : c.Passes bs c')
    (hcut : Halts Position.isContinuation c'.rest) :
    c.FailsWithin (decodedText ⟨c.position, c'.position⟩ bs) := by
  refine (failsWithin_textOf (hp.isText hcut)).bind fun raw _ => ?_
  cases Reference.decode raw with
  | error entity => exact failsWithin_over hp rfl rfl
  | ok value => exact failsWithin_ok value

end Rules

end Cursor

/-! ## Where the pieces end -/

theorem wide_of_isContinuation {b : UInt8} (h : Position.isContinuation b = true) :
    0x80 ≤ b.toNat := by
  rw [Position.isContinuation_eq, decide_eq_true_eq] at h
  exact h.1

theorem isNameByte_of_isContinuation {b : UInt8} (h : Position.isContinuation b = true) :
    isNameByte b = true := by
  have hwide : 0x80 ≤ b := UInt8.le_iff_toNat_le.mpr (wide_of_isContinuation h)
  refine isNameByte_of_isNameStart ?_
  simp [isNameStart, hwide]

theorem ne_of_isContinuation {b : UInt8} (h : Position.isContinuation b = true) {ch : Char}
    (hch : ch.toNat < 0x80) : b ≠ ch.toUInt8 := by
  rintro rfl
  have := wide_of_isContinuation h
  rw [Text.toNat_toUInt8 ch hch] at this
  omega

/-- A run that takes in every continuation does not end before one. -/
theorem Halts.continuation {p : UInt8 → Bool} {bs : List UInt8} (h : Halts p bs)
    (hp : ∀ b, Position.isContinuation b = true → p b = true) :
    Halts Position.isContinuation bs := by
  intro b hb
  cases hcont : Position.isContinuation b with
  | false => rfl
  | true =>
    have := hp b hcont
    rw [h b hb] at this
    cases this

/-! ## Names, attributes and tags -/

namespace Cursor

variable {c c' : Cursor}

theorem passesText_skipBlank (c : Cursor) : c.PassesText c.skipBlank := by
  obtain ⟨gap, hgap, hp, _⟩ := skipBlank_eq_iff.mp (Eq.refl c.skipBlank)
  exact ⟨gap, hp, hgap.isText⟩

theorem passesText_expect {ch : Char} (hch : ch.toNat < 0x80) (h : c.expect ch = .ok c') :
    c.PassesText c' :=
  ⟨_, expect_eq_ok_iff.mp h, Text.isText_singleton ch hch⟩

theorem passesText_readName {name : String} (h : c.readName = .ok (name, c')) :
    c.PassesText c' :=
  ⟨_, (readName_eq_ok_iff.mp h).2.1, Text.isText_bytes name⟩

theorem passesText_readAttribute {a : Attribute} (h : c.readAttribute = .ok (a, c')) :
    c.PassesText c' := by
  obtain ⟨bs, hbs, hp⟩ := readAttribute_eq_ok_iff.mp h
  exact ⟨bs, hp, hbs.isText⟩

theorem failsWithin_expect (c : Cursor) (ch : Char) : c.FailsWithin (c.expect ch) := by
  unfold expect
  split
  · exact failsWithin_ok _
  · exact failsWithin_here rfl rfl

theorem failsWithin_readName (c : Cursor) : c.FailsWithin c.readName := by
  unfold readName
  split
  · obtain ⟨hp, hh⟩ := c.passes_run isNameByte
    have hcut := hh.continuation fun _ => isNameByte_of_isContinuation
    exact (failsWithin_textOf (hp.isText hcut)).bind fun name _ => failsWithin_ok _
  · exact failsWithin_here rfl rfl

theorem failsWithin_readQuote (c : Cursor) : c.FailsWithin c.readQuote := by
  unfold readQuote
  split
  · exact failsWithin_ok _
  · split
    · exact failsWithin_ok _
    · exact failsWithin_here rfl rfl

theorem failsWithin_readValue (c : Cursor) (quote : Quote) : c.FailsWithin (c.readValue quote) := by
  obtain ⟨hp, _⟩ := c.passes_run fun b => b != quote.char.toUInt8 && b != '<'.toUInt8
  unfold readValue
  simp only []
  generalize c.run _ = bs at hp ⊢
  generalize c.advance bs.length = stop at hp ⊢
  split
  case isTrue hquote =>
    have hcut : Halts Position.isContinuation stop.rest := by
      rw [(isAt_iff.mp hquote).1]
      exact halts_cons.mpr (by cases quote <;> rfl)
    exact (failsWithin_decodedText hp hcut).bind fun value _ => failsWithin_ok _
  case isFalse =>
    split
    · exact failsWithin_behind hp rfl rfl
    · exact failsWithin_behind hp rfl rfl

theorem failsWithin_readAttribute (c : Cursor) : c.FailsWithin c.readAttribute := by
  unfold readAttribute
  refine c.failsWithin_readName.bind fun ⟨name, c₁⟩ hname => ?_
  refine .before ?_ ((passesText_readName hname).trans c₁.passesText_skipBlank)
  refine (failsWithin_expect _ _).bind fun c₂ hequals => ?_
  refine .before ?_ ((passesText_expect (by decide) hequals).trans c₂.passesText_skipBlank)
  refine (failsWithin_readQuote _).bind fun ⟨quote, c₃⟩ hquote => ?_
  refine .before ?_ ⟨_, readQuote_eq_ok_iff.mp hquote, quote.isText_byte⟩
  exact (failsWithin_readValue c₃ quote).bind fun value _ => failsWithin_ok _

theorem failsWithin_readAttributes (allowRepeats : Bool) (seen : List Attribute) (c : Cursor) :
    c.FailsWithin (readAttributes allowRepeats seen c) := by
  fun_induction readAttributes allowRepeats seen c with
  | case1 => exact failsWithin_here rfl rfl
  | case2 => exact failsWithin_ok _
  | case3 seen c _ _ e he =>
    intro _ h
    cases h
    exact c.failsWithin_readAttribute e he
  | case4 seen c _ _ a c₁ ha =>
    obtain ⟨bs, _, hp⟩ := readAttribute_eq_ok_iff.mp ha
    exact failsWithin_over hp rfl rfl
  | case5 seen c _ _ a c₁ ha _ ih =>
    exact .before ih ((passesText_readAttribute ha).trans c₁.passesText_skipBlank)

theorem passesText_readAttributes {allowRepeats : Bool} {seen as : List Attribute}
    (h : readAttributes allowRepeats seen c = .ok (as, c')) : c.PassesText c' := by
  obtain ⟨bs, new, ⟨attributes, gap, hattributes, hgap, rfl⟩, hp, _⟩ := readAttributes_sound h
  exact ⟨_, hp, hattributes.isText.append hgap.isText⟩

theorem failsWithin_readTagEnd (c : Cursor) : c.FailsWithin c.readTagEnd := by
  unfold readTagEnd
  split
  case isTrue hslash =>
    have hp : c.PassesText (c.advance 1) :=
      ⟨_, isAt_iff.mp hslash, Text.isText_singleton '/' (by decide)⟩
    exact .before ((failsWithin_expect _ _).bind fun _ _ => failsWithin_ok _) hp
  case isFalse => exact (failsWithin_expect _ _).bind fun _ _ => failsWithin_ok _

theorem failsWithin_readTag (allowRepeats : Bool) (c : Cursor) :
    c.FailsWithin (readTag allowRepeats c) := by
  unfold readTag
  refine (failsWithin_expect _ _).bind fun c₁ hopen => ?_
  refine .before ?_ (passesText_expect (by decide) hopen)
  split
  · exact failsWithin_here rfl rfl
  · refine c₁.failsWithin_readName.bind fun ⟨name, c₂⟩ hname => ?_
    refine .before ?_ ((passesText_readName hname).trans c₂.passesText_skipBlank)
    refine (failsWithin_readAttributes _ _ _).bind fun ⟨as, c₃⟩ has => ?_
    refine .before ?_ (passesText_readAttributes has)
    exact c₃.failsWithin_readTagEnd.bind fun ⟨form, stop⟩ _ => failsWithin_ok _

theorem failsWithin_readClosingTag (opened : String) (hc : c.startsWith "</" = true) :
    c.FailsWithin (c.readClosingTag opened) := by
  obtain ⟨c₀, hp₀⟩ := startsWithBytes_iff.mp hc
  have hc₀ : c.advance 2 = c₀ := hp₀.2.symm
  have hopen : c.PassesText c₀ := ⟨_, hp₀, Text.isText_bytes "</"⟩
  unfold readClosingTag
  rw [hc₀]
  refine (c₀.failsWithin_readName.before hopen).bind fun ⟨closed, c₁⟩ hname => ?_
  simp only
  split
  · have hp := (hopen.trans (passesText_readName hname)).trans c₁.passesText_skipBlank
    exact (failsWithin_expect _ _).before hp
  · exact failsWithin_over (hp₀.trans (readName_eq_ok_iff.mp hname).2.1) rfl rfl

/-! ## Leaves -/

theorem failsWithin_readDelimited {kind : LeafKind} (hk : kind ≠ .text) (hc : c.opens kind = true) :
    c.FailsWithin (c.readDelimited kind) := by
  obtain ⟨c₀, hp₀⟩ := startsWithBytes_iff.mp hc
  have hc₀ : c.advance kind.opener.utf8ByteSize = c₀ := hp₀.2.symm
  unfold readDelimited
  simp only [hc₀]
  split
  case h_1 =>
    obtain ⟨hend, _⟩ := passes_advance (List.append_nil c₀.rest).symm
    exact failsWithin_over (hp₀.trans hend) rfl rfl
  case h_2 n hn =>
    obtain ⟨cs, rest, hrest, rfl, _⟩ := (LeafKind.contentEnd?_eq_some_iff hk).mp hn
    refine (failsWithin_textOf fun htext => ?_).bind fun content _ => failsWithin_ok _
    -- the closer begins with an ASCII byte
    have hcut : Halts Position.isContinuation (Text.bytes kind.closer ++ rest) := by
      cases kind with
      | text => exact absurd rfl hk
      | _ => exact halts_cons.mpr rfl
    rw [hp₀.1, hrest] at htext
    rw [hrest, List.take_left]
    exact (((Text.isText_bytes _).of_append htext).split hcut).1

theorem failsWithin_readCharacterData (c : Cursor) : c.FailsWithin c.readCharacterData := by
  obtain ⟨hp, hh⟩ := c.passes_run (· != '<'.toUInt8)
  have hcut := hh.continuation fun b hb => bne_iff_ne.mpr (ne_of_isContinuation hb (by decide))
  exact (failsWithin_decodedText hp hcut).bind fun content _ => failsWithin_ok _

theorem failsWithin_readBlank (c : Cursor) : c.FailsWithin c.readBlank := by
  have hblank : Blanks (c.run Text.isBlankByte) := fun b hb => mem_run hb
  exact (failsWithin_textOf fun _ => hblank.isText).bind fun content _ => failsWithin_ok _

theorem failsWithin_outerLeaf? {r : Except Error (Node × Cursor)} (h : c.outerLeaf? = some r) :
    c.FailsWithin r := by
  rcases outerLeaf?_cases h with ⟨_, rfl⟩ | ⟨kind, hk, _, hc, _, rfl⟩
  · exact c.failsWithin_readBlank
  · exact failsWithin_readDelimited hk hc

theorem failsWithin_innerLeaf? {r : Except Error (Node × Cursor)} (h : c.innerLeaf? = some r) :
    c.FailsWithin r := by
  rcases innerLeaf?_cases h with ⟨kind, hk, _, hc, rfl⟩ | ⟨_, _, rfl⟩
  · exact failsWithin_readDelimited hk hc
  · exact c.failsWithin_readCharacterData

end Cursor

end TextHoist
