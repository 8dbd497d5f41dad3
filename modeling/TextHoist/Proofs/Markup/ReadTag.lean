/-
  Reading names, attributes and tags, against the grammar. Each reading function has one
  statement of the form "it gives `x` and the cursor `c'` exactly if bytes that spell `x`
  come next and `c'` is behind them", so both directions are at hand: what was read is
  spelled by the bytes passed, and what is spelled is read. Where the reading is the
  longest possible (names, blanks), the statement also says that it does not go on.
-/
import TextHoist.Proofs.Markup.Grammar

namespace TextHoist

theorem bind_eq_ok_iff {ε α β : Type} {x : Except ε α} {f : α → Except ε β} {b : β} :
    x >>= f = .ok b ↔ ∃ a, x = .ok a ∧ f a = .ok b := by
  constructor
  · exact exists_of_bind_eq_ok
  · rintro ⟨a, rfl, h⟩
    exact h

theorem mapError_eq_ok_iff {ε ε' α : Type} {x : Except ε α} {f : ε → ε'} {a : α} :
    x.mapError f = .ok a ↔ x = .ok a := by
  cases x with
  | error e =>
    constructor
    · intro h
      cases h
    · intro h
      cases h
  | ok b =>
    constructor
    · intro h
      cases h
      rfl
    · intro h
      cases h
      rfl

theorem toOption_eq_some_iff {ε α : Type} {x : Except ε α} {a : α} :
    x.toOption = some a ↔ x = .ok a := by
  cases x <;> simp [Except.toOption]

theorem textOf_eq_ok_iff {p : Position} {bs : List UInt8} {s : String} :
    textOf p bs = .ok s ↔ bs = Text.bytes s := by
  rw [← Text.ofBytes?_eq_some_iff, textOf]
  cases Text.ofBytes? bs <;> simp

theorem decodedText_eq_ok_iff {span : Span} {bs : List UInt8} {value : String} :
    decodedText span bs = .ok value ↔
      ∃ raw, bs = Text.bytes raw ∧ Reference.decode raw = .ok value := by
  rw [decodedText, bind_eq_ok_iff]
  refine exists_congr fun raw => ?_
  rw [textOf_eq_ok_iff, mapError_eq_ok_iff]

namespace Cursor

variable {c c' : Cursor}

theorem Passes.peek? {b : UInt8} {bs : List UInt8} (h : c.Passes (b :: bs) c') :
    c.peek? = some b := by
  rw [Cursor.peek?, h.1]
  rfl

/-! ## Single characters, blanks and names -/

theorem isAt_iff {ch : Char} : c.isAt ch = true ↔ c.Passes [ch.toUInt8] (c.advance 1) := by
  rw [isAt, beq_iff_eq]
  constructor
  · intro h
    cases hr : c.rest with
    | nil => rw [peek?, hr] at h; cases h
    | cons b bs =>
      rw [peek?, hr] at h
      cases h
      exact (passes_advance (show c.rest = [ch.toUInt8] ++ bs from hr)).1
  · exact Passes.peek?

theorem expect_eq_ok_iff {ch : Char} : c.expect ch = .ok c' ↔ c.Passes [ch.toUInt8] c' := by
  unfold expect
  by_cases h : c.isAt ch = true
  · have hp := isAt_iff.mp h
    rw [if_pos h]
    constructor
    · intro he
      cases he
      exact hp
    · intro he
      rw [hp.unique he]
  · rw [if_neg h]
    constructor
    · intro he
      cases he
    · intro he
      have hc : c' = c.advance 1 := he.2
      exact absurd (isAt_iff.mpr (hc ▸ he)) h

theorem skipBlank_eq_iff :
    c.skipBlank = c' ↔ ∃ gap, Blanks gap ∧ c.Passes gap c' ∧ Halts Text.isBlankByte c'.rest := by
  constructor
  · rintro rfl
    obtain ⟨hp, hh⟩ := c.passes_run Text.isBlankByte
    exact ⟨_, fun b hb => mem_run hb, hp, hh⟩
  · rintro ⟨gap, hb, hp, hh⟩
    rw [skipBlank, hp.run_eq hb hh]
    exact hp.2.symm

theorem readName_eq_ok_iff {name : String} : c.readName = .ok (name, c') ↔
    IsName name ∧ c.Passes (Text.bytes name) c' ∧ Halts isNameByte c'.rest := by
  unfold readName
  by_cases h : c.peek?.any isNameStart = true
  · rw [if_pos h]
    obtain ⟨hrun, hhalt⟩ := c.passes_run isNameByte
    constructor
    · intro hok
      obtain ⟨s, hs, hok⟩ := exists_of_bind_eq_ok hok
      cases hok
      rw [textOf_eq_ok_iff] at hs
      refine ⟨?_, hs ▸ hrun, hhalt⟩
      cases hr : c.rest with
      | nil => rw [peek?, hr] at h; cases h
      | cons b bs =>
        have hb : isNameStart b = true := by simpa [peek?, hr] using h
        refine ⟨b, bs.takeWhile isNameByte, ?_, hb, fun x hx => ?_⟩
        · rw [← hs, run, hr, List.takeWhile_cons_of_pos (isNameByte_of_isNameStart hb)]
        · exact List.all_eq_true.mp List.all_takeWhile x hx
    · rintro ⟨hname, hp, hh⟩
      have hrun := hp.run_eq hname.all hh
      rw [bind_eq_ok_iff]
      refine ⟨name, textOf_eq_ok_iff.mpr hrun, ?_⟩
      rw [hrun, hp.2]
      rfl
  · rw [if_neg h]
    constructor
    · intro hok
      cases hok
    · rintro ⟨⟨b, bs, hbytes, hb, _⟩, hp, _⟩
      rw [hbytes] at hp
      exact absurd (by simp [hp.peek?, hb]) h

/-! ## Attributes -/

theorem readQuote_eq_ok_iff {quote : Quote} :
    c.readQuote = .ok (quote, c') ↔ c.Passes [quote.byte] c' := by
  have hd : c.isAt Quote.double.char = true ↔ c.Passes [Quote.double.byte] (c.advance 1) := isAt_iff
  have hs : c.isAt Quote.single.char = true ↔ c.Passes [Quote.single.byte] (c.advance 1) := isAt_iff
  unfold readQuote
  constructor
  · intro h
    split at h
    case isTrue hp => cases h; exact hd.mp hp
    case isFalse =>
      split at h
      case isTrue hp => cases h; exact hs.mp hp
      case isFalse => cases h
  · intro h
    have hc : c' = c.advance 1 := h.2
    cases quote with
    | double => rw [if_pos (hd.mpr (hc ▸ h)), hc]
    | single =>
      have hne : ¬ c.isAt Quote.double.char = true := by
        rw [isAt, h.peek?]
        decide
      rw [if_neg hne, if_pos (hs.mpr (hc ▸ h)), hc]

theorem readValue_eq_ok_iff {quote : Quote} {value : String} :
    c.readValue quote = .ok (value, c') ↔
      ∃ raw, quote.Admits raw ∧ Reference.decode raw = .ok value ∧
        c.Passes (Text.bytes raw ++ [quote.byte]) c' := by
  have hbyte : ∀ b : UInt8, (b != quote.char.toUInt8 && b != '<'.toUInt8) = true ↔
      b ≠ quote.byte ∧ b ≠ '<'.toUInt8 := by
    intro b
    simp [Quote.byte]
  unfold readValue
  simp only []
  constructor
  · intro h
    split at h
    case isFalse => split at h <;> cases h
    case isTrue hq =>
      obtain ⟨v, hv, h⟩ := exists_of_bind_eq_ok h
      cases h
      obtain ⟨raw, hraw, hdec⟩ := decodedText_eq_ok_iff.mp hv
      obtain ⟨hrun, _⟩ := c.passes_run fun b => b != quote.char.toUInt8 && b != '<'.toUInt8
      refine ⟨raw, fun b hb => ?_, hdec, ?_⟩
      · rw [← hraw] at hb
        exact (hbyte b).mp (mem_run hb)
      · rw [hraw] at hrun hq ⊢
        exact hrun.trans (isAt_iff.mp hq)
  · rintro ⟨raw, hadm, hdec, hp⟩
    obtain ⟨c₁, hp₁, hp₂⟩ := hp.split
    have hhalt : Halts (fun b => b != quote.char.toUInt8 && b != '<'.toUInt8) c₁.rest := by
      rw [hp₂.1]
      exact halts_cons.mpr (by simp [Quote.byte])
    have hrun := hp₁.run_eq (fun b hb => (hbyte b).mpr (hadm b hb)) hhalt
    rw [hrun, ← hp₁.2]
    have hc : c' = c₁.advance 1 := hp₂.2
    have hq : c₁.isAt quote.char = true := isAt_iff.mpr (hc ▸ hp₂)
    rw [if_pos hq, bind_eq_ok_iff]
    exact ⟨value, decodedText_eq_ok_iff.mpr ⟨raw, rfl, hdec⟩, by rw [hc]; rfl⟩

end Cursor

theorem isNameByte_of_isBlankByte {b : UInt8} (h : Text.isBlankByte b = true) :
    isNameByte b = false := by
  simp only [Text.isBlankByte, Bool.or_eq_true, beq_iff_eq] at h
  rcases h with ((rfl | rfl) | rfl) | rfl <;> rfl

theorem isBlankByte_of_isNameStart {b : UInt8} (h : isNameStart b = true) :
    Text.isBlankByte b = false := by
  cases hb : Text.isBlankByte b with
  | false => rfl
  | true =>
    have := isNameByte_of_isBlankByte hb
    rw [isNameByte_of_isNameStart h] at this
    cases this

theorem Blanks.halts {gap : List UInt8} (h : Blanks gap) : Halts isNameByte gap := by
  intro b hb
  exact isNameByte_of_isBlankByte (h b (List.mem_of_mem_head? hb))

theorem Attribute.SpelledBy.eq_cons {a : Attribute} {bs : List UInt8} (h : a.SpelledBy bs) :
    ∃ b cs, bs = b :: cs ∧ isNameStart b = true := by
  obtain ⟨gap, gap', raw, ⟨b, cs, hname, hb, _⟩, _, _, _, _, rfl⟩ := h
  rw [hname]
  exact ⟨b, _, rfl, hb⟩

namespace Cursor

variable {c c' : Cursor}

theorem readAttribute_eq_ok_iff {a : Attribute} :
    c.readAttribute = .ok (a, c') ↔ ∃ bs, a.SpelledBy bs ∧ c.Passes bs c' := by
  unfold readAttribute
  constructor
  · intro h
    obtain ⟨⟨name, c₁⟩, hn, h⟩ := exists_of_bind_eq_ok h
    obtain ⟨c₂, he, h⟩ := exists_of_bind_eq_ok h
    obtain ⟨⟨quote, c₃⟩, hq, h⟩ := exists_of_bind_eq_ok h
    obtain ⟨⟨value, c₄⟩, hv, h⟩ := exists_of_bind_eq_ok h
    cases h
    obtain ⟨hname, hp₁, _⟩ := readName_eq_ok_iff.mp hn
    obtain ⟨gap, hgap, hp₂, _⟩ := skipBlank_eq_iff.mp (Eq.refl c₁.skipBlank)
    obtain ⟨gap', hgap', hp₄, _⟩ := skipBlank_eq_iff.mp (Eq.refl c₂.skipBlank)
    obtain ⟨raw, hadm, hdec, hp₆⟩ := readValue_eq_ok_iff.mp hv
    refine ⟨_, ⟨gap, gap', raw, hname, hgap, hgap', hadm, hdec, rfl⟩, ?_⟩
    have hp₃ := expect_eq_ok_iff.mp he
    have hp₅ := readQuote_eq_ok_iff.mp hq
    exact (((hp₁.trans hp₂).trans hp₃).trans hp₄).trans (hp₅.trans hp₆)
  · rintro ⟨bs, ⟨gap, gap', raw, hname, hgap, hgap', hadm, hdec, rfl⟩, hp⟩
    obtain ⟨c₄, hp, hp₅⟩ := hp.split
    obtain ⟨c₅, hp₅, hp₆⟩ := hp₅.split
    obtain ⟨c₃, hp, hp₄⟩ := hp.split
    obtain ⟨c₂, hp, hp₃⟩ := hp.split
    obtain ⟨c₁, hp₁, hp₂⟩ := hp.split
    have hh₁ : Halts isNameByte c₁.rest := by
      rw [hp₂.1, hp₃.1]
      exact hgap.halts.append (halts_cons.mpr (by decide))
    have hh₂ : Halts Text.isBlankByte c₂.rest := by
      rw [hp₃.1]
      exact halts_cons.mpr (by decide)
    have hh₄ : Halts Text.isBlankByte c₄.rest := by
      rw [hp₅.1]
      exact halts_cons.mpr (by cases a.quote <;> decide)
    rw [bind_eq_ok_iff]
    refine ⟨(a.name, c₁), readName_eq_ok_iff.mpr ⟨hname, hp₁, hh₁⟩, ?_⟩
    simp only [skipBlank_eq_iff.mpr ⟨gap, hgap, hp₂, hh₂⟩, expect_eq_ok_iff.mpr hp₃]
    rw [bind_eq_ok_iff]
    refine ⟨c₃, rfl, ?_⟩
    rw [skipBlank_eq_iff.mpr ⟨gap', hgap', hp₄, hh₄⟩, bind_eq_ok_iff]
    refine ⟨(a.quote, c₅), readQuote_eq_ok_iff.mpr hp₅, ?_⟩
    rw [bind_eq_ok_iff]
    exact ⟨(a.value, c'), readValue_eq_ok_iff.mpr ⟨raw, hadm, hdec, hp₆⟩, rfl⟩

end Cursor

/-! ## Attribute lists and tags -/

/-- Attributes with blanks allowed around each. -/
def AttributeRun (bs : List UInt8) (as : List Attribute) : Prop :=
  ∃ attributes gap, AttributeList attributes as ∧ Blanks gap ∧ bs = attributes ++ gap

theorem Blanks.append {bs cs : List UInt8} (hb : Blanks bs) (hc : Blanks cs) :
    Blanks (bs ++ cs) := by
  intro b h
  rcases List.mem_append.mp h with h | h
  · exact hb b h
  · exact hc b h

theorem AttributeRun.prepend {gap bs : List UInt8} {as : List Attribute} (hgap : Blanks gap)
    (h : AttributeRun bs as) : AttributeRun (gap ++ bs) as := by
  obtain ⟨attributes, gap', ha, hgap', rfl⟩ := h
  cases ha with
  | nil => exact ⟨[], gap ++ gap', .nil, hgap.append hgap', rfl⟩
  | cons hg hs hr =>
    refine ⟨_, gap', .cons (hgap.append hg) hs hr, hgap', ?_⟩
    simp only [List.append_assoc]

theorem AttributeRun.cons {bs cs : List UInt8} {a : Attribute} {as : List Attribute}
    (ha : a.SpelledBy bs) (h : AttributeRun cs as) : AttributeRun (bs ++ cs) (a :: as) := by
  obtain ⟨attributes, gap, hl, hgap, rfl⟩ := h
  refine ⟨[] ++ bs ++ attributes, gap, .cons (by simp [Blanks]) ha hl, hgap, ?_⟩
  simp only [List.nil_append, List.append_assoc]

/-- Attributes whose names are new to `seen` and to each other. -/
def Unrepeated (seen new : List Attribute) : Prop :=
  (∀ a ∈ new, ∀ b ∈ seen, b.name ≠ a.name) ∧ (new.map (·.name)).Nodup

theorem unrepeated_nil_iff {new : List Attribute} :
    Unrepeated [] new ↔ (new.map (·.name)).Nodup := by
  simp [Unrepeated]

theorem unrepeated_cons_iff {seen new : List Attribute} {a : Attribute} :
    Unrepeated seen (a :: new) ↔
      seen.any (·.name == a.name) = false ∧ Unrepeated (a :: seen) new := by
  simp only [Unrepeated, List.mem_cons, List.map_cons, List.nodup_cons, List.mem_map,
    List.any_eq_false, beq_iff_eq, not_exists, not_and, forall_eq_or_imp]
  constructor
  · rintro ⟨⟨ha, hnew⟩, hne, hnd⟩
    exact ⟨ha, fun x hx => ⟨fun h => hne x hx h.symm, hnew x hx⟩, hnd⟩
  · rintro ⟨ha, hnew, hnd⟩
    exact ⟨⟨ha, fun x hx => (hnew x hx).2⟩, fun x hx h => (hnew x hx).1 h.symm, hnd⟩

namespace Cursor

variable {c c' : Cursor}

/-- The cursor is at what ends a tag. -/
def atTagEnd (c : Cursor) : Bool := c.isAt '/' || c.isAt '>'

theorem atTagEnd_iff : c.atTagEnd = true ↔
    ∃ form : TagForm, ∃ b ∈ form.ending.head?, c.peek? = some b := by
  simp only [atTagEnd, isAt, Bool.or_eq_true, beq_iff_eq]
  constructor
  · rintro (h | h)
    · exact ⟨.empty, _, rfl, h⟩
    · exact ⟨.paired, _, rfl, h⟩
  · rintro ⟨form, b, hb, h⟩
    cases form <;> cases hb
    · exact .inl h
    · exact .inr h

theorem readAttributes_sound {allowRepeats : Bool} {seen as : List Attribute}
    (h : readAttributes allowRepeats seen c = .ok (as, c')) :
    ∃ bs new, AttributeRun bs new ∧ c.Passes bs c' ∧ c'.atTagEnd = true ∧
      as = seen.reverse ++ new ∧ (allowRepeats = true ∨ Unrepeated seen new) := by
  fun_induction readAttributes allowRepeats seen c with
  | case1 | case3 | case4 => cases h
  | case2 seen c _ hend =>
    cases h
    have hrun : AttributeRun [] [] := ⟨[], [], .nil, by simp [Blanks], rfl⟩
    exact ⟨[], [], hrun, passes_nil_iff.mpr rfl, hend, by simp, .inr (by simp [Unrepeated])⟩
  | case5 seen c _ _ a c₁ ha hrep ih =>
    obtain ⟨bs, new, hrun, hp, hend, has, hnew⟩ := ih h
    obtain ⟨b, hb, hpa⟩ := readAttribute_eq_ok_iff.mp ha
    obtain ⟨gap, hgap, hpg, _⟩ := skipBlank_eq_iff.mp (Eq.refl c₁.skipBlank)
    refine ⟨_, a :: new, (hrun.prepend hgap).cons hb, hpa.trans (hpg.trans hp), hend, ?_, ?_⟩
    · rw [has, List.reverse_cons, List.append_assoc, List.singleton_append]
    · rcases hnew with hnew | hnew
      · exact .inl hnew
      · cases allowRepeats with
        | true => exact .inl rfl
        | false => exact .inr (unrepeated_cons_iff.mpr ⟨by simpa using hrep, hnew⟩)

theorem halts_of_atTagEnd (h : c.atTagEnd = true) : Halts Text.isBlankByte c.rest := by
  obtain ⟨form, b, hb, hc⟩ := atTagEnd_iff.mp h
  intro x hx
  rw [peek?, Option.mem_def.mp hx, Option.some.injEq] at hc
  subst hc
  cases form <;> cases hb <;> rfl

/-- Where an attribute comes next, it is read: it is refused if its name has been seen, and
otherwise the reading goes on behind it. -/
theorem readAttributes_step {c₁ c₂ : Cursor} {allowRepeats : Bool} {seen : List Attribute}
    {a : Attribute} {gap bs : List UInt8} (hgap : Blanks gap) (ha : a.SpelledBy bs)
    (hp₁ : c.Passes gap c₁) (hp₂ : c₁.Passes bs c₂) :
    readAttributes allowRepeats seen c.skipBlank =
      if !allowRepeats && seen.any (·.name == a.name) then
        .error ⟨.duplicateAttribute a.name, ⟨c₁.position, c₂.position⟩, none⟩
      else readAttributes allowRepeats (a :: seen) c₂.skipBlank := by
  obtain ⟨x, xs, hx, hstart⟩ := ha.eq_cons
  have hrest : c₁.rest = x :: (xs ++ c₂.rest) := by rw [hp₂.1, hx, List.cons_append]
  have hh : Halts Text.isBlankByte c₁.rest := by
    rw [hrest]
    exact halts_cons.mpr (isBlankByte_of_isNameStart hstart)
  have hne : ¬ c₁.atEnd = true := by simp [atEnd, hrest]
  have hnend : ¬ (c₁.isAt '/' || c₁.isAt '>') = true := by
    simp only [isAt, peek?, hrest, List.head?_cons, Bool.or_eq_true, beq_iff_eq,
      Option.some.injEq]
    rintro (rfl | rfl) <;> cases hstart
  have hread : c₁.readAttribute = .ok (a, c₂) := readAttribute_eq_ok_iff.mpr ⟨bs, ha, hp₂⟩
  rw [skipBlank_eq_iff.mpr ⟨gap, hgap, hp₁, hh⟩, readAttributes, if_neg hne, if_neg hnend]
  split
  · rename_i e he
    rw [hread] at he
    cases he
  · rename_i a' c₂' he
    rw [hread] at he
    cases he
    rfl

/-- Attributes that are spelled are read, up to the end of the tag. -/
theorem readAttributes_complete {allowRepeats : Bool} {seen new : List Attribute}
    {attributes gap : List UInt8} (hl : AttributeList attributes new) (hgap : Blanks gap)
    (hp : c.Passes (attributes ++ gap) c') (hend : c'.atTagEnd = true)
    (hnew : allowRepeats = true ∨ Unrepeated seen new) :
    readAttributes allowRepeats seen c.skipBlank = .ok (seen.reverse ++ new, c') := by
  induction hl generalizing c seen with
  | nil =>
    rw [skipBlank_eq_iff.mpr ⟨gap, hgap, hp, halts_of_atTagEnd hend⟩, readAttributes]
    have hne : ¬ c'.atEnd = true := by
      obtain ⟨_, b, _, hc⟩ := atTagEnd_iff.mp hend
      intro he
      rw [peek?, List.isEmpty_iff.mp he] at hc
      cases hc
    have hend' : (c'.isAt '/' || c'.isAt '>') = true := hend
    rw [if_neg hne, if_pos hend', List.append_nil]
  | @cons g b cs a as hg ha _ ih =>
    rw [List.append_assoc, List.append_assoc] at hp
    obtain ⟨c₁, hp₁, hp⟩ := hp.split
    obtain ⟨c₂, hp₂, hp⟩ := hp.split
    have hseen : (!allowRepeats && seen.any (·.name == a.name)) = false := by
      rcases hnew with rfl | hnew
      · rfl
      · rw [(unrepeated_cons_iff.mp hnew).1, Bool.and_false]
    have hnew' : allowRepeats = true ∨ Unrepeated (a :: seen) as :=
      hnew.imp_right fun h => (unrepeated_cons_iff.mp h).2
    rw [readAttributes_step hg ha hp₁ hp₂, hseen, if_neg (by decide), ih hp hnew']
    simp

theorem readTagEnd_eq_ok_iff {form : TagForm} :
    c.readTagEnd = .ok (form, c') ↔ c.Passes form.ending c' := by
  unfold readTagEnd
  constructor
  · intro h
    split at h
    case isTrue hp =>
      obtain ⟨c₁, he, h⟩ := exists_of_bind_eq_ok h
      cases h
      exact (isAt_iff.mp hp).trans (expect_eq_ok_iff.mp he)
    case isFalse =>
      obtain ⟨c₁, he, h⟩ := exists_of_bind_eq_ok h
      cases h
      exact expect_eq_ok_iff.mp he
  · intro h
    cases form with
    | empty =>
      have h' : c.Passes (['/'.toUInt8] ++ ['>'.toUInt8]) c' := h
      obtain ⟨c₁, hp₁, hp₂⟩ := h'.split
      have hc : c₁ = c.advance 1 := hp₁.2
      subst hc
      rw [if_pos (isAt_iff.mpr hp₁), bind_eq_ok_iff]
      exact ⟨c', expect_eq_ok_iff.mpr hp₂, rfl⟩
    | paired =>
      have hne : ¬ c.isAt '/' = true := by
        rw [isAt, h.peek?]
        decide
      rw [if_neg hne, bind_eq_ok_iff]
      exact ⟨c', expect_eq_ok_iff.mpr h, rfl⟩

end Cursor

/-- Between a name and the first attribute there is a blank, since the name is as long as it
can be. -/
theorem AttributeList.head_blank {bs : List UInt8} {as : List Attribute}
    (h : AttributeList bs as) (hh : Halts isNameByte bs) :
    ∀ b ∈ bs.head?, Text.isBlankByte b = true := by
  cases h with
  | nil => nofun
  | @cons gap b cs a as hgap ha _ =>
    cases gap with
    | cons x xs =>
      intro y hy
      cases hy
      exact hgap x List.mem_cons_self
    | nil =>
      obtain ⟨x, xs, rfl, hx⟩ := ha.eq_cons
      have := halts_cons.mp hh
      rw [isNameByte_of_isNameStart hx] at this
      cases this

theorem OpeningTag.name_halts {form : TagForm} {attributes gap rest : List UInt8}
    (hs : ∀ b ∈ attributes.head?, Text.isBlankByte b = true) (hgap : Blanks gap) :
    Halts isNameByte (attributes ++ gap ++ form.ending ++ rest) := by
  have ha : Halts isNameByte attributes := fun b hb => isNameByte_of_isBlankByte (hs b hb)
  have hf : Halts isNameByte (form.ending ++ rest) := by cases form <;> exact halts_cons.mpr rfl
  rw [List.append_assoc]
  exact (ha.append hgap.halts).append hf

namespace Cursor

variable {c c' : Cursor}

/-- Where a name comes next behind a `<`, what becomes of the tag is up to its attributes and
its end. -/
theorem readTag_of_name {c₁ c₂ : Cursor} {allowRepeats : Bool} {name : String}
    (hname : IsName name) (hp₁ : c.Passes ['<'.toUInt8] c₁) (hp₂ : c₁.Passes (Text.bytes name) c₂)
    (hh : Halts isNameByte c₂.rest) :
    readTag allowRepeats c = (do
      let (attributes, c₃) ← readAttributes allowRepeats [] c₂.skipBlank
      let (form, stop) ← c₃.readTagEnd
      return (⟨name, attributes, form, ⟨c.position, stop.position⟩⟩, stop)) := by
  have hslash : ¬ c₁.isAt '/' = true := by
    obtain ⟨b, bs, hb, hstart, _⟩ := hname
    rw [hb] at hp₂
    rw [isAt, hp₂.peek?]
    intro h
    cases eq_of_beq h
    cases hstart
  have hopen : c.expect '<' = .ok c₁ := expect_eq_ok_iff.mpr hp₁
  have hread : c₁.readName = .ok (name, c₂) := readName_eq_ok_iff.mpr ⟨hname, hp₂, hh⟩
  unfold readTag
  rw [hopen]
  show (if c₁.isAt '/' then _ else _) = _
  rw [if_neg hslash, hread]
  rfl

theorem readTag_eq_ok_iff {allowRepeats : Bool} {tag : Tag} :
    readTag allowRepeats c = .ok (tag, c') ↔
      ∃ bs, OpeningTag tag.name tag.attributes tag.form bs ∧
        (allowRepeats = true ∨ (tag.attributes.map (·.name)).Nodup) ∧ c.Passes bs c' ∧
        tag.span = ⟨c.position, c'.position⟩ := by
  constructor
  · intro h
    unfold readTag at h
    obtain ⟨c₀, he, h⟩ := exists_of_bind_eq_ok h
    split at h
    case isTrue => cases h
    case isFalse =>
      obtain ⟨⟨name, c₁⟩, hn, h⟩ := exists_of_bind_eq_ok h
      obtain ⟨⟨as, c₂⟩, ha, h⟩ := exists_of_bind_eq_ok h
      obtain ⟨⟨form, stop⟩, hf, h⟩ := exists_of_bind_eq_ok h
      cases h
      obtain ⟨hname, hp₁, hh⟩ := readName_eq_ok_iff.mp hn
      obtain ⟨bs, new, hrun, hp₃, _, has, hnew⟩ := readAttributes_sound ha
      obtain ⟨blanks, hblanks, hp₂, _⟩ := skipBlank_eq_iff.mp (Eq.refl c₁.skipBlank)
      obtain ⟨attributes, gap, hl, hgap, hbs⟩ := hrun.prepend hblanks
      have hp := hp₂.trans hp₃
      rw [hbs] at hp
      have hhl : Halts isNameByte attributes := by
        rw [hp.1, List.append_assoc] at hh
        exact hh.of_append
      rw [List.reverse_nil, List.nil_append] at has
      subst has
      refine ⟨_, ⟨attributes, gap, hname, hl, hl.head_blank hhl, hgap, rfl⟩, ?_, ?_, rfl⟩
      · exact hnew.imp_right unrepeated_nil_iff.mp
      · have := (((expect_eq_ok_iff.mp he).trans hp₁).trans hp).trans (readTagEnd_eq_ok_iff.mp hf)
        simpa only [List.append_assoc] using this
  · rintro ⟨bs, ⟨attributes, gap, hname, hl, hs, hgap, rfl⟩, hnew, hp, hspan⟩
    obtain ⟨c₃, hp, hp₄⟩ := hp.split
    rw [List.append_assoc] at hp
    obtain ⟨c₂, hp, hp₃⟩ := hp.split
    obtain ⟨c₁, hp₁, hp₂⟩ := hp.split
    have hh : Halts isNameByte c₂.rest := by
      rw [hp₃.1, hp₄.1, ← List.append_assoc]
      exact OpeningTag.name_halts hs hgap
    have hend : c₃.atTagEnd = true := by
      rw [atTagEnd_iff]
      refine ⟨tag.form, ?_⟩
      cases hf : tag.form <;> rw [hf] at hp₄ <;> exact ⟨_, rfl, hp₄.peek?⟩
    rw [readTag_of_name hname hp₁ hp₂ hh, bind_eq_ok_iff]
    refine ⟨(tag.attributes, c₃), ?_, ?_⟩
    · exact readAttributes_complete hl hgap hp₃ hend (hnew.imp_right unrepeated_nil_iff.mpr)
    · rw [bind_eq_ok_iff]
      refine ⟨(tag.form, c'), readTagEnd_eq_ok_iff.mpr hp₄, ?_⟩
      show Except.ok (Tag.mk tag.name tag.attributes tag.form ⟨c.position, c'.position⟩, c') = _
      rw [← hspan]

theorem readClosingTag_eq_ok_iff {name : String} (hc : c.startsWith "</" = true) :
    c.readClosingTag name = .ok c' ↔ ∃ bs, ClosingTag name bs ∧ c.Passes bs c' := by
  obtain ⟨c₀, hp₀⟩ := startsWithBytes_iff.mp hc
  have hc₀ : c.advance 2 = c₀ := hp₀.2.symm
  unfold readClosingTag
  rw [hc₀]
  constructor
  · intro h
    obtain ⟨⟨closed, c₁⟩, hn, hr⟩ := exists_of_bind_eq_ok h
    simp only at hr
    split at hr
    case isFalse => cases hr
    case isTrue heq =>
      subst heq
      obtain ⟨hname, hp₁, _⟩ := readName_eq_ok_iff.mp hn
      obtain ⟨gap, hgap, hp₂, _⟩ := skipBlank_eq_iff.mp (Eq.refl c₁.skipBlank)
      exact ⟨_, ⟨gap, hname, hgap, rfl⟩,
        ((hp₀.trans hp₁).trans hp₂).trans (expect_eq_ok_iff.mp hr)⟩
  · rintro ⟨bs, ⟨gap, hname, hgap, rfl⟩, hp⟩
    obtain ⟨c₂, hp, hp₃⟩ := hp.split
    obtain ⟨c₁, hp, hp₂⟩ := hp.split
    obtain ⟨c₀', hp₀', hp₁⟩ := hp.split
    obtain rfl := hp₀.unique hp₀'
    have hh₂ : Halts Text.isBlankByte c₂.rest := by
      rw [hp₃.1]
      exact halts_cons.mpr (by decide)
    have hh₁ : Halts isNameByte c₁.rest := by
      rw [hp₂.1, hp₃.1]
      exact hgap.halts.append (halts_cons.mpr (by decide))
    rw [bind_eq_ok_iff]
    refine ⟨(name, c₁), readName_eq_ok_iff.mpr ⟨hname, hp₁, hh₁⟩, ?_⟩
    simp only [if_pos]
    rw [skipBlank_eq_iff.mpr ⟨gap, hgap, hp₂, hh₂⟩]
    exact expect_eq_ok_iff.mpr hp₃

end Cursor

end TextHoist
