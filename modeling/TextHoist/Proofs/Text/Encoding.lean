/-
  Facts about encoded text that reading and writing both rest on. Byte lists that encode a
  text (`IsText`) can be joined, and ASCII bytes are such lists. An ASCII character stands
  in a text exactly when its byte stands in the encoding (`toUInt8_mem_bytes_iff`).

  Counting along the bytes of a text comes to the same place as counting along its
  characters (`Position.pastText_eq_past`): of the bytes of a character only the first one
  moves the column, and a line feed is a byte of no other character. `Position.after` says
  what that place is, without counting along anything: the bytes, the line feeds and the
  characters since the last line feed.
-/
import TextHoist.Source.Position

namespace TextHoist

namespace Text

/-- The bytes encode a text. -/
def IsText (bs : List UInt8) : Prop := ∃ s, bs = bytes s

theorem isText_bytes (s : String) : IsText (bytes s) := ⟨s, rfl⟩

theorem isText_nil : IsText [] := ⟨"", rfl⟩

theorem IsText.append {bs cs : List UInt8} (hb : IsText bs) (hc : IsText cs) :
    IsText (bs ++ cs) := by
  obtain ⟨s, rfl⟩ := hb
  obtain ⟨t, rfl⟩ := hc
  exact ⟨s ++ t, (bytes_append s t).symm⟩

theorem bytes_eq_flatMap (s : String) : bytes s = s.toList.flatMap String.utf8EncodeChar := by
  rw [← bytes_ofList, String.ofList_toList]

theorem bytes_eq_nil_iff {s : String} : bytes s = [] ↔ s = "" := by
  constructor
  · intro h
    exact bytes_injective (h.trans bytes_empty.symm)
  · rintro rfl
    rfl

/-! ## ASCII -/

theorem utf8EncodeChar_ascii (c : Char) (h : c.toNat < 0x80) :
    String.utf8EncodeChar c = [c.toUInt8] := by
  have hv : c.val.toNat ≤ 127 := Nat.lt_succ_iff.mp h
  simp only [String.utf8EncodeChar, if_pos hv]
  rfl

/-- A character that is not ASCII begins with a byte of its own kind, and all its other
bytes are continuations. -/
theorem utf8EncodeChar_wide (c : Char) (h : 0x80 ≤ c.toNat) :
    ∃ b cs, String.utf8EncodeChar c = b :: cs ∧ 0xC0 ≤ b.toNat ∧
      ∀ x ∈ cs, 0x80 ≤ x.toNat ∧ x.toNat < 0xC0 := by
  have hv : ¬ c.val.toNat ≤ 127 := Nat.not_le.mpr h
  simp only [String.utf8EncodeChar, if_neg hv]
  split
  · refine ⟨_, _, rfl, by simp; omega, ?_⟩
    simp; omega
  · split
    · refine ⟨_, _, rfl, by simp; omega, ?_⟩
      simp; omega
    · refine ⟨_, _, rfl, by simp; omega, ?_⟩
      simp; omega

theorem toNat_toUInt8 (c : Char) (h : c.toNat < 0x80) : c.toUInt8.toNat = c.toNat := by
  show c.val.toNat % 2 ^ 8 = c.val.toNat
  have : c.val.toNat < 0x80 := h
  omega

theorem toUInt8_inj {c d : Char} (hc : c.toNat < 0x80) (hd : d.toNat < 0x80)
    (h : c.toUInt8 = d.toUInt8) : c = d := by
  have := congrArg UInt8.toNat h
  rw [toNat_toUInt8 c hc, toNat_toUInt8 d hd] at this
  exact Char.toNat_inj.mp this

/-- An ASCII character stands in a text exactly when its byte stands in the encoding. -/
theorem toUInt8_mem_bytes_iff {c : Char} (hc : c.toNat < 0x80) {s : String} :
    c.toUInt8 ∈ bytes s ↔ c ∈ s.toList := by
  rw [bytes_eq_flatMap, List.mem_flatMap]
  constructor
  · rintro ⟨d, hd, hb⟩
    by_cases hda : d.toNat < 0x80
    · rw [utf8EncodeChar_ascii d hda, List.mem_singleton] at hb
      rwa [toUInt8_inj hc hda hb]
    · obtain ⟨b, cs, he, hle, hcs⟩ := utf8EncodeChar_wide d (Nat.not_lt.mp hda)
      have hn := toNat_toUInt8 c hc
      rw [he, List.mem_cons] at hb
      rcases hb with hb | hb
      · rw [hb] at hn
        omega
      · have := hcs _ hb
        omega
  · intro h
    exact ⟨c, h, by simp [utf8EncodeChar_ascii c hc]⟩

theorem isText_singleton (c : Char) (hc : c.toNat < 0x80) : IsText [c.toUInt8] := by
  refine ⟨String.ofList [c], ?_⟩
  rw [bytes_ofList]
  simp [utf8EncodeChar_ascii c hc]

/-! ## Boundaries -/

theorem isBoundary_iff {s : String} {n : Nat} :
    isBoundary s n = true ↔ ∃ a b, s = a ++ b ∧ a.utf8ByteSize = n := by
  unfold isBoundary
  constructor
  · intro h
    obtain ⟨⟨a, b⟩, hab⟩ := Option.isSome_iff_exists.mp h
    exact ⟨a, b, cut?_eq_some_iff.mp hab⟩
  · rintro ⟨a, b, h⟩
    rw [cut?_eq_some_iff.mpr h]
    rfl

theorem le_of_isBoundary {s : String} {n : Nat} (h : isBoundary s n = true) :
    n ≤ s.utf8ByteSize := by
  obtain ⟨a, b, rfl, rfl⟩ := isBoundary_iff.mp h
  rw [String.utf8ByteSize_append]
  exact Nat.le_add_right _ _

theorem isBoundary_zero (s : String) : isBoundary s 0 = true :=
  isBoundary_iff.mpr ⟨"", s, by simp, rfl⟩

theorem isBoundary_boundaryBefore (s : String) (n : Nat) :
    isBoundary s (boundaryBefore s n) = true := by
  induction n with
  | zero => exact isBoundary_zero s
  | succ n ih =>
    unfold boundaryBefore
    split
    · assumption
    · exact ih

end Text

/-! ## Positions -/

namespace Position

theorem isContinuation_eq (b : UInt8) :
    isContinuation b = decide (0x80 ≤ b.toNat ∧ b.toNat < 0xC0) := by
  have h : ∀ n < 256, isContinuation (UInt8.ofNat n) = decide (0x80 ≤ n ∧ n < 0xC0) := by
    decide +kernel
  have hb := h b.toNat b.toNat_lt
  rwa [UInt8.ofNat_toNat] at hb

theorem past_continuations (p : Position) (bs : List UInt8)
    (h : ∀ x ∈ bs, 0x80 ≤ x.toNat ∧ x.toNat < 0xC0) :
    p.past bs = ⟨p.offset + bs.length, p.line, p.column⟩ := by
  induction bs generalizing p with
  | nil => rfl
  | cons b bs ih =>
    have hb := h b List.mem_cons_self
    have hlf : (b == '\n'.toUInt8) = false := by
      rw [beq_eq_false_iff_ne]
      rintro rfl
      exact absurd hb.1 (by decide)
    have hnext : p.next b = ⟨p.offset + 1, p.line, p.column⟩ := by
      simp [next, hlf, isContinuation_eq, hb]
    show (p.next b).past bs = _
    rw [hnext, ih _ fun x hx => h x (List.mem_cons_of_mem _ hx)]
    simp; omega

/-- The bytes of a character move a position as the character does. -/
theorem past_utf8EncodeChar (p : Position) (c : Char) :
    p.past (String.utf8EncodeChar c) = p.nextChar c := by
  have hsize := String.length_utf8EncodeChar c
  by_cases hc : c.toNat < 0x80
  · have hn := Text.toNat_toUInt8 c hc
    rw [Text.utf8EncodeChar_ascii c hc] at hsize ⊢
    have hcont : isContinuation c.toUInt8 = false := by
      rw [isContinuation_eq, hn]
      simp; omega
    have hlf : (c.toUInt8 == '\n'.toUInt8) = (c == '\n') := by
      rw [Bool.eq_iff_iff, beq_iff_eq, beq_iff_eq]
      exact ⟨Text.toUInt8_inj hc (by decide), fun h => by rw [h]⟩
    show p.next c.toUInt8 = _
    simp only [next, nextChar, hlf, hcont, ← hsize]
    simp
  · obtain ⟨b, cs, he, hb, hcs⟩ := Text.utf8EncodeChar_wide c (Nat.not_lt.mp hc)
    have hlf : (b == '\n'.toUInt8) = false := by
      rw [beq_eq_false_iff_ne]
      rintro rfl
      exact absurd hb (by decide)
    have hnl : (c == '\n') = false := by
      rw [beq_eq_false_iff_ne]
      rintro rfl
      exact hc (by decide)
    have hnext : p.next b = ⟨p.offset + 1, p.line, p.column + 1⟩ := by
      simp only [next, hlf, isContinuation_eq]
      simp; omega
    rw [he] at hsize ⊢
    show (p.next b).past cs = _
    rw [past_continuations _ _ hcs, hnext, nextChar, hnl, ← hsize]
    simp; omega

/-- Counting characters and counting bytes come to the same place. -/
theorem pastText_eq_past (p : Position) (s : String) : p.pastText s = p.past (Text.bytes s) := by
  rw [Text.bytes_eq_flatMap, pastText]
  generalize s.toList = cs
  induction cs generalizing p with
  | nil => rfl
  | cons c cs ih =>
    rw [List.foldl_cons, ih, List.flatMap_cons, past_append, past_utf8EncodeChar]

/-- The line that a text ends on: its line feeds, counted from one. -/
def lineAfter (s : String) : Nat := 1 + s.toList.count '\n'

/-- The column that a text ends in: the characters since its last line feed, counted from
one. -/
def columnAfter (s : String) : Nat := 1 + (s.toList.reverse.takeWhile (· != '\n')).length

/-- The place behind a text that nothing stands before, as far as the counts reach. -/
def after (s : String) : Position :=
  ⟨s.utf8ByteSize, .ofNat (lineAfter s), .ofNat (columnAfter s)⟩

theorem nextChar_after (s : String) (c : Char) :
    (after s).nextChar c = after (s ++ String.singleton c) := by
  have hsize : (String.singleton c).utf8ByteSize = c.utf8Size := by simp
  simp only [after, nextChar, lineAfter, columnAfter, String.utf8ByteSize_append, hsize]
  by_cases hc : c = '\n'
  · simp [hc, UInt32.ofNat_add, UInt32.add_assoc]
  · simp [hc, UInt32.ofNat_add, UInt32.add_assoc]

theorem pastText_after (s t : String) : (after s).pastText t = after (s ++ t) := by
  have hfold : ∀ (cs : List Char) (s : String),
      cs.foldl nextChar (after s) = after (s ++ String.ofList cs) := by
    intro cs
    induction cs with
    | nil => simp
    | cons c cs ih =>
      intro s
      have hcons : String.ofList (c :: cs) = String.singleton c ++ String.ofList cs := by
        rw [← String.toList_inj]
        simp
      rw [List.foldl_cons, nextChar_after, ih, hcons, String.append_assoc]
  rw [pastText, hfold, String.ofList_toList]

theorem past_after (s t : String) : (after s).past (Text.bytes t) = after (s ++ t) := by
  rw [← pastText_eq_past, pastText_after]

theorem past_start (s : String) : start.past (Text.bytes s) = after s := by
  have hstart : start = after "" := rfl
  rw [hstart, past_after, String.empty_append]

end Position

end TextHoist
