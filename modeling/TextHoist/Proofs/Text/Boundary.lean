/-
  Where encoded text can be cut. The first byte of a character is never a continuation and
  all its other bytes are, so the bytes of a text show where its characters begin: a cut
  before a byte that continues none leaves two texts (`IsText.split`), and a cut anywhere
  else leaves none. An offset is a boundary of a text exactly if no continuation stands
  there (`isBoundary_iff_halts`).
-/
import TextHoist.Proofs.Source.Passage
import TextHoist.Proofs.Text.Encoding

namespace TextHoist.Text

open Position (isContinuation)

theorem isText_utf8EncodeChar (c : Char) : IsText (String.utf8EncodeChar c) :=
  ⟨String.ofList [c], by rw [bytes_ofList, List.flatMap_singleton]⟩

/-- A character is one byte that is no continuation, then continuations. -/
theorem utf8EncodeChar_eq_cons (c : Char) :
    ∃ b cs, String.utf8EncodeChar c = b :: cs ∧ isContinuation b = false ∧
      ∀ x ∈ cs, isContinuation x = true := by
  by_cases hc : c.toNat < 0x80
  · refine ⟨_, [], utf8EncodeChar_ascii c hc, ?_, by simp⟩
    rw [Position.isContinuation_eq, toNat_toUInt8 c hc]
    simp; omega
  · obtain ⟨b, cs, he, hb, hcs⟩ := utf8EncodeChar_wide c (Nat.not_lt.mp hc)
    refine ⟨b, cs, he, ?_, fun x hx => ?_⟩
    · rw [Position.isContinuation_eq]
      simp; omega
    · rw [Position.isContinuation_eq]
      exact decide_eq_true (hcs x hx)

/-- No text begins inside a character. -/
theorem halts_bytes (s : String) : Halts isContinuation (bytes s) := by
  rw [bytes_eq_flatMap]
  cases s.toList with
  | nil => exact halts_nil _
  | cons c cs =>
    obtain ⟨b, bs, he, hb, _⟩ := utf8EncodeChar_eq_cons c
    rw [List.flatMap_cons, he]
    exact halts_cons.mpr hb

/-- A byte that is no continuation begins a character, so text can be cut before it. -/
theorem IsText.split {bs cs : List UInt8} (h : IsText (bs ++ cs))
    (hcs : Halts isContinuation cs) : IsText bs ∧ IsText cs := by
  obtain ⟨s, hs⟩ := h
  rw [bytes_eq_flatMap] at hs
  generalize s.toList = chars at hs
  induction chars generalizing bs with
  | nil =>
    obtain ⟨rfl, rfl⟩ := List.append_eq_nil_iff.mp hs
    exact ⟨isText_nil, isText_nil⟩
  | cons c chars ih =>
    have hrest : IsText (chars.flatMap String.utf8EncodeChar) := ⟨_, (bytes_ofList chars).symm⟩
    rw [List.flatMap_cons] at hs
    rcases List.append_eq_append_iff.mp hs with ⟨m, hc, rfl⟩ | ⟨m, rfl, hm⟩
    · obtain ⟨b, tail, he, _, htail⟩ := utf8EncodeChar_eq_cons c
      cases bs with
      | nil =>
        rw [List.nil_append] at hc
        exact ⟨isText_nil, (hc ▸ isText_utf8EncodeChar c).append hrest⟩
      | cons x bs =>
        cases m with
        | nil =>
          rw [List.append_nil] at hc
          exact ⟨hc ▸ isText_utf8EncodeChar c, hrest⟩
        | cons y m =>
          -- the cut would fall inside the character, before one of its later bytes
          rw [he] at hc
          obtain ⟨_, rfl⟩ := List.cons.inj hc
          rw [List.cons_append, halts_cons, htail y (by simp)] at hcs
          cases hcs
    · obtain ⟨hbs, hcs⟩ := ih hm.symm
      exact ⟨(isText_utf8EncodeChar c).append hbs, hcs⟩

/-- What stands behind a text in a text is text. -/
theorem IsText.of_append {bs cs : List UInt8} (hb : IsText bs) (h : IsText (bs ++ cs)) :
    IsText cs := by
  obtain ⟨t, rfl⟩ := hb
  obtain ⟨s, hs⟩ := h
  have hencode : t.toList.utf8Encode ++ (⟨cs.toArray⟩ : ByteArray) = s.toList.utf8Encode := by
    rw [String.utf8Encode_toList, String.utf8Encode_toList]
    refine ByteArray.ext (Array.toList_inj.mp ?_)
    rw [ByteArray.data_append, Array.toList_append]
    exact hs
  obtain ⟨u, hu⟩ := List.isPrefix_of_utf8Encode_append_eq_utf8Encode _ hencode
  have hsplit : s = t ++ String.ofList u := by
    rw [← String.toList_inj, String.toList_append, String.toList_ofList, hu]
  rw [hsplit, bytes_append] at hs
  exact ⟨_, List.append_cancel_left hs⟩

theorem IsText.cut {bs : List UInt8} {n : Nat} (h : IsText bs)
    (hcut : Halts isContinuation (bs.drop n)) : IsText (bs.take n) ∧ IsText (bs.drop n) := by
  rw [← List.take_append_drop n bs] at h
  exact h.split hcut

/-- The boundaries of a text are the offsets at which no character goes on. -/
theorem isBoundary_iff_halts {s : String} {n : Nat} :
    isBoundary s n = true ↔ n ≤ s.utf8ByteSize ∧ Halts isContinuation ((bytes s).drop n) := by
  rw [isBoundary_iff]
  constructor
  · rintro ⟨a, b, rfl, rfl⟩
    rw [bytes_append, ← length_bytes, List.drop_left]
    exact ⟨by simp, halts_bytes b⟩
  · rintro ⟨hn, hcut⟩
    obtain ⟨⟨a, ha⟩, b, hb⟩ := (isText_bytes s).cut hcut
    refine ⟨a, b, bytes_injective ?_, ?_⟩
    · rw [bytes_append, ← ha, ← hb, List.take_append_drop]
    · rw [← length_bytes, ← ha, List.length_take, length_bytes, Nat.min_eq_left hn]

end TextHoist.Text
