/-
  Trimming, for any notion of what is to be taken off the ends of a text: blanks in the sense
  of a text, or the fewer ones that separate the parts of a tag. Some characters fall into
  those taken off in front, what is left, and those taken off behind (`exists_trimmed`). For
  blanks, what is left neither begins nor ends with one (`trimmed_trim`), and it is empty
  only if there were no other characters (`Trimmed.ne_empty`).
-/
import TextHoist.Text.Characters

namespace TextHoist.Text

/-- What is left of some characters once those with a property are taken off both ends. -/
theorem exists_trimmed (p : Char → Bool) (cs : List Char) :
    ∃ before after, cs = before ++ ((cs.dropWhile p).reverse.dropWhile p).reverse ++ after ∧
      (∀ c ∈ before, p c = true) ∧ ∀ c ∈ after, p c = true := by
  refine ⟨cs.takeWhile p, ((cs.dropWhile p).reverse.takeWhile p).reverse, ?_, ?_, ?_⟩
  · rw [List.append_assoc, ← List.reverse_append, List.takeWhile_append_dropWhile,
      List.reverse_reverse, List.takeWhile_append_dropWhile]
  · exact fun c hc => List.all_eq_true.mp List.all_takeWhile c hc
  · intro c hc
    exact List.all_eq_true.mp List.all_takeWhile c (List.mem_reverse.mp hc)

/-- The second text is the first without the blanks at its two ends. -/
structure Trimmed (s t : String) : Prop where
  split : ∃ before after, s = before ++ t ++ after ∧ isBlankText before = true ∧
    isBlankText after = true
  first : ∀ c ∈ t.toList.head?, isBlank c = false
  last : ∀ c ∈ t.toList.getLast?, isBlank c = false

theorem head?_dropWhile_eq_false (p : Char → Bool) (cs : List Char) :
    ∀ c ∈ (cs.dropWhile p).head?, p c = false := by
  intro c hc
  have := List.head?_dropWhile_not p cs
  rw [Option.mem_def.mp hc] at this
  simpa using this

theorem trimmed_trim (s : String) : Trimmed s (trim s) := by
  obtain ⟨before, after, hs, hbefore, hafter⟩ := exists_trimmed isBlank s.toList
  refine ⟨⟨String.ofList before, String.ofList after, ?_, ?_, ?_⟩, ?_, ?_⟩
  · rw [← String.toList_inj]
    simpa [trim] using hs
  · simpa [isBlankText] using hbefore
  · simpa [isBlankText] using hafter
  · -- what is left begins as the text does behind its leading blanks
    intro c hc
    rw [trim, String.toList_ofList] at hc
    have hprefix : ((s.toList.dropWhile isBlank).reverse.dropWhile isBlank).reverse <+:
        s.toList.dropWhile isBlank := by
      have := List.dropWhile_suffix isBlank (l := (s.toList.dropWhile isBlank).reverse)
      simpa using List.reverse_prefix.mpr this
    obtain ⟨tail, htail⟩ := hprefix
    refine head?_dropWhile_eq_false isBlank s.toList c ?_
    rw [← htail, List.head?_append, Option.mem_def.mp hc]
    rfl
  · intro c hc
    rw [trim, String.toList_ofList, List.getLast?_reverse] at hc
    exact head?_dropWhile_eq_false isBlank _ c hc

/-- Where a character is no blank, something is left. -/
theorem Trimmed.ne_empty {s t : String} (h : Trimmed s t) {c : Char} (hc : c ∈ s.toList)
    (hblank : isBlank c = false) : t ≠ "" := by
  obtain ⟨before, after, rfl, hbefore, hafter⟩ := h.split
  rintro rfl
  have hall : ∀ x ∈ before.toList ++ after.toList, isBlank x = true := by
    intro x hx
    rcases List.mem_append.mp hx with hx | hx
    · exact List.all_eq_true.mp hbefore x hx
    · exact List.all_eq_true.mp hafter x hx
  have := hall c (by simpa using hc)
  rw [hblank] at this
  cases this

end TextHoist.Text
