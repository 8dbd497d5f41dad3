/-
  Escaping loses nothing and hides what must not show. A replacement of characters is
  `Faithful` if whatever it writes for a character is a reference that names just that
  character, and it leaves no `&` alone; decoding undoes every faithful replacement
  (`decode_escape`). What the escaped text does not contain is read off what is written
  for single characters (`not_mem_escape`).
-/
import TextHoist.Proofs.Markup.Grammar

namespace TextHoist.Reference

/-- What is written for a character is a reference that names it, or the character itself,
which is then not the one that references begin with. -/
def Faithful (replacement : Char → Option String) : Prop :=
  ∀ c, (∃ name, replacement c = some (String.ofList ('&' :: name ++ [';'])) ∧ ';' ∉ name ∧
      character? name = some c) ∨
    (replacement c = none ∧ c ≠ '&')

/-- The characters written for one character. -/
def written (replacement : Char → Option String) (c : Char) : List Char :=
  ((replacement c).map String.toList).getD [c]

theorem toList_escape (replacement : Char → Option String) (s : String) :
    (escape replacement s).toList = s.toList.flatMap (written replacement) := by
  rw [escape, String.toList_ofList]
  rfl

/-! ## Decoding undoes escaping -/

theorem decodeFrom_inside (done acc name rest : List Char) (h : ';' ∉ name) {c : Char}
    (hc : character? (acc.reverse ++ name) = some c) :
    decodeFrom done (.inside acc) (name ++ ';' :: rest) = decodeFrom (c :: done) .outside rest := by
  induction name generalizing acc with
  | nil =>
    rw [List.append_nil] at hc
    simp [decodeFrom, hc]
  | cons x name ih =>
    rw [List.mem_cons, not_or] at h
    have hx : (x == ';') = false := by
      rw [beq_eq_false_iff_ne]
      exact fun hx => h.1 hx.symm
    rw [List.cons_append, decodeFrom, hx]
    exact ih (x :: acc) h.2 (by simpa using hc)

/-- What is written for a character is decoded to it. -/
theorem decodeFrom_written {replacement : Char → Option String} (h : Faithful replacement)
    (done rest : List Char) (c : Char) :
    decodeFrom done .outside (written replacement c ++ rest) =
      decodeFrom (c :: done) .outside rest := by
  rcases h c with ⟨name, hr, hname, hc⟩ | ⟨hr, hc⟩
  · have hw : written replacement c ++ rest = '&' :: (name ++ ';' :: rest) := by
      simp [written, hr]
    rw [hw, decodeFrom, if_pos (by rfl), decodeFrom_inside done [] name rest hname hc]
  · have hamp : (c == '&') = false := beq_eq_false_iff_ne.mpr hc
    have hw : written replacement c ++ rest = c :: rest := by simp [written, hr]
    rw [hw, decodeFrom, hamp]
    rfl

theorem decodeFrom_escaped {replacement : Char → Option String} (h : Faithful replacement)
    (done cs : List Char) :
    decodeFrom done .outside (cs.flatMap (written replacement)) = .ok (done.reverse ++ cs) := by
  induction cs generalizing done with
  | nil => simp [decodeFrom]
  | cons c cs ih =>
    rw [List.flatMap_cons, decodeFrom_written h, ih]
    simp

theorem decode_escape {replacement : Char → Option String} (h : Faithful replacement)
    (s : String) : decode (escape replacement s) = .ok s := by
  rw [decode, toList_escape, decodeFrom_escaped h, List.reverse_nil, List.nil_append]
  show Except.ok (String.ofList s.toList) = _
  rw [String.ofList_toList]

theorem inAttribute_faithful (quote : Quote) : Faithful (inAttribute quote) := by
  intro c
  unfold inAttribute
  by_cases hamp : c = '&'
  · subst hamp
    exact .inl ⟨['a', 'm', 'p'], rfl, by decide, rfl⟩
  · simp only [beq_eq_false_iff_ne.mpr hamp]
    by_cases hlt : c = '<'
    · subst hlt
      exact .inl ⟨['l', 't'], rfl, by decide, rfl⟩
    · by_cases htab : c = '\t'
      · subst htab
        exact .inl ⟨['#', '9'], rfl, by decide, by decide⟩
      · by_cases hlf : c = '\n'
        · subst hlf
          exact .inl ⟨['#', '1', '0'], rfl, by decide, by decide⟩
        · by_cases hcr : c = '\r'
          · subst hcr
            exact .inl ⟨['#', '1', '3'], rfl, by decide, by decide⟩
          · by_cases hq : c = quote.char
            · subst hq
              cases quote with
              | double => exact .inl ⟨['q', 'u', 'o', 't'], rfl, by decide, rfl⟩
              | single => exact .inl ⟨['a', 'p', 'o', 's'], rfl, by decide, rfl⟩
            · simp [hlt, htab, hlf, hcr, hq, hamp]

theorem inText_faithful : Faithful inText := by
  intro c
  unfold inText
  by_cases hamp : c = '&'
  · subst hamp
    exact .inl ⟨['a', 'm', 'p'], rfl, by decide, rfl⟩
  · by_cases hlt : c = '<'
    · subst hlt
      exact .inl ⟨['l', 't'], rfl, by decide, rfl⟩
    · by_cases hgt : c = '>'
      · subst hgt
        exact .inl ⟨['g', 't'], rfl, by decide, rfl⟩
      · simp [hamp, hlt, hgt]

/-- Every reference stands for a character, so what is decoded from something is something. -/
theorem lt_length_of_decodeFrom {done cs r : List Char} {place : Place}
    (h : decodeFrom done place cs = .ok r) :
    done.length ≤ r.length ∧ (place ≠ .outside ∨ cs ≠ [] → done.length < r.length) := by
  fun_induction decodeFrom done place cs with
  | case1 done =>
    cases h
    simp
  | case2 => cases h
  | case3 done c cs _ ih =>
    have := (ih h).2 (.inl (by simp))
    omega
  | case4 done c cs _ ih =>
    have := (ih h).1
    rw [List.length_cons] at this
    omega
  | case5 done name c cs _ d _ ih =>
    have := (ih h).1
    rw [List.length_cons] at this
    omega
  | case6 => cases h
  | case7 done name c cs _ ih =>
    have := (ih h).2 (.inl (by simp))
    omega

theorem ne_empty_of_decode {raw content : String} (h : decode raw = .ok content)
    (hraw : raw ≠ "") : content ≠ "" := by
  unfold decode at h
  cases hr : decodeFrom [] .outside raw.toList with
  | error e =>
    rw [hr] at h
    cases h
  | ok r =>
    rw [hr] at h
    cases h
    have hne : raw.toList ≠ [] := fun hnil => hraw (String.toList_eq_nil_iff.mp hnil)
    have hpos := (lt_length_of_decodeFrom hr).2 (.inr hne)
    intro he
    rw [String.ofList_eq_empty_iff.mp he] at hpos
    exact absurd hpos (Nat.lt_irrefl _)

/-! ## What does not show -/

theorem not_mem_escape {replacement : Char → Option String} {x : Char} {s : String}
    (h : ∀ c, x ∉ written replacement c) : x ∉ (escape replacement s).toList := by
  rw [toList_escape, List.mem_flatMap]
  rintro ⟨c, _, hx⟩
  exact h c hx

/-- A character that is replaced, and that no reference is written with, does not show. -/
theorem not_mem_written {replacement : Char → Option String} {x : Char}
    (hx : (replacement x).isSome = true)
    (hw : ∀ c s, replacement c = some s → x ∉ s.toList) : ∀ c, x ∉ written replacement c := by
  intro c hc
  unfold written at hc
  cases hr : replacement c with
  | none =>
    rw [hr, Option.map_none, Option.getD_none, List.mem_singleton] at hc
    rw [hc, hr] at hx
    cases hx
  | some s =>
    rw [hr] at hc
    exact hw c s hr hc

/-- The references written in attribute values. -/
theorem mem_of_inAttribute {quote : Quote} {c : Char} {s : String}
    (h : inAttribute quote c = some s) :
    s ∈ ["&amp;", "&lt;", "&#9;", "&#10;", "&#13;", "&quot;", "&apos;"] := by
  unfold inAttribute at h
  repeat' split at h
  all_goals cases h
  all_goals decide

/-- The references written in texts. -/
theorem mem_of_inText {c : Char} {s : String} (h : inText c = some s) :
    s ∈ ["&amp;", "&lt;", "&gt;"] := by
  unfold inText at h
  repeat' split at h
  all_goals cases h
  all_goals decide

/-- What a text replaces does not show in it, but for the characters of the references. -/
theorem not_mem_escapeText {x : Char} (hx : (inText x).isSome = true)
    (hw : ∀ s ∈ ["&amp;", "&lt;", "&gt;"], x ∉ s.toList) (s : String) :
    x ∉ (escapeText s).toList :=
  not_mem_escape (not_mem_written hx fun _ t h => hw t (mem_of_inText h))

/-- What a value replaces does not show in it, but for the characters of the references. -/
theorem not_mem_escapeAttribute {quote : Quote} {x : Char}
    (hx : (inAttribute quote x).isSome = true)
    (hw : ∀ s ∈ ["&amp;", "&lt;", "&#9;", "&#10;", "&#13;", "&quot;", "&apos;"], x ∉ s.toList)
    (s : String) : x ∉ (escapeAttribute quote s).toList :=
  not_mem_escape (not_mem_written hx fun _ t h => hw t (mem_of_inAttribute h))

theorem quote_not_mem_escapeAttribute (quote : Quote) (s : String) :
    quote.char ∉ (escapeAttribute quote s).toList := by
  cases quote with
  | double => exact not_mem_escapeAttribute rfl (by decide) s
  | single => exact not_mem_escapeAttribute rfl (by decide) s

/-- An escaped text does not open a tag. -/
theorem lt_not_mem_escapeText (s : String) : '<'.toUInt8 ∉ Text.bytes (escapeText s) := by
  rw [Text.toUInt8_mem_bytes_iff (by decide)]
  exact not_mem_escapeText rfl (by decide) s

theorem escape_eq_self {replacement : Char → Option String} {s : String}
    (h : ∀ c ∈ s.toList, replacement c = none) : escape replacement s = s := by
  rw [← String.toList_inj, toList_escape]
  have hwritten : ∀ c ∈ s.toList, written replacement c = [c] := by
    intro c hc
    simp [written, h c hc]
  rw [List.flatMap_def, List.map_congr_left hwritten, ← List.flatMap_def, List.flatMap_singleton']

theorem escape_ne_empty {replacement : Char → Option String} (h : Faithful replacement)
    {s : String} (hs : s ≠ "") : escape replacement s ≠ "" := by
  intro he
  have hd := decode_escape h s
  rw [he] at hd
  cases hd
  exact hs rfl

/-- An escaped value may stand between its quotes. -/
theorem admits_escapeAttribute (quote : Quote) (value : String) :
    quote.Admits (escapeAttribute quote value) := by
  intro b hb
  constructor
  · rintro rfl
    have hascii : quote.char.toNat < 0x80 := by cases quote <;> decide
    exact quote_not_mem_escapeAttribute quote value ((Text.toUInt8_mem_bytes_iff hascii).mp hb)
  · rintro rfl
    rw [Text.toUInt8_mem_bytes_iff (by decide)] at hb
    exact not_mem_escapeAttribute rfl (by decide) value hb

/-- Escaping is lossless and safe. Whatever a text contains, references and single `&` among
it, decoding gives back just that text from what is written for it between tags, and from
what is written for it as a value in quotes of either kind. Between tags no `<` and no `>`
is written; in a value no `<`, no tab, no line feed, no carriage return and no quote of the
kind around it. -/
theorem escape_lossless (v : String) (quote : Quote) :
    decode (escapeText v) = .ok v ∧ decode (escapeAttribute quote v) = .ok v ∧
    ('<' ∉ (escapeText v).toList ∧ '>' ∉ (escapeText v).toList) ∧
    '<' ∉ (escapeAttribute quote v).toList ∧ '\t' ∉ (escapeAttribute quote v).toList ∧
    '\n' ∉ (escapeAttribute quote v).toList ∧ '\r' ∉ (escapeAttribute quote v).toList ∧
    quote.char ∉ (escapeAttribute quote v).toList := by
  refine ⟨decode_escape inText_faithful v, decode_escape (inAttribute_faithful quote) v,
    ⟨?_, ?_⟩, ?_, ?_, ?_, ?_, quote_not_mem_escapeAttribute quote v⟩
  · exact not_mem_escapeText rfl (by decide) v
  · exact not_mem_escapeText rfl (by decide) v
  · exact not_mem_escapeAttribute rfl (by decide) v
  · exact not_mem_escapeAttribute rfl (by decide) v
  · exact not_mem_escapeAttribute rfl (by decide) v
  · exact not_mem_escapeAttribute rfl (by decide) v

end TextHoist.Reference
