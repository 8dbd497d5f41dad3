/-
  Names by their characters, and the attributes made of them. The reader looks at the bytes of
  a name. In characters, a name begins with a letter, `_`, `:` or anything that is not ASCII,
  and goes on with these, digits, `-` and `.` (`isName_iff`): an ASCII character is one byte,
  and of any other one no byte is ASCII, so all its bytes are parts of a name.

  With that, what `Attribute.make` does is told by the characters it is given: the blanks
  around the name are taken off, and if a name is left, the attribute has it and the value,
  whatever else that contains (`Attribute.make_exact`).
-/
import TextHoist.Proofs.Markup.Written

namespace TextHoist

namespace Text

/-- Characters a name may begin with. -/
def isNameHead (c : Char) : Bool := c.isAlpha || c == '_' || c == ':' || 0x80 ≤ c.toNat

/-- Characters a name may go on with. -/
def isNamePart (c : Char) : Bool := isNameHead c || c.isDigit || c == '-' || c == '.'

/-- At least one character, the first one fit to begin a name and all others to go on with. -/
def spellsName : List Char → Bool
  | [] => false
  | c :: cs => isNameHead c && cs.all isNamePart

set_option maxRecDepth 2000 in
theorem isNameByte_ofNat : ∀ n < 0x80,
    isNameStart (Char.ofNat n).toUInt8 = isNameHead (Char.ofNat n) ∧
      isNameByte (Char.ofNat n).toUInt8 = isNamePart (Char.ofNat n) := by
  decide

theorem isNameStart_wide {b : UInt8} (h : 0x80 ≤ b.toNat) : isNameStart b = true := by
  have hb : 0x80 ≤ b := h
  simp [isNameStart, hb]

/-- Of the bytes of a character, the first decides whether a name may begin with it. -/
theorem exists_utf8EncodeChar (c : Char) :
    ∃ b bs, String.utf8EncodeChar c = b :: bs ∧ isNameStart b = isNameHead c ∧
      isNameByte b = isNamePart c ∧ ∀ x ∈ bs, isNameByte x = true := by
  by_cases hc : c.toNat < 0x80
  · have hname := isNameByte_ofNat c.toNat hc
    rw [Char.ofNat_toNat] at hname
    exact ⟨c.toUInt8, [], utf8EncodeChar_ascii c hc, hname.1, hname.2, by simp⟩
  · have hwide : isNameHead c = true := by simp [isNameHead, Nat.not_lt.mp hc]
    obtain ⟨b, bs, hbytes, hb, hbs⟩ := utf8EncodeChar_wide c (Nat.not_lt.mp hc)
    have hstart : isNameStart b = true := isNameStart_wide (by omega)
    refine ⟨b, bs, hbytes, hstart.trans hwide.symm, ?_, ?_⟩
    · rw [isNameByte_of_isNameStart hstart, isNamePart, hwide]
      rfl
    · intro x hx
      exact isNameByte_of_isNameStart (isNameStart_wide (hbs x hx).1)

/-- The bytes of some characters are parts of a name if the characters are. -/
theorem isNameByte_flatMap_iff {cs : List Char} :
    (∀ x ∈ cs.flatMap String.utf8EncodeChar, isNameByte x = true) ↔
      cs.all isNamePart = true := by
  rw [List.all_eq_true]
  constructor
  · intro h c hc
    obtain ⟨b, bs, hbytes, _, hb, _⟩ := exists_utf8EncodeChar c
    rw [← hb]
    exact h b (List.mem_flatMap.mpr ⟨c, hc, by rw [hbytes]; exact List.mem_cons_self⟩)
  · intro h x hx
    obtain ⟨c, hc, hx⟩ := List.mem_flatMap.mp hx
    obtain ⟨b, bs, hbytes, _, hb, hbs⟩ := exists_utf8EncodeChar c
    rw [hbytes] at hx
    rcases List.mem_cons.mp hx with hx | hx
    · rw [hx, hb]
      exact h c hc
    · exact hbs x hx

end Text

/-- Which texts are names, by their characters. -/
theorem isName_iff {name : String} : IsName name ↔ Text.spellsName name.toList = true := by
  unfold IsName
  rw [Text.bytes_eq_flatMap]
  cases name.toList with
  | nil => simp [Text.spellsName]
  | cons c cs =>
    obtain ⟨b, bs, hbytes, hhead, _, hbs⟩ := Text.exists_utf8EncodeChar c
    rw [List.flatMap_cons, hbytes, Text.spellsName, Bool.and_eq_true, ← hhead,
      ← Text.isNameByte_flatMap_iff]
    constructor
    · rintro ⟨_, _, heq, hb, hrest⟩
      cases heq
      exact ⟨hb, fun x hx => hrest x (List.mem_append_right _ hx)⟩
    · rintro ⟨hb, hrest⟩
      refine ⟨b, bs ++ cs.flatMap String.utf8EncodeChar, rfl, hb, fun x hx => ?_⟩
      rcases List.mem_append.mp hx with hx | hx
      · exact hbs x hx
      · exact hrest x hx

/-- An attribute can be made exactly if a name is left of the one given once the blanks around
it are taken off. It has that name and the given value, in double quotes, and no name and no
value brings about any other attribute. -/
theorem Attribute.make_exact (name value : String) :
    (Attribute.make name value).toOption =
      if Text.spellsName (Text.strip name).toList then some ⟨Text.strip name, value, .double⟩
      else none := by
  split
  case isTrue h =>
    rw [toOption_eq_some_iff, Attribute.make_eq_ok_iff, isName_iff]
    exact ⟨h, rfl⟩
  case isFalse h =>
    cases hmake : Attribute.make name value with
    | error => rfl
    | ok a =>
      obtain ⟨hname, _⟩ := Attribute.make_eq_ok_iff.mp hmake
      exact absurd (isName_iff.mp hname) h

end TextHoist
