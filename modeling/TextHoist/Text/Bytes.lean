/-
  Text as UTF-8 bytes. `bytes` encodes and `ofBytes?` reads an encoding back;
  `ofBytes?_eq_some_iff` says that the two are inverse, so a byte list has at most one
  reading and every text has exactly one encoding. `cut?` splits a text at a byte
  offset, which only an offset between two characters admits (`cut?_eq_some_iff`).
-/
namespace TextHoist.Text

/-- The UTF-8 encoding of a text. -/
def bytes (s : String) : List UInt8 := s.toByteArray.data.toList

/-- The text these bytes encode, if they are valid UTF-8. -/
def ofBytes? (bs : List UInt8) : Option String := String.fromUTF8? ⟨bs.toArray⟩

theorem bytes_injective {s t : String} (h : bytes s = bytes t) : s = t := by
  rw [← String.toByteArray_inj]
  exact ByteArray.ext (Array.toList_inj.mp h)

@[simp]
theorem bytes_append (s t : String) : bytes (s ++ t) = bytes s ++ bytes t := by
  simp [bytes]

@[simp]
theorem bytes_empty : bytes "" = [] := rfl

@[simp]
theorem length_bytes (s : String) : (bytes s).length = s.utf8ByteSize := rfl

theorem bytes_ofList (cs : List Char) :
    bytes (String.ofList cs) = cs.flatMap String.utf8EncodeChar := by
  simp [bytes, List.utf8Encode]

/-- Reading succeeds exactly on encodings, and gives back what was encoded. -/
theorem ofBytes?_eq_some_iff {bs : List UInt8} {s : String} :
    ofBytes? bs = some s ↔ bs = bytes s := by
  unfold ofBytes? String.fromUTF8?
  constructor
  · intro h
    split at h
    · cases h; rfl
    · cases h
  · rintro rfl
    have hs : (⟨(bytes s).toArray⟩ : ByteArray) = s.toByteArray := by simp [bytes]
    simp only [hs, s.isValidUTF8, dif_pos]
    rfl

@[simp]
theorem ofBytes?_bytes (s : String) : ofBytes? (bytes s) = some s :=
  ofBytes?_eq_some_iff.mpr rfl

/-- The two parts of a text at a byte offset; none past the end or inside a character. -/
def cut? (s : String) (n : Nat) : Option (String × String) :=
  if n ≤ s.utf8ByteSize then do
    let before ← ofBytes? ((bytes s).take n)
    let after ← ofBytes? ((bytes s).drop n)
    return (before, after)
  else none

/-- The cuts of a text at `n` are its splittings whose first part has `n` bytes. -/
theorem cut?_eq_some_iff {s a b : String} {n : Nat} :
    cut? s n = some (a, b) ↔ s = a ++ b ∧ a.utf8ByteSize = n := by
  unfold cut?
  constructor
  · intro h
    split at h
    case isFalse => cases h
    case isTrue hn =>
      obtain ⟨x, hx, h⟩ := Option.bind_eq_some_iff.mp h
      obtain ⟨y, hy, h⟩ := Option.bind_eq_some_iff.mp h
      cases h
      rw [ofBytes?_eq_some_iff] at hx hy
      refine ⟨bytes_injective ?_, ?_⟩
      · rw [bytes_append, ← hx, ← hy, List.take_append_drop]
      · rw [← length_bytes, ← hx, List.length_take, length_bytes, Nat.min_eq_left hn]
  · rintro ⟨rfl, rfl⟩
    have hn : a.utf8ByteSize ≤ (a ++ b).utf8ByteSize := by simp
    rw [if_pos hn]
    simp [← length_bytes]

/-- Of two splittings of one text, the one with the shorter first part is the coarser. -/
theorem exists_middle {a x y b : String} (h : a ++ x = y ++ b)
    (hl : a.utf8ByteSize ≤ y.utf8ByteSize) : ∃ m, y = a ++ m ∧ x = m ++ b := by
  have hlist : a.toList ++ x.toList = y.toList ++ b.toList := by
    rw [← String.toList_append, ← String.toList_append, h]
  rcases List.append_eq_append_iff.mp hlist with ⟨m, hy, hx⟩ | ⟨m, ha, hb⟩
  · refine ⟨String.ofList m, ?_, ?_⟩ <;> rw [← String.toList_inj] <;> simp [hy, hx]
  · have ha' : a = y ++ String.ofList m := by rw [← String.toList_inj]; simp [ha]
    have hm : String.ofList m = "" := by
      rw [← String.utf8ByteSize_eq_zero_iff]
      rw [ha', String.utf8ByteSize_append] at hl
      omega
    refine ⟨"", ?_, ?_⟩
    · simp [ha', hm]
    · rw [← String.toList_inj]
      simp [hb, String.ofList_eq_empty_iff.mp hm]

/-- A byte offset that falls between two characters, or at an end of the text. -/
def isBoundary (s : String) (n : Nat) : Bool := (cut? s n).isSome

/-- The last boundary at or before a byte offset. -/
def boundaryBefore (s : String) : Nat → Nat
  | 0 => 0
  | n + 1 => if isBoundary s (n + 1) then n + 1 else boundaryBefore s n

end TextHoist.Text
