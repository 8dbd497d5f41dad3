/-
  Text patches: a byte range of a source and the text to put there.
-/
import TextHoist.Source.Error

namespace TextHoist

/-- Replace the bytes from `start` up to `stop` by a text. -/
structure Patch where
  start : Nat
  stop : Nat
  replacement : String
  deriving DecidableEq, Repr

namespace Patch

/-- The patched source. The range has to lie inside the source, both its ends between
characters, and must not be reversed. -/
def apply (p : Patch) (source : String) : Except Error String :=
  match Text.cut? source p.start, Text.cut? source p.stop with
  | some (before, _), some (_, after) =>
    if p.start ≤ p.stop then .ok (before ++ p.replacement ++ after)
    else .error (.malformed s!"patch range {p.start}..{p.stop} is reversed")
  | _, _ => .error (.malformed
      s!"patch range {p.start}..{p.stop} does not fit a buffer of {source.utf8ByteSize} bytes")

/-- A patch applies to the sources that have its range in the middle, and replaces just
that. -/
theorem apply_eq_ok_iff {p : Patch} {source result : String} :
    p.apply source = .ok result ↔
      ∃ before middle after, source = before ++ middle ++ after ∧
        before.utf8ByteSize = p.start ∧ (before ++ middle).utf8ByteSize = p.stop ∧
        result = before ++ p.replacement ++ after := by
  constructor
  · intro h
    unfold apply at h
    split at h
    case h_2 => cases h
    case h_1 before x y after hx hy =>
      split at h
      case isFalse => cases h
      case isTrue hle =>
        cases h
        obtain ⟨hs, hb⟩ := Text.cut?_eq_some_iff.mp hx
        obtain ⟨hs', hy'⟩ := Text.cut?_eq_some_iff.mp hy
        obtain ⟨middle, rfl, rfl⟩ :=
          Text.exists_middle (hs.symm.trans hs') (by omega)
        exact ⟨before, middle, after, hs', hb, hy', rfl⟩
  · rintro ⟨before, middle, after, rfl, hb, hm, rfl⟩
    have h₁ : Text.cut? (before ++ middle ++ after) p.start = some (before, middle ++ after) :=
      Text.cut?_eq_some_iff.mpr ⟨String.append_assoc .., hb⟩
    have h₂ : Text.cut? (before ++ middle ++ after) p.stop = some (before ++ middle, after) :=
      Text.cut?_eq_some_iff.mpr ⟨rfl, hm⟩
    have hle : p.start ≤ p.stop := by
      rw [← hb, ← hm, String.utf8ByteSize_append]
      exact Nat.le_add_right _ _
    simp [apply, h₁, h₂, hle]

end Patch

end TextHoist
