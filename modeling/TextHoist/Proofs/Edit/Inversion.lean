/-
  Patches, byte by byte. A patch applies exactly if its range lies in the source, is not
  reversed and has both ends between characters. Then the bytes before and behind the range
  stay, those of the replacement stand between them, and the patch that puts the replaced
  text back fits the result: the cut before the replacement is where it was, and the one
  behind it is where the replacement ends.
-/
import TextHoist.Edit.Patch
import TextHoist.Proofs.Text.Boundary

namespace TextHoist.Patch

open Position (isContinuation)

/-- The range lies in the source, and at neither of its ends a character goes on. -/
def Fits (p : Patch) (source : String) : Prop :=
  p.start ≤ p.stop ∧ p.stop ≤ source.utf8ByteSize ∧
    Halts isContinuation ((Text.bytes source).drop p.start) ∧
    Halts isContinuation ((Text.bytes source).drop p.stop)

/-- The bytes of a source that a patch replaces. -/
def replaced (p : Patch) (source : String) : List UInt8 :=
  ((Text.bytes source).take p.stop).drop p.start

/-- The patch that puts a text in the place of the replacement. -/
def inverse (p : Patch) (text : String) : Patch :=
  ⟨p.start, p.start + p.replacement.utf8ByteSize, text⟩

variable {p : Patch} {source : String}

/-- The source falls into what stands before the range, in it and behind it. -/
theorem fits_iff : p.Fits source ↔
    ∃ before middle after, source = before ++ middle ++ after ∧
      before.utf8ByteSize = p.start ∧ (before ++ middle).utf8ByteSize = p.stop := by
  constructor
  · rintro ⟨hle, hstop, hcut₁, hcut₂⟩
    have hb₁ := Text.isBoundary_iff_halts.mpr ⟨Nat.le_trans hle hstop, hcut₁⟩
    have hb₂ := Text.isBoundary_iff_halts.mpr ⟨hstop, hcut₂⟩
    obtain ⟨before, x, hx, hstart⟩ := Text.isBoundary_iff.mp hb₁
    obtain ⟨y, after, hy, hy'⟩ := Text.isBoundary_iff.mp hb₂
    obtain ⟨middle, rfl, _⟩ := Text.exists_middle (hx.symm.trans hy) (by omega)
    exact ⟨before, middle, after, hy, hstart, hy'⟩
  · rintro ⟨before, middle, after, hs, hstart, hstop⟩
    have hb₁ : Text.isBoundary source p.start = true :=
      Text.isBoundary_iff.mpr ⟨before, middle ++ after, by rw [hs, String.append_assoc], hstart⟩
    have hb₂ : Text.isBoundary source p.stop = true :=
      Text.isBoundary_iff.mpr ⟨before ++ middle, after, hs, hstop⟩
    obtain ⟨_, hcut₁⟩ := Text.isBoundary_iff_halts.mp hb₁
    obtain ⟨hle, hcut₂⟩ := Text.isBoundary_iff_halts.mp hb₂
    refine ⟨?_, hle, hcut₁, hcut₂⟩
    rw [← hstart, ← hstop, String.utf8ByteSize_append]
    exact Nat.le_add_right _ _

theorem exists_apply_iff : (∃ result, p.apply source = .ok result) ↔ p.Fits source := by
  rw [fits_iff]
  constructor
  · rintro ⟨result, h⟩
    obtain ⟨before, middle, after, hs, hstart, hstop, _⟩ := apply_eq_ok_iff.mp h
    exact ⟨before, middle, after, hs, hstart, hstop⟩
  · rintro ⟨before, middle, after, hs, hstart, hstop⟩
    exact ⟨_, apply_eq_ok_iff.mpr ⟨before, middle, after, hs, hstart, hstop, rfl⟩⟩

/-- Whatever keeps a patch from applying is told as malformed. -/
theorem malformed_of_apply {error : Error} (h : p.apply source = .error error) :
    ∃ reason, error = .malformed reason := by
  unfold apply at h
  split at h
  case h_1 =>
    split at h
    case isTrue => cases h
    case isFalse =>
      cases h
      exact ⟨_, rfl⟩
  case h_2 =>
    cases h
    exact ⟨_, rfl⟩

/-- A patch applies exactly to the sources it fits, and is malformed for all others. It
replaces the bytes of its range and no others, and what it replaced can be put back. -/
theorem apply_invertible (p : Patch) (source : String) :
    ((∃ result, p.apply source = .ok result) ↔ p.Fits source) ∧
    (∀ result, p.apply source = .ok result →
      Text.bytes result = (Text.bytes source).take p.start ++ Text.bytes p.replacement ++
        (Text.bytes source).drop p.stop ∧
      ∃ text, Text.bytes text = p.replaced source ∧ (p.inverse text).apply result = .ok source) ∧
    ∀ error, p.apply source = .error error → ∃ reason, error = .malformed reason := by
  refine ⟨exists_apply_iff, fun result h => ?_, fun error h => malformed_of_apply h⟩
  obtain ⟨before, middle, after, rfl, hstart, hstop, rfl⟩ := apply_eq_ok_iff.mp h
  have htake : (Text.bytes (before ++ middle ++ after)).take p.start = Text.bytes before := by
    rw [String.append_assoc, Text.bytes_append, ← hstart, ← Text.length_bytes, List.take_left]
  have hdrop : (Text.bytes (before ++ middle ++ after)).drop p.stop = Text.bytes after := by
    rw [Text.bytes_append, ← hstop, ← Text.length_bytes, List.drop_left]
  have hmiddle : p.replaced (before ++ middle ++ after) = Text.bytes middle := by
    rw [replaced, Text.bytes_append, ← hstop, ← Text.length_bytes, List.take_left,
      Text.bytes_append, ← hstart, ← Text.length_bytes, List.drop_left]
  refine ⟨by rw [htake, hdrop, Text.bytes_append, Text.bytes_append], middle, hmiddle.symm, ?_⟩
  refine apply_eq_ok_iff.mpr ⟨before, p.replacement, after, rfl, hstart, ?_, rfl⟩
  rw [String.utf8ByteSize_append, hstart]
  rfl

/-- A character of two bytes gives way to one of three, and comes back. -/
theorem apply_invertible_wide :
    Patch.apply ⟨3, 5, "世"⟩ "<a>é</a>" = .ok "<a>世</a>" ∧
      Patch.apply ⟨3, 6, "é"⟩ "<a>世</a>" = .ok "<a>é</a>" ∧
      ¬ (∃ result, Patch.apply ⟨3, 4, "世"⟩ "<a>é</a>" = .ok result) := by
  have h : Patch.apply ⟨3, 5, "世"⟩ "<a>é</a>" = .ok "<a>世</a>" :=
    apply_eq_ok_iff.mpr ⟨"<a>", "é", "</a>", by decide⟩
  obtain ⟨_, text, htext, hback⟩ := (apply_invertible _ _).2.1 _ h
  have hreplaced : replaced ⟨3, 5, "世"⟩ "<a>é</a>" = Text.bytes "é" := by decide
  obtain rfl : text = "é" := Text.bytes_injective (htext.trans hreplaced)
  refine ⟨h, hback, fun hsplit => ?_⟩
  obtain ⟨_, _, _, hcut⟩ := (apply_invertible _ _).1.mp hsplit
  exact absurd (hcut 0xA9 (by decide)) (by decide)

end TextHoist.Patch
