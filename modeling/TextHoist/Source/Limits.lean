/-
  Bounds on what is read: how many elements may be open at once, how many bytes an
  input may have, and whether a tag may repeat an attribute.
-/
import TextHoist.Source.Error

namespace TextHoist

structure Limits where
  maxDepth : Nat := 100
  maxSize : Nat := 10 * 1024 * 1024
  allowRepeats : Bool := false
  deriving DecidableEq, Repr

namespace Limits

/-- Refuses an input of more bytes than allowed. -/
def checkSize (l : Limits) (size : Nat) : Except Error Unit :=
  if l.maxSize < size then .error ⟨.sizeExceeded l.maxSize, .nowhere, none⟩ else .ok ()

/-- Refuses to have `depth` elements open, the innermost of them opened at `p`. -/
def checkDepth (l : Limits) (depth : Nat) (p : Position) : Except Error Unit :=
  if l.maxDepth < depth then .error (.here p (.depthExceeded l.maxDepth)) else .ok ()

/-- The same bounds for a text that is being edited: an attribute added to an element
may repeat one that it has. -/
def whileEditing (l : Limits) : Limits := { l with allowRepeats := true }

theorem checkSize_eq_ok_iff {l : Limits} {n : Nat} : l.checkSize n = .ok () ↔ n ≤ l.maxSize := by
  unfold checkSize
  split <;> simp <;> omega

theorem checkDepth_eq_ok_iff {l : Limits} {n : Nat} {p : Position} :
    l.checkDepth n p = .ok () ↔ n ≤ l.maxDepth := by
  unfold checkDepth
  split <;> simp <;> omega

end Limits

end TextHoist
