/-
  The smallest readings: encoded text, single characters and names. Each function reads
  at a cursor and gives back the cursor behind what it read.

  `Moves c r` says of a result that it stands at least one byte after `c`. Every reading
  has a lemma of that form, and reading a document ends because of them.
-/
import TextHoist.Markup.Reference
import TextHoist.Source.Cursor
import TextHoist.Source.Limits
import TextHoist.Text.Characters

namespace TextHoist

/-- The text that some bytes encode; `p` is where to report bytes that encode none. -/
def textOf (p : Position) (bs : List UInt8) : Except Error String :=
  match Text.ofBytes? bs with
  | some s => .ok s
  | none => .error (.here p .invalidUtf8)

/-- The text that some bytes encode, references resolved; `span` is where they stand. -/
def decodedText (span : Span) (bs : List UInt8) : Except Error String := do
  let raw ← textOf span.start bs
  (Reference.decode raw).mapError fun entity => ⟨.invalidEntity entity, span, none⟩

/-- Bytes a name may begin with: letters, `_`, `:` and all that is not ASCII. -/
def isNameStart (b : UInt8) : Bool :=
  ('a'.toUInt8 ≤ b && b ≤ 'z'.toUInt8) || ('A'.toUInt8 ≤ b && b ≤ 'Z'.toUInt8) ||
    b == '_'.toUInt8 || b == ':'.toUInt8 || 0x80 ≤ b

/-- Bytes a name may go on with. -/
def isNameByte (b : UInt8) : Bool :=
  isNameStart b || ('0'.toUInt8 ≤ b && b ≤ '9'.toUInt8) || b == '-'.toUInt8 || b == '.'.toUInt8

theorem exists_of_bind_eq_ok {ε α β : Type} {x : Except ε α} {f : α → Except ε β} {b : β}
    (h : x >>= f = .ok b) : ∃ a, x = .ok a ∧ f a = .ok b := by
  cases x with
  | error e => cases h
  | ok a => exact ⟨a, rfl, h⟩

namespace Cursor

/-- Whether a given ASCII character comes next. -/
def isAt (c : Cursor) (ch : Char) : Bool := c.peek? == some ch.toUInt8

/-- Past one given character. -/
def expect (c : Cursor) (ch : Char) : Except Error Cursor :=
  if c.isAt ch then .ok (c.advance 1)
  else .error (.here c.position
    (.expected (Text.quoteByte ch.toUInt8) (Text.showByte? c.peek?)))

def readName (c : Cursor) : Except Error (String × Cursor) :=
  if c.peek?.any isNameStart then do
    let bs := c.run isNameByte
    let name ← textOf c.position bs
    return (name, c.advance bs.length)
  else .error (.here c.position (.expected "name" (Text.showByte? c.peek?)))

/-- The result, if there is one, stands at least one byte after `c`. -/
def Moves {α : Type} (c : Cursor) (r : Except Error (α × Cursor)) : Prop :=
  ∀ a c', r = .ok (a, c') → ∃ n, 0 < n ∧ c.Reads n c'

theorem Moves.length_rest_lt {α : Type} {c c' : Cursor} {r : Except Error (α × Cursor)} {a : α}
    (hm : c.Moves r) (h : r = .ok (a, c')) : c'.rest.length < c.rest.length := by
  obtain ⟨n, hn, hr⟩ := hm a c' h
  have := hr.length_rest
  omega

theorem reads_one_of_isAt {c : Cursor} {ch : Char} (h : c.isAt ch = true) :
    c.Reads 1 (c.advance 1) := by
  refine reads_advance ?_
  cases hr : c.rest with
  | nil => simp [isAt, peek?, hr] at h
  | cons b bs => simp

theorem expect_reads {ch : Char} {c c' : Cursor} (h : c.expect ch = .ok c') : c.Reads 1 c' := by
  unfold expect at h
  split at h
  case isTrue hp => cases h; exact reads_one_of_isAt hp
  case isFalse => cases h

theorem readName_moves (c : Cursor) : c.Moves c.readName := by
  intro name c' h
  unfold readName at h
  split at h
  case isFalse => cases h
  case isTrue hp =>
    obtain ⟨t, _, h⟩ := exists_of_bind_eq_ok h
    cases h
    refine ⟨_, ?_, reads_advance (c.length_run_le _)⟩
    cases hr : c.rest with
    | nil => simp [peek?, hr] at hp
    | cons b bs =>
      have hb : isNameByte b = true := by simp [peek?, hr] at hp; simp [isNameByte, hp]
      simp [run, hr, hb]

end Cursor

end TextHoist
