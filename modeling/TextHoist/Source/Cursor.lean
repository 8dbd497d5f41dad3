/-
  A place in a byte input together with what is left to read from there. Every reading
  function moves a cursor forward, and only by `advance`: `c.Reads n c'` says that `c'`
  is `c` after `n` bytes that were there to read, and such moves compose (`Reads.trans`).
-/
import TextHoist.Source.Position
import TextHoist.Text.Characters

namespace TextHoist

/-- A byte input, the part of it still to read, and the place where that part starts. -/
structure Cursor where
  input : List UInt8
  rest : List UInt8
  position : Position
  deriving DecidableEq, Repr

namespace Cursor

/-- The cursor before the first byte. -/
def ofBytes (input : List UInt8) : Cursor := ⟨input, input, .start⟩

/-- Nothing is left to read. -/
def atEnd (c : Cursor) : Bool := c.rest.isEmpty

/-- The byte to be read next. -/
def peek? (c : Cursor) : Option UInt8 := c.rest.head?

/-- Past the next `n` bytes, or past all that is left if there are fewer. -/
def advance (c : Cursor) (n : Nat) : Cursor :=
  { c with rest := c.rest.drop n, position := c.position.past (c.rest.take n) }

/-- Whether these bytes come next. -/
def startsWithBytes (c : Cursor) (bs : List UInt8) : Bool := bs.isPrefixOf c.rest

/-- Whether the bytes of a text come next. -/
def startsWith (c : Cursor) (s : String) : Bool := c.startsWithBytes (Text.bytes s)

/-- Past one byte, if it is the given one; whether it was. -/
def consume (c : Cursor) (b : UInt8) : Bool × Cursor :=
  if c.peek? == some b then (true, c.advance 1) else (false, c)

/-- The longest run of bytes with a property that comes next. -/
def run (c : Cursor) (p : UInt8 → Bool) : List UInt8 := c.rest.takeWhile p

/-- Past the blanks that come next. -/
def skipBlank (c : Cursor) : Cursor := c.advance (c.run Text.isBlankByte).length

/-- The bytes already read, from an offset on. -/
def readSince (c : Cursor) (offset : Nat) : List UInt8 :=
  (c.input.take c.position.offset).drop offset

/-- The cursor `c'` is reached from `c` by reading `n` bytes. -/
def Reads (c : Cursor) (n : Nat) (c' : Cursor) : Prop := n ≤ c.rest.length ∧ c' = c.advance n

@[simp]
theorem advance_zero (c : Cursor) : c.advance 0 = c := by
  simp [advance]

@[simp]
theorem length_rest_advance (c : Cursor) (n : Nat) :
    (c.advance n).rest.length = c.rest.length - n := by
  simp [advance]

theorem advance_advance (c : Cursor) (m n : Nat) :
    (c.advance m).advance n = c.advance (m + n) := by
  simp [advance, ← Position.past_append, List.take_add]

theorem Reads.refl (c : Cursor) : c.Reads 0 c := ⟨Nat.zero_le _, c.advance_zero.symm⟩

theorem Reads.trans {c c' c'' : Cursor} {m n : Nat} (h : c.Reads m c') (h' : c'.Reads n c'') :
    c.Reads (m + n) c'' := by
  obtain ⟨hm, rfl⟩ := h
  obtain ⟨hn, rfl⟩ := h'
  rw [length_rest_advance] at hn
  exact ⟨by omega, advance_advance c m n⟩

theorem Reads.length_rest {c c' : Cursor} {n : Nat} (h : c.Reads n c') :
    c'.rest.length + n = c.rest.length := by
  obtain ⟨hn, rfl⟩ := h
  rw [length_rest_advance]
  omega

theorem reads_advance {c : Cursor} {n : Nat} (h : n ≤ c.rest.length) : c.Reads n (c.advance n) :=
  ⟨h, rfl⟩

theorem length_run_le (c : Cursor) (p : UInt8 → Bool) : (c.run p).length ≤ c.rest.length :=
  (List.takeWhile_prefix p).length_le

theorem reads_skipBlank (c : Cursor) :
    c.Reads (c.run Text.isBlankByte).length c.skipBlank :=
  reads_advance (c.length_run_le _)

/-- A text that comes next is what `advance` over its length reads. -/
theorem reads_of_startsWith {c : Cursor} {s : String} (h : c.startsWith s = true) :
    c.Reads s.utf8ByteSize (c.advance s.utf8ByteSize) := by
  have := (List.isPrefixOf_iff_prefix.mp h).length_le
  exact reads_advance (by simpa using this)

end Cursor

end TextHoist
