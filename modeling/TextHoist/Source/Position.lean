/-
  Places in a source text. A `Position` counts bytes from the start of the text and, for
  the reader of a message, lines and characters; a `Span` is the stretch between two
  positions. `past` counts along bytes and `pastText` along characters.

  `Text.offsetAt?` goes the other way, from a line and a column, both counted from one, to a
  byte offset. There a line ends with a line feed, or with a carriage return and a line feed;
  neither belongs to its columns, but a column may point behind the last character.
-/
import TextHoist.Text.Bytes

namespace TextHoist

/-- A place in a text: bytes before it, line and column. In a text that has been read,
lines and columns count from one, and a column is a character. Their counts have 32 bits,
and the one after the greatest is zero. -/
structure Position where
  offset : Nat
  line : UInt32
  column : UInt32
  deriving DecidableEq, Ord, Repr

namespace Position

instance : LE Position := leOfOrd

/-- The place before the first byte of a text. -/
def start : Position := ⟨0, 1, 1⟩

/-- The second and later bytes of a character that takes several. -/
def isContinuation (b : UInt8) : Bool := b &&& 0xC0 == 0x80

/-- The place after one more byte. A line feed opens a line; a byte that continues a
character leaves the column alone. -/
def next (p : Position) (b : UInt8) : Position :=
  if b == '\n'.toUInt8 then ⟨p.offset + 1, p.line + 1, 1⟩
  else if isContinuation b then ⟨p.offset + 1, p.line, p.column⟩
  else ⟨p.offset + 1, p.line, p.column + 1⟩

/-- The place after some bytes. -/
def past (p : Position) (bs : List UInt8) : Position := bs.foldl next p

/-- The place after one more character. -/
def nextChar (p : Position) (c : Char) : Position :=
  if c == '\n' then ⟨p.offset + c.utf8Size, p.line + 1, 1⟩
  else ⟨p.offset + c.utf8Size, p.line, p.column + 1⟩

/-- The place after a text. -/
def pastText (p : Position) (s : String) : Position := s.toList.foldl nextChar p

/-- Line and column, as messages show them. -/
def display (p : Position) : String := s!"{p.line}:{p.column}"

@[simp]
theorem past_nil (p : Position) : p.past [] = p := rfl

theorem past_append (p : Position) (bs cs : List UInt8) :
    p.past (bs ++ cs) = (p.past bs).past cs :=
  List.foldl_append

theorem next_offset (p : Position) (b : UInt8) : (p.next b).offset = p.offset + 1 := by
  unfold next
  split
  · rfl
  · split <;> rfl

@[simp]
theorem past_offset (p : Position) (bs : List UInt8) :
    (p.past bs).offset = p.offset + bs.length := by
  induction bs generalizing p with
  | nil => rfl
  | cons b bs ih =>
    show ((p.next b).past bs).offset = _
    rw [ih, next_offset, List.length_cons]
    omega

end Position

/-- The stretch of a text from one position up to another. -/
structure Span where
  start : Position
  stop : Position
  deriving DecidableEq, Repr

namespace Span

/-- The span of something that stands in no text. -/
def nowhere : Span := ⟨⟨0, 0, 0⟩, ⟨0, 0, 0⟩⟩

/-- The empty span at a position. -/
def point (p : Position) : Span := ⟨p, p⟩

/-- The number of bytes covered. -/
def length (s : Span) : Nat := s.stop.offset - s.start.offset

def isEmpty (s : Span) : Bool := s.length == 0

/-- Whether the byte at an offset lies inside: the first one does, the one after the last
does not. -/
def contains (s : Span) (offset : Nat) : Bool :=
  s.start.offset ≤ offset && offset < s.stop.offset

/-- Whether an offset lies inside or at either end. -/
def touches (s : Span) (offset : Nat) : Bool :=
  s.start.offset ≤ offset && offset ≤ s.stop.offset

end Span

/-! ## Offsets by line and column -/

namespace Text

/-- What follows the first `n` line feeds, and its offset, `start` being that of the text
itself; none if there are fewer. -/
def dropLines (n start : Nat) : List Char → Option (Nat × List Char)
  | [] => if n = 0 then some (start, []) else none
  | c :: cs =>
    if n = 0 then some (start, c :: cs)
    else dropLines (if c == '\n' then n - 1 else n) (start + c.utf8Size) cs

/-- The characters of the first line that have columns. -/
def lineContent (cs : List Char) : List Char :=
  let line := cs.takeWhile (· != '\n')
  if line.getLast? = some '\r' then line.dropLast else line

/-- The number of bytes before a column of a line, counted from zero. -/
def columnOffset? (line : List Char) (column : Nat) : Option Nat :=
  if column ≤ line.length then some (String.ofList (line.take column)).utf8ByteSize else none

/-- The byte offset of a line and column, if the text has it. Behind the last line that
has characters, only the first column has an offset, namely the end, and only if the
text ends with a line feed. -/
def offsetAt? (s : String) (line column : Nat) : Option Nat :=
  if line = 0 ∨ column = 0 then none
  else
    match dropLines (line - 1) 0 s.toList with
    | some (start, c :: cs) => (columnOffset? (lineContent (c :: cs)) (column - 1)).map (start + ·)
    | _ => if column = 1 ∧ s.toList.getLast? = some '\n' then some s.utf8ByteSize else none

end Text

end TextHoist
