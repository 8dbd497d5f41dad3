/-
  What characters count as, and how they are shown.

  Two notions of blank are in use: between the parts of a tag only the four ASCII blanks
  separate (`isBlankByte`), while a text counts as blank, and is trimmed, by the Unicode
  property White_Space (`isBlank`).

  Numbers are unsigned and written in a given base, as in character references and options:
  at least one digit, any number of leading zeros, and at most one `+` in front.

  A single byte is shown in an error message as a character in single quotes, the byte's
  value taken as the code point; bytes that would not show are escaped. In what is logged,
  characters that a terminal would act on are written out.
-/
namespace TextHoist.Text

/-! ## Blanks -/

/-- The characters with the Unicode property White_Space. -/
def isBlank (c : Char) : Bool :=
  let n := c.toNat
  (0x09 ≤ n && n ≤ 0x0D) || n == 0x20 || n == 0x85 || n == 0xA0 || n == 0x1680 ||
    (0x2000 ≤ n && n ≤ 0x200A) || n == 0x2028 || n == 0x2029 || n == 0x202F ||
    n == 0x205F || n == 0x3000

/-- The bytes that separate the parts of a tag: space, tab, carriage return, line feed. -/
def isBlankByte (b : UInt8) : Bool :=
  b == ' '.toUInt8 || b == '\t'.toUInt8 || b == '\r'.toUInt8 || b == '\n'.toUInt8

/-- Whether a text has no character that is not blank. -/
def isBlankText (s : String) : Bool := s.toList.all isBlank

/-- The text without the blanks at its two ends. -/
def trim (s : String) : String :=
  String.ofList ((s.toList.dropWhile isBlank).reverse.dropWhile isBlank).reverse

/-! ## Numbers -/

/-- The value of a digit, letters of either case standing for ten and above. -/
def digit? (base : Nat) (c : Char) : Option Nat :=
  let value? :=
    if '0' ≤ c ∧ c ≤ '9' then some (c.toNat - '0'.toNat)
    else if 'a' ≤ c ∧ c ≤ 'z' then some (c.toNat - 'a'.toNat + 10)
    else if 'A' ≤ c ∧ c ≤ 'Z' then some (c.toNat - 'A'.toNat + 10)
    else none
  value?.filter (· < base)

/-- The value of a run of digits read after a number; none if one is not a digit. -/
def digits? (base : Nat) : Nat → List Char → Option Nat
  | n, [] => some n
  | n, c :: cs => do
    let d ← digit? base c
    digits? base (base * n + d) cs

/-- The value of a written number. -/
def number? (base : Nat) : List Char → Option Nat
  | [] => none
  | ['+'] => none
  | '+' :: cs => digits? base 0 cs
  | cs => digits? base 0 cs

/-! ## Characters in messages -/

/-- Control characters, the no-break space and the soft hyphen leave no visible mark. -/
def isUnprintable (b : UInt8) : Bool :=
  b < 0x20 || (0x7F ≤ b && b ≤ 0xA0) || b == 0xAD

/-- A byte between single quotes, escaped where it needs to be. -/
def quoteByte (b : UInt8) : String :=
  let shown :=
    if b == 0 then "\\0"
    else if b == '\t'.toUInt8 then "\\t"
    else if b == '\n'.toUInt8 then "\\n"
    else if b == '\r'.toUInt8 then "\\r"
    else if b == '\''.toUInt8 then "\\'"
    else if b == '\\'.toUInt8 then "\\\\"
    else if isUnprintable b then
      "\\u\x7b" ++ String.ofList (Nat.toDigits 16 b.toNat) ++ "\x7d"
    else String.singleton (Char.ofNat b.toNat)
  "'" ++ shown ++ "'"

/-- What stands at a place of the input, in words: a quoted byte, or the end. -/
def showByte? : Option UInt8 → String
  | some b => quoteByte b
  | none => "end of input"

/-- What is logged in place of a character that a terminal may take for a command: escape,
bell, backspace, form feed, delete, and the control characters above ASCII. -/
def inLog (c : Char) : List Char :=
  if c == '\x1b' then ['\\', 'x', '1', 'b']
  else if c == '\x07' then ['\\', 'x', '0', '7']
  else if c == '\x08' then ['\\', 'x', '0', '8']
  else if c == '\x0c' then ['\\', 'x', '0', 'c']
  else if c == '\x7f' then ['\\', 'x', '7', 'f']
  else if 0x80 ≤ c.toNat && c.toNat ≤ 0x9f then
    ['\\', 'u', '\x7b'] ++ Nat.toDigits 16 c.toNat ++ ['\x7d']
  else [c]

/-- A text as it is logged. -/
def logged (s : String) : String := String.ofList (s.toList.flatMap inLog)

end TextHoist.Text
