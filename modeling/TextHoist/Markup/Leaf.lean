/-
  Leaves of the tree: text, and the kinds that stand between an opener and a closer.
-/
import TextHoist.Markup.Lexeme

namespace TextHoist

/-- How many bytes stand before the first place where `stop` comes next, `n` of them
already passed. -/
def distance? (stop : List UInt8) (n : Nat) : List UInt8 → Option Nat
  | [] => none
  | b :: bs => if stop.isPrefixOf (b :: bs) then some n else distance? stop (n + 1) bs

/-- How many bytes stand before the `>` that ends a doctype, `n` of them already passed:
it is the first one outside square brackets, `depth` of which are open. A bracket that
closes none is ignored. -/
def doctypeEnd? (depth n : Nat) : List UInt8 → Option Nat
  | [] => none
  | b :: bs =>
    if b == '['.toUInt8 then doctypeEnd? (depth + 1) (n + 1) bs
    else if b == ']'.toUInt8 then doctypeEnd? (depth - 1) (n + 1) bs
    else if b == '>'.toUInt8 && depth == 0 then some n
    else doctypeEnd? depth (n + 1) bs

/-- How many bytes the content of a leaf has, for the kinds that mark their end. -/
def LeafKind.contentEnd? (kind : LeafKind) (bs : List UInt8) : Option Nat :=
  match kind with
  | doctype => doctypeEnd? 0 0 bs
  | _ => distance? (Text.bytes kind.closer) 0 bs

theorem distance?_le {stop : List UInt8} {n m : Nat} {bs : List UInt8}
    (h : distance? stop n bs = some m) : n ≤ m ∧ m - n + stop.length ≤ bs.length := by
  induction bs generalizing n with
  | nil => cases h
  | cons b bs ih =>
    unfold distance? at h
    split at h
    case isTrue hp =>
      cases h
      have := (List.isPrefixOf_iff_prefix.mp hp).length_le
      simpa using this
    case isFalse =>
      have := ih h
      simp only [List.length_cons]
      omega

theorem doctypeEnd?_lt {depth n m : Nat} {bs : List UInt8}
    (h : doctypeEnd? depth n bs = some m) : n ≤ m ∧ m - n < bs.length := by
  induction bs generalizing depth n with
  | nil => cases h
  | cons b bs ih =>
    unfold doctypeEnd? at h
    simp only [List.length_cons]
    split at h
    · have := ih h; omega
    · split at h
      · have := ih h; omega
      · split at h
        · cases h; omega
        · have := ih h; omega

theorem LeafKind.contentEnd?_le {kind : LeafKind} {n : Nat} {bs : List UInt8}
    (h : kind.contentEnd? bs = some n) : n + kind.closer.utf8ByteSize ≤ bs.length := by
  cases kind with
  | doctype =>
    have := doctypeEnd?_lt h
    have hc : LeafKind.doctype.closer.utf8ByteSize = 1 := rfl
    omega
  | _ =>
    have := distance?_le h
    rw [Text.length_bytes] at this
    omega

namespace Cursor

/-- A leaf whose opener comes next, up to and with its closer. -/
def readDelimited (c : Cursor) (kind : LeafKind) : Except Error (Node × Cursor) :=
  let inner := c.advance kind.opener.utf8ByteSize
  match kind.contentEnd? inner.rest with
  | none =>
    .error ⟨.unterminated, ⟨c.position, (inner.advance inner.rest.length).position⟩, none⟩
  | some n => do
    let content ← textOf c.position (inner.rest.take n)
    let stop := inner.advance (n + kind.closer.utf8ByteSize)
    return (.leaf kind content ⟨c.position, stop.position⟩, stop)

/-- Text up to the next tag, references resolved. -/
def readCharacterData (c : Cursor) : Except Error (Node × Cursor) := do
  let bs := c.run (· != '<'.toUInt8)
  let stop := c.advance bs.length
  let content ← decodedText ⟨c.position, stop.position⟩ bs
  return (.leaf .text content ⟨c.position, stop.position⟩, stop)

/-- The blanks that come next, as a text node. -/
def readBlank (c : Cursor) : Except Error (Node × Cursor) := do
  let stop := c.skipBlank
  let content ← textOf c.position (c.run Text.isBlankByte)
  return (.leaf .text content ⟨c.position, stop.position⟩, stop)

/-- Whether what comes next opens a leaf of this kind. -/
def opens (c : Cursor) (kind : LeafKind) : Bool := c.startsWith kind.opener

theorem readDelimited_moves {c c' : Cursor} {kind : LeafKind} {n : Node}
    (hk : kind ≠ .text) (hc : c.opens kind = true)
    (h : c.readDelimited kind = .ok (n, c')) : ∃ n, 0 < n ∧ c.Reads n c' := by
  unfold readDelimited at h
  simp only at h
  split at h
  case h_1 => cases h
  case h_2 m hm =>
    obtain ⟨t, _, h⟩ := exists_of_bind_eq_ok h
    cases h
    have hopen := reads_of_startsWith hc
    have hend := reads_advance (LeafKind.contentEnd?_le hm)
    refine ⟨_, ?_, hopen.trans hend⟩
    have : 0 < kind.opener.utf8ByteSize := by cases kind <;> first | contradiction | decide
    omega

theorem readCharacterData_moves {c c' : Cursor} {n : Node} (he : c.atEnd = false)
    (ht : c.isAt '<' = false) (h : c.readCharacterData = .ok (n, c')) :
    ∃ n, 0 < n ∧ c.Reads n c' := by
  unfold readCharacterData at h
  obtain ⟨t, _, h⟩ := exists_of_bind_eq_ok h
  cases h
  refine ⟨_, ?_, reads_advance (c.length_run_le _)⟩
  cases hr : c.rest with
  | nil => simp [atEnd, hr] at he
  | cons b bs => simp [run, hr, isAt, peek?] at ht ⊢; simp [ht]

theorem readBlank_moves {c c' : Cursor} {n : Node} (hb : c.peek?.any Text.isBlankByte = true)
    (h : c.readBlank = .ok (n, c')) : ∃ n, 0 < n ∧ c.Reads n c' := by
  unfold readBlank at h
  obtain ⟨t, _, h⟩ := exists_of_bind_eq_ok h
  cases h
  refine ⟨_, ?_, c.reads_skipBlank⟩
  cases hr : c.rest with
  | nil => simp [peek?, hr] at hb
  | cons b bs => simp [peek?, hr] at hb; simp [run, hr, hb]

end Cursor

end TextHoist
