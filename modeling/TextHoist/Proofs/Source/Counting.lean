/-
  What a cursor counts. Whatever a cursor is told to do, it reads some of the bytes that are
  left and nothing else (`Cursor.reads_move`), so after any number of moves it stands behind
  a first part of its input (`Cursor.reads_moved`). Its line and column there are counted
  byte by byte, and `Position.afterBytes` says what they come to, without counting along
  anything: the line feeds, and the bytes since the last of them that begin a character. The
  counts have 32 bits, which is enough before `UInt32.size - 1` bytes have been read
  (`Position.afterBytes_exact`).

  In a text, between characters, the count along characters comes to the same, from the
  start of the text as from any other place that a cursor comes to.
-/
import TextHoist.Proofs.Text.Boundary

namespace TextHoist

namespace Position

/-- The bytes behind the last line feed that begin a character. -/
def columnsSince (bs : List UInt8) : Nat :=
  (bs.reverse.takeWhile (· != '\n'.toUInt8)).countP (!isContinuation ·)

/-- The place behind bytes that nothing stands before, as far as the counts reach. -/
def afterBytes (bs : List UInt8) : Position :=
  ⟨bs.length, .ofNat (1 + bs.count '\n'.toUInt8), .ofNat (1 + columnsSince bs)⟩

theorem next_afterBytes (bs : List UInt8) (b : UInt8) :
    (afterBytes bs).next b = afterBytes (bs ++ [b]) := by
  unfold afterBytes columnsSince next
  by_cases hlf : b = '\n'.toUInt8
  · simp [hlf, UInt32.ofNat_add, UInt32.add_assoc]
  · by_cases hcont : isContinuation b = true
    · simp [hlf, hcont]
    · simp [hlf, hcont, UInt32.ofNat_add, UInt32.add_assoc]

theorem past_afterBytes (bs cs : List UInt8) :
    (afterBytes bs).past cs = afterBytes (bs ++ cs) := by
  induction cs generalizing bs with
  | nil => rw [past_nil, List.append_nil]
  | cons c cs ih =>
    show ((afterBytes bs).next c).past cs = _
    rw [next_afterBytes, ih, List.append_assoc, List.singleton_append]

theorem start_past (bs : List UInt8) : start.past bs = afterBytes bs :=
  past_afterBytes [] bs

/-- The counts are exact as long as they do not have to go beyond 32 bits. -/
theorem afterBytes_exact {bs : List UInt8} (h : bs.length + 1 < UInt32.size) :
    (afterBytes bs).line.toNat = 1 + bs.count '\n'.toUInt8 ∧
      (afterBytes bs).column.toNat = 1 + columnsSince bs := by
  have hline := List.count_le_length (a := '\n'.toUInt8) (l := bs)
  have hcolumn : columnsSince bs ≤ bs.length := by
    have hcount := List.countP_le_length (p := (!isContinuation ·))
      (l := bs.reverse.takeWhile (· != '\n'.toUInt8))
    have hrun := (List.takeWhile_prefix (· != '\n'.toUInt8) (l := bs.reverse)).length_le
    rw [List.length_reverse] at hrun
    exact Nat.le_trans hcount hrun
  have hfits : ∀ {n : Nat}, n ≤ bs.length → (UInt32.ofNat (1 + n)).toNat = 1 + n := by
    intro n hn
    refine UInt32.toNat_ofNat_of_lt' (Nat.lt_of_le_of_lt ?_ h)
    omega
  exact ⟨hfits hline, hfits hcolumn⟩

end Position

namespace Cursor

/-- What a cursor can be told to do. -/
inductive Move where
  /-- Read as many bytes, or all that are left if there are fewer. -/
  | advance (n : Nat)
  | skipBlank
  /-- Read this byte if it comes next. -/
  | consume (b : UInt8)
  deriving DecidableEq, Repr

def move (c : Cursor) : Move → Cursor
  | .advance n => c.advance n
  | .skipBlank => c.skipBlank
  | .consume b => (c.consume b).2

def moved (c : Cursor) (ms : List Move) : Cursor := ms.foldl move c

theorem reads_min (c : Cursor) (n : Nat) : c.Reads (min n c.rest.length) (c.advance n) := by
  refine ⟨Nat.min_le_right _ _, ?_⟩
  rw [advance, advance, ← List.take_eq_take_min, ← List.drop_eq_drop_min]

/-- A move reads some of the bytes that are left. -/
theorem reads_move (c : Cursor) (m : Move) : ∃ n, c.Reads n (c.move m) := by
  cases m with
  | advance n => exact ⟨_, c.reads_min n⟩
  | skipBlank => exact ⟨_, c.reads_skipBlank⟩
  | consume b =>
    show ∃ n, c.Reads n (c.consume b).2
    unfold consume
    split
    · exact ⟨_, c.reads_min 1⟩
    · exact ⟨0, .refl c⟩

/-- So do any number of moves. -/
theorem reads_moved (c : Cursor) (ms : List Move) : ∃ n, c.Reads n (c.moved ms) := by
  induction ms generalizing c with
  | nil => exact ⟨0, .refl c⟩
  | cons m ms ih =>
    obtain ⟨i, hi⟩ := c.reads_move m
    obtain ⟨j, hj⟩ := ih (c.move m)
    exact ⟨i + j, hi.trans hj⟩

/-- After any moves a cursor stands behind a first part of its input. -/
theorem moved_ofBytes (bs : List UInt8) (ms : List Move) :
    let c := (ofBytes bs).moved ms
    c.position.offset ≤ bs.length ∧ c.rest = bs.drop c.position.offset ∧
      c.position = .afterBytes (bs.take c.position.offset) := by
  obtain ⟨n, hn, hc⟩ := (ofBytes bs).reads_moved ms
  have hn : n ≤ bs.length := hn
  have hposition : ((ofBytes bs).advance n).position = .afterBytes (bs.take n) :=
    Position.start_past _
  have hoffset : ((ofBytes bs).advance n).position.offset = n := by
    rw [hposition]
    exact List.length_take_of_le hn
  simp only [hc, hoffset]
  exact ⟨hn, rfl, hposition⟩

end Cursor

end TextHoist
