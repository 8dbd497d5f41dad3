/-
  Moves of a cursor told by the bytes they read. `c.Passes bs c'` says that the bytes `bs`
  come next at `c` and that `c'` stands behind them; such moves compose, and a cursor and
  the bytes read determine where the move ends. `Halts p bs` says that a run of bytes with
  property `p` does not go on into `bs`; it is what makes a run the longest one.
-/
import TextHoist.Source.Cursor

namespace TextHoist

/-- The first of these bytes, if there is one, does not have the property. -/
def Halts (p : UInt8 → Bool) (bs : List UInt8) : Prop := ∀ b ∈ bs.head?, p b = false

theorem halts_nil (p : UInt8 → Bool) : Halts p [] := by
  intro b hb
  cases hb

theorem halts_cons {p : UInt8 → Bool} {b : UInt8} {bs : List UInt8} :
    Halts p (b :: bs) ↔ p b = false := by
  simp [Halts]

/-- Whether a run stops is up to the first part, unless that is empty. -/
theorem Halts.append {p : UInt8 → Bool} {bs cs : List UInt8} (hb : Halts p bs)
    (hc : Halts p cs) : Halts p (bs ++ cs) := by
  cases bs with
  | nil => exact hc
  | cons b bs => exact halts_cons.mpr (halts_cons.mp hb)

theorem Halts.of_append {p : UInt8 → Bool} {bs cs : List UInt8} (h : Halts p (bs ++ cs)) :
    Halts p bs := by
  cases bs with
  | nil => exact halts_nil p
  | cons b bs => exact halts_cons.mpr (halts_cons.mp h)

theorem takeWhile_append_of_halts {p : UInt8 → Bool} {bs cs : List UInt8}
    (hb : ∀ b ∈ bs, p b = true) (hc : Halts p cs) : (bs ++ cs).takeWhile p = bs := by
  rw [List.takeWhile_append_of_pos hb]
  cases cs with
  | nil => simp
  | cons c cs => simp [halts_cons.mp hc]

theorem halts_dropWhile (p : UInt8 → Bool) (bs : List UInt8) : Halts p (bs.dropWhile p) := by
  intro b hb
  have := List.head?_dropWhile_not p bs
  rw [Option.mem_def.mp hb] at this
  simpa using this

namespace Cursor

/-- The bytes `bs` come next at `c`, and `c'` is behind them. -/
def Passes (c : Cursor) (bs : List UInt8) (c' : Cursor) : Prop :=
  c.rest = bs ++ c'.rest ∧ c' = c.advance bs.length

theorem passes_nil_iff {c c' : Cursor} : c.Passes [] c' ↔ c' = c := by
  constructor
  · rintro ⟨_, h⟩
    rw [h, List.length_nil, advance_zero]
  · rintro rfl
    exact ⟨rfl, (advance_zero _).symm⟩

/-- Bytes that come next can be passed. -/
theorem passes_advance {c : Cursor} {bs tail : List UInt8} (h : c.rest = bs ++ tail) :
    c.Passes bs (c.advance bs.length) ∧ (c.advance bs.length).rest = tail := by
  have hrest : (c.advance bs.length).rest = tail := by simp [advance, h]
  exact ⟨⟨by rw [hrest, h], rfl⟩, hrest⟩

namespace Passes

variable {c c' c'' : Cursor} {bs cs : List UInt8}

theorem position (h : c.Passes bs c') : c'.position = c.position.past bs := by
  obtain ⟨hrest, rfl⟩ := h
  show c.position.past (c.rest.take bs.length) = _
  rw [hrest, List.take_left]

theorem trans (h : c.Passes bs c') (h' : c'.Passes cs c'') : c.Passes (bs ++ cs) c'' := by
  obtain ⟨hrest, heq⟩ := h
  obtain ⟨hrest', heq'⟩ := h'
  refine ⟨by rw [hrest, hrest', List.append_assoc], ?_⟩
  rw [heq', heq, advance_advance, List.length_append]

/-- A move over joined bytes stops between them on the way. -/
theorem split (h : c.Passes (bs ++ cs) c'') : ∃ c', c.Passes bs c' ∧ c'.Passes cs c'' := by
  have hrest : c.rest = bs ++ (cs ++ c''.rest) := by rw [h.1, List.append_assoc]
  obtain ⟨hp, hr⟩ := passes_advance hrest
  refine ⟨_, hp, hr, ?_⟩
  rw [h.2, advance_advance, List.length_append]

/-- Two moves from one place over the same bytes end at the same place. -/
theorem unique (h : c.Passes bs c') (h' : c.Passes bs c'') : c' = c'' := by
  rw [h.2, h'.2]

end Passes

/-- The run of bytes with a property is passed by advancing over it, and does not go on. -/
theorem passes_run (c : Cursor) (p : UInt8 → Bool) :
    c.Passes (c.run p) (c.advance (c.run p).length) ∧
      Halts p (c.advance (c.run p).length).rest := by
  have hrest : c.rest = c.run p ++ c.rest.dropWhile p := List.takeWhile_append_dropWhile.symm
  obtain ⟨hp, hr⟩ := passes_advance hrest
  exact ⟨hp, by rw [hr]; exact halts_dropWhile p c.rest⟩

theorem mem_run {c : Cursor} {p : UInt8 → Bool} {b : UInt8} (h : b ∈ c.run p) : p b = true := by
  have := List.all_takeWhile (p := p) (l := c.rest)
  exact List.all_eq_true.mp this b h

/-- Bytes with a property that are passed and not gone on with are the whole run. -/
theorem Passes.run_eq {c c' : Cursor} {bs : List UInt8} {p : UInt8 → Bool}
    (h : c.Passes bs c') (hb : ∀ b ∈ bs, p b = true) (hc : Halts p c'.rest) : c.run p = bs := by
  rw [run, h.1]
  exact takeWhile_append_of_halts hb hc

theorem startsWithBytes_iff {c : Cursor} {bs : List UInt8} :
    c.startsWithBytes bs = true ↔ ∃ c', c.Passes bs c' := by
  rw [startsWithBytes, List.isPrefixOf_iff_prefix]
  constructor
  · rintro ⟨tail, h⟩
    exact ⟨_, (passes_advance h.symm).1⟩
  · rintro ⟨c', h⟩
    exact ⟨c'.rest, h.1.symm⟩

end Cursor

end TextHoist
