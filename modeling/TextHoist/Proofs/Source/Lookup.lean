/-
  Lines and columns, looked up in a text and counted by a cursor. The two go about it in
  different ways: the lookup drops whole lines and then counts columns in what is left of
  the line, its ending taken off; the cursor counts along the bytes. They meet in
  `WholeLines`: any part of a text from its start is some whole lines and a piece of a line
  (`exists_wholeLines`), and the lines and the length of the piece are what the cursor says
  (`endsAt_wholeLines`) and what the lookup drops (`dropLines_eq_some_iff`).

  A place is found by its line and column unless it lies inside a line ending
  (`offsetAt?_after`), and on the lines that a text has nothing else is found
  (`endsAt_of_offsetAt?`). On the lines behind them the lookup still gives the end of a text
  that ends with a line feed (`offsetAt?_behind`), although only the first of these lines
  is there.

  The lookup takes numbers of any size, the cursor counts with 32 bits. What a cursor says is
  exact while the counts fit (`not_overruns_iff`), which they do before any text of less than
  `UInt32.size - 1` bytes (`Overruns.size_le`).
-/
import TextHoist.Source.Cursor
import TextHoist.Source.Position
import TextHoist.Proofs.Text.Encoding

namespace TextHoist.Text

/-! ## Whole lines -/

/-- The characters make up `n` lines, the line feed that ends each of them included. -/
def WholeLines (n : Nat) (cs : List Char) : Prop :=
  cs.count '\n' = n ∧ ∀ c ∈ cs.getLast?, c = '\n'

theorem WholeLines.getLast?_eq {n : Nat} {cs : List Char} (h : WholeLines n cs) (hne : cs ≠ []) :
    cs.getLast? = some '\n' := by
  have hlast := List.getLast?_eq_some_getLast hne
  rw [hlast, h.2 _ hlast]

theorem wholeLines_zero_iff {cs : List Char} : WholeLines 0 cs ↔ cs = [] := by
  constructor
  · intro h
    refine Decidable.byContradiction fun hne => ?_
    have hmem := List.mem_of_getLast? (h.getLast?_eq hne)
    exact List.count_eq_zero.mp h.1 hmem
  · intro h
    rw [h]
    exact ⟨rfl, by simp⟩

theorem wholeLines_cons_iff {n : Nat} {c : Char} {cs : List Char} (hn : n ≠ 0) :
    WholeLines n (c :: cs) ↔ WholeLines (if c == '\n' then n - 1 else n) cs := by
  have hcount : (c :: cs).count '\n' = n ↔ cs.count '\n' = if c == '\n' then n - 1 else n := by
    rw [List.count_cons]
    split <;> omega
  rw [WholeLines, WholeLines, hcount]
  refine and_congr_right fun hrest => ?_
  cases cs with
  | nil =>
    -- the only line feed there can be is `c`
    by_cases hc : c = '\n'
    · simp [hc]
    · simp [hc] at hrest
      omega
  | cons d ds => rw [List.getLast?_cons_cons]

theorem utf8ByteSize_cons (c : Char) (cs : List Char) :
    (String.ofList (c :: cs)).utf8ByteSize = c.utf8Size + (String.ofList cs).utf8ByteSize := by
  rw [← List.singleton_append, String.ofList_append, String.utf8ByteSize_append]
  simp

/-- What is left behind `n` lines stands behind characters that make up `n` lines. -/
theorem dropLines_eq_some_iff {n start stop : Nat} {cs rest : List Char} :
    dropLines n start cs = some (stop, rest) ↔
      ∃ pre, cs = pre ++ rest ∧ WholeLines n pre ∧
        stop = start + (String.ofList pre).utf8ByteSize := by
  have hzero : ∀ (start : Nat) (cs : List Char), some (start, cs) = some (stop, rest) ↔
      ∃ pre, cs = pre ++ rest ∧ WholeLines 0 pre ∧
        stop = start + (String.ofList pre).utf8ByteSize := by
    intro start cs
    constructor
    · intro h
      cases h
      exact ⟨[], rfl, wholeLines_zero_iff.mpr rfl, rfl⟩
    · rintro ⟨pre, hsplit, hpre, hstop⟩
      rw [wholeLines_zero_iff.mp hpre] at hsplit hstop
      rw [hsplit, hstop]
      rfl
  fun_induction dropLines n start cs with
  | case1 start => exact hzero start []
  | case2 n start hn =>
    constructor
    · intro h
      cases h
    · rintro ⟨pre, hnil, hpre, _⟩
      rw [(List.append_eq_nil_iff.mp hnil.symm).1] at hpre
      exact absurd hpre.1.symm hn
  | case3 start c cs => exact hzero start (c :: cs)
  | case4 n start c cs hn ih =>
    refine ih.trans ?_
    constructor
    · rintro ⟨pre, hsplit, hpre, hstop⟩
      refine ⟨c :: pre, by rw [hsplit, List.cons_append], (wholeLines_cons_iff hn).mpr hpre, ?_⟩
      rw [hstop, utf8ByteSize_cons, Nat.add_assoc]
    · rintro ⟨pre, hsplit, hpre, hstop⟩
      cases pre with
      | nil => exact absurd hpre.1.symm hn
      | cons d pre =>
        obtain ⟨rfl, htail⟩ := List.cons.inj hsplit
        refine ⟨pre, htail, (wholeLines_cons_iff hn).mp hpre, ?_⟩
        rw [hstop, utf8ByteSize_cons, Nat.add_assoc]

theorem dropLines_eq_none_iff {n start : Nat} {cs : List Char} :
    dropLines n start cs = none ↔ cs.count '\n' < n := by
  fun_induction dropLines n start cs with
  | case1 => simp
  | case2 n start hn =>
    rw [List.count_nil]
    simp only [true_iff]
    omega
  | case3 => simp
  | case4 n start c cs hn ih =>
    rw [ih, List.count_cons]
    split <;> omega

/-- Every text is whole lines and a piece of a line. -/
theorem exists_wholeLines (cs : List Char) :
    ∃ pre x, cs = pre ++ x ∧ WholeLines (cs.count '\n') pre ∧ '\n' ∉ x := by
  cases h : dropLines (cs.count '\n') 0 cs with
  | none => exact absurd (dropLines_eq_none_iff.mp h) (Nat.lt_irrefl _)
  | some found =>
    obtain ⟨pre, hsplit, hpre, _⟩ := dropLines_eq_some_iff.mp h
    refine ⟨pre, found.2, hsplit, hpre, ?_⟩
    have hcount := congrArg (List.count '\n') hsplit
    rw [List.count_append, hpre.1] at hcount
    rw [← List.count_eq_zero]
    omega

/-- A text ends at an offset, a line and a column. -/
structure EndsAt (s : String) (o line column : Nat) : Prop where
  offset : s.utf8ByteSize = o
  line : Position.lineAfter s = line
  column : Position.columnAfter s = column

/-- Where whole lines and a piece of a line end. -/
theorem endsAt_wholeLines {n : Nat} {pre x : List Char} (hpre : WholeLines n pre) (hx : '\n' ∉ x) :
    EndsAt (String.ofList (pre ++ x)) (String.ofList (pre ++ x)).utf8ByteSize (n + 1)
      (x.length + 1) := by
  have hpiece : ∀ c ∈ x.reverse, (c != '\n') = true := by
    intro c hc
    rw [bne_iff_ne]
    intro hlf
    exact hx (hlf ▸ List.mem_reverse.mp hc)
  have hlast : pre.reverse.takeWhile (· != '\n') = [] := by
    by_cases hnil : pre = []
    · rw [hnil]
      rfl
    · obtain ⟨init, hinit⟩ := List.getLast?_eq_some_iff.mp (hpre.getLast?_eq hnil)
      rw [hinit, List.reverse_append]
      rfl
  have hline : (pre ++ x).count '\n' = n := by
    rw [List.count_append, hpre.1, List.count_eq_zero.mpr hx, Nat.add_zero]
  refine ⟨rfl, ?_, ?_⟩
  · rw [Position.lineAfter, String.toList_ofList, hline, Nat.add_comm]
  · rw [Position.columnAfter, String.toList_ofList, List.reverse_append,
      List.takeWhile_append_of_pos hpiece, hlast, List.append_nil, List.length_reverse,
      Nat.add_comm]

/-! ## Columns of a line -/

/-- A place inside a line ending: a carriage return stands right before it, and a line feed,
or nothing more, behind it. -/
def SplitsEnding (before after : List Char) : Prop :=
  before.getLast? = some '\r' ∧ (after = [] ∨ after.head? = some '\n')

/-- Whole lines in front do not matter for that. -/
theorem splitsEnding_append_iff {n : Nat} {pre x y : List Char} (hpre : WholeLines n pre) :
    SplitsEnding (pre ++ x) y ↔ SplitsEnding x y := by
  unfold SplitsEnding
  rcases List.eq_nil_or_concat x with rfl | ⟨x, c, rfl⟩
  · have hlast : pre.getLast? ≠ some '\r' := fun h => absurd (hpre.2 _ h) (by decide)
    simp [hlast]
  · simp

theorem takeWhile_line {x y : List Char} (hx : '\n' ∉ x) :
    (x ++ y).takeWhile (· != '\n') = x ++ y.takeWhile (· != '\n') := by
  refine List.takeWhile_append_of_pos ?_
  intro c hc
  rw [bne_iff_ne]
  intro hlf
  exact hx (hlf ▸ hc)

/-- A carriage return that ends a line has no column. -/
theorem lineContent_of_splitsEnding {x y : List Char} (hx : '\n' ∉ x) (h : SplitsEnding x y) :
    lineContent (x ++ y) = x.dropLast := by
  have hline : (x ++ y).takeWhile (· != '\n') = x := by
    rw [takeWhile_line hx]
    rcases h.2 with hy | hy
    · rw [hy, List.takeWhile_nil, List.append_nil]
    · obtain ⟨tail, rfl⟩ := List.head?_eq_some_iff.mp hy
      simp
  simp only [lineContent, hline, if_pos h.1]

/-- All other characters of a line have one. -/
theorem length_le_lineContent {x y : List Char} (hx : '\n' ∉ x) (h : ¬ SplitsEnding x y) :
    x.length ≤ (lineContent (x ++ y)).length := by
  simp only [lineContent, takeWhile_line hx]
  split
  case isFalse => simp
  case isTrue hlast =>
    rw [List.length_dropLast, List.length_append]
    cases hmore : y.takeWhile (· != '\n') with
    | cons c cs => simp
    | nil =>
      rw [hmore, List.append_nil] at hlast
      refine absurd ⟨hlast, ?_⟩ h
      cases y with
      | nil => exact .inl rfl
      | cons c cs =>
        by_cases hc : c = '\n'
        · exact .inr (congrArg some hc)
        · simp [hc] at hmore

theorem exists_lineContent (cs : List Char) :
    ∃ rest, cs = lineContent cs ++ rest ∧ '\n' ∉ lineContent cs := by
  have hbegin : lineContent cs <+: cs.takeWhile (· != '\n') := by
    simp only [lineContent]
    split
    · exact List.dropLast_prefix _
    · exact List.prefix_refl _
  obtain ⟨rest, hrest⟩ := hbegin.trans (List.takeWhile_prefix _)
  refine ⟨rest, hrest.symm, fun hmem => ?_⟩
  have hline := List.all_eq_true.mp List.all_takeWhile _ (hbegin.subset hmem)
  simp at hline

/-- The columns of the first line are the places in it that do not lie inside its ending. -/
theorem columnOffset?_lineContent {cs : List Char} {k o : Nat} :
    columnOffset? (lineContent cs) k = some o ↔
      ∃ x y, cs = x ++ y ∧ x.length = k ∧ '\n' ∉ x ∧ ¬ SplitsEnding x y ∧
        o = (String.ofList x).utf8ByteSize := by
  obtain ⟨rest, hcs, hline⟩ := exists_lineContent cs
  unfold columnOffset?
  constructor
  · intro h
    split at h
    case isFalse => cases h
    case isTrue hk =>
      cases h
      have hx : '\n' ∉ (lineContent cs).take k := fun hmem => hline (List.mem_of_mem_take hmem)
      have hsplit : cs = (lineContent cs).take k ++ ((lineContent cs).drop k ++ rest) := by
        rw [← List.append_assoc, List.take_append_drop, ← hcs]
      refine ⟨_, _, hsplit, List.length_take_of_le hk, hx, fun hends => ?_, rfl⟩
      -- the line would have to be shorter than this piece of it
      have hshort := congrArg List.length (lineContent_of_splitsEnding hx hends)
      rw [← hsplit, List.length_dropLast, List.length_take_of_le hk] at hshort
      have hzero : k = 0 := by omega
      rw [hzero] at hends
      cases hends.1
  · rintro ⟨x, y, hsplit, hlength, hx, hends, ho⟩
    have hk : x.length ≤ (lineContent cs).length := hsplit ▸ length_le_lineContent hx hends
    have htake : (lineContent cs).take x.length = x := by
      have happend : (lineContent cs ++ rest).take x.length = (lineContent cs).take x.length :=
        List.take_append_of_le_length hk
      rw [← happend, ← hcs, hsplit, List.take_left]
    rw [← hlength, if_pos hk, htake, ho]

/-! ## Looking up -/

section Cases

variable {s : String} {n k start line column o : Nat} {rest : List Char}

theorem offsetAt?_pos (h : offsetAt? s line column = some o) :
    ∃ n k, line = n + 1 ∧ column = k + 1 := by
  cases line with
  | zero => simp [offsetAt?] at h
  | succ n =>
    cases column with
    | zero => simp [offsetAt?] at h
    | succ k => exact ⟨n, k, rfl, rfl⟩

/-- On a line with characters the column decides. -/
theorem offsetAt?_onLine (h : dropLines n 0 s.toList = some (start, rest)) (hrest : rest ≠ []) :
    offsetAt? s (n + 1) (k + 1) = (columnOffset? (lineContent rest) k).map (start + ·) := by
  cases rest with
  | nil => exact absurd rfl hrest
  | cons c cs => simp [offsetAt?, h]

/-- On all others there is at most the end of the text to be found. -/
theorem offsetAt?_offLine (h : ∀ found ∈ dropLines n 0 s.toList, found.2 = []) :
    offsetAt? s (n + 1) (k + 1) =
      if k = 0 ∧ s.toList.getLast? = some '\n' then some s.utf8ByteSize else none := by
  cases hdrop : dropLines n 0 s.toList with
  | none => simp [offsetAt?, hdrop]
  | some found =>
    obtain ⟨start, rest⟩ := found
    obtain rfl : rest = [] := h _ hdrop
    simp [offsetAt?, hdrop]

/-- There is nothing to be found in the empty text. -/
theorem ne_empty_of_offsetAt? (h : offsetAt? s line column = some o) : s ≠ "" := by
  intro hs
  obtain ⟨n, k, rfl, rfl⟩ := offsetAt?_pos h
  have hoff : ∀ found ∈ dropLines n 0 s.toList, found.2 = [] := by
    intro found hfound
    obtain ⟨pre, hnil, _⟩ := dropLines_eq_some_iff.mp hfound
    rw [hs] at hnil
    exact (List.append_eq_nil_iff.mp hnil.symm).2
  rw [offsetAt?_offLine hoff, hs] at h
  simp at h

/-- On the line behind the last line feed, which has no characters, the end of the text is
found. -/
theorem offsetAt?_lastLine (h : WholeLines n s.toList) :
    offsetAt? s (n + 1) (k + 1) = some o ↔ s ≠ "" ∧ EndsAt s o (n + 1) (k + 1) := by
  have hdrop : dropLines n 0 s.toList = some (s.utf8ByteSize, []) :=
    dropLines_eq_some_iff.mpr ⟨s.toList, by simp, h, by simp⟩
  have hoff : ∀ found ∈ dropLines n 0 s.toList, found.2 = [] := by
    intro found hfound
    cases hdrop.symm.trans hfound
    rfl
  have hplace : EndsAt s s.utf8ByteSize (n + 1) 1 := by
    have := endsAt_wholeLines h (List.not_mem_nil (a := '\n'))
    rwa [List.append_nil, String.ofList_toList] at this
  have hlast : s.toList.getLast? = some '\n' ↔ s ≠ "" := by
    constructor
    · rintro hlf rfl
      cases hlf
    · intro hne
      exact h.getLast?_eq fun hnil => hne (String.toList_eq_nil_iff.mp hnil)
  rw [offsetAt?_offLine hoff, ← hlast]
  constructor
  · intro hfound
    split at hfound
    case isFalse => cases hfound
    case isTrue hend =>
      cases hfound
      rw [hend.1]
      exact ⟨hend.2, hplace⟩
  · rintro ⟨hend, hat⟩
    have hk : k = 0 := by
      have := hplace.column.symm.trans hat.column
      omega
    rw [if_pos ⟨hk, hend⟩, hat.offset]

/-- Behind the last line, every line reads as if it were the first one there: the end is found
in its first column if the text ends with a line feed. -/
theorem offsetAt?_behind (hline : Position.lineAfter s < line) :
    offsetAt? s line column = some o ↔
      column = 1 ∧ s.toList.getLast? = some '\n' ∧ o = s.utf8ByteSize := by
  have hlines : 1 + s.toList.count '\n' < line := hline
  obtain ⟨n, rfl⟩ : ∃ n, line = n + 1 := ⟨line - 1, by omega⟩
  have hnone : dropLines n 0 s.toList = none := dropLines_eq_none_iff.mpr (by omega)
  cases column with
  | zero => simp [offsetAt?]
  | succ k =>
    rw [offsetAt?_offLine (by simp [hnone])]
    simp [and_assoc, eq_comm]

/-- What is found on a line of the text is a place there, and none inside a line ending. -/
theorem endsAt_of_offsetAt? (h : offsetAt? s line column = some o)
    (hline : line ≤ Position.lineAfter s) :
    ∃ before after, s = before ++ after ∧ EndsAt before o line column ∧
      ¬ SplitsEnding before.toList after.toList := by
  obtain ⟨n, k, rfl, rfl⟩ := offsetAt?_pos h
  have hlines : n + 1 ≤ 1 + s.toList.count '\n' := hline
  cases hdrop : dropLines n 0 s.toList with
  | none =>
    have := dropLines_eq_none_iff.mp hdrop
    omega
  | some found =>
    obtain ⟨start, rest⟩ := found
    obtain ⟨pre, hs, hpre, hstart⟩ := dropLines_eq_some_iff.mp hdrop
    by_cases hrest : rest = []
    · rw [hrest, List.append_nil] at hs
      obtain ⟨_, hplace⟩ := (offsetAt?_lastLine (hs ▸ hpre)).mp h
      refine ⟨s, "", by simp, hplace, fun hends => ?_⟩
      cases hpre.2 '\r' (hs ▸ hends.1)
    · rw [offsetAt?_onLine hdrop hrest] at h
      obtain ⟨_, hcolumn, rfl⟩ := Option.map_eq_some_iff.mp h
      obtain ⟨x, y, rfl, rfl, hx, hends, rfl⟩ := columnOffset?_lineContent.mp hcolumn
      refine ⟨String.ofList (pre ++ x), String.ofList y, ?_, ?_, ?_⟩
      · rw [← String.toList_inj, hs]
        simp
      · have hat := endsAt_wholeLines hpre hx
        refine ⟨?_, hat.line, hat.column⟩
        rw [hstart, String.ofList_append, String.utf8ByteSize_append, Nat.zero_add]
      · rwa [String.toList_ofList, String.toList_ofList, splitsEnding_append_iff hpre]

end Cases

/-- Every place of a text is found by its line and column, unless it lies inside a line
ending. -/
theorem offsetAt?_after {before after : String} (hne : before ++ after ≠ "")
    (h : ¬ SplitsEnding before.toList after.toList) :
    offsetAt? (before ++ after) (Position.lineAfter before) (Position.columnAfter before) =
      some before.utf8ByteSize := by
  obtain ⟨pre, x, hbefore, hpre, hx⟩ := exists_wholeLines before.toList
  obtain rfl : before = String.ofList (pre ++ x) := by rw [← hbefore, String.ofList_toList]
  rw [String.toList_ofList] at h hpre
  rw [splitsEnding_append_iff hpre] at h
  have hdrop : dropLines ((pre ++ x).count '\n') 0 (String.ofList (pre ++ x) ++ after).toList =
      some ((String.ofList pre).utf8ByteSize, x ++ after.toList) :=
    dropLines_eq_some_iff.mpr ⟨pre, by simp, hpre, by simp⟩
  have hat := endsAt_wholeLines hpre hx
  rw [hat.line, hat.column]
  by_cases hrest : x ++ after.toList = []
  · obtain ⟨rfl, hafter⟩ := List.append_eq_nil_iff.mp hrest
    obtain rfl : after = "" := String.toList_eq_nil_iff.mp hafter
    rw [String.append_empty] at hne ⊢
    refine (offsetAt?_lastLine ?_).mpr ⟨hne, hat⟩
    rwa [String.toList_ofList, List.append_nil] at *
  · have hcolumn := columnOffset?_lineContent.mpr ⟨x, after.toList, rfl, rfl, hx, h, rfl⟩
    rw [offsetAt?_onLine hdrop hrest, hcolumn]
    simp

/-! ## Lookup and cursor -/

/-- A cursor moved over the first part of a text stands behind it. -/
theorem position_advance (before after : String) :
    ((Cursor.ofBytes (bytes (before ++ after))).advance before.utf8ByteSize).position =
      Position.after before := by
  show Position.start.past ((bytes (before ++ after)).take before.utf8ByteSize) = _
  rw [bytes_append, ← length_bytes, List.take_left, Position.past_start]

/-- Line and column do not both fit into the counts of a cursor. -/
def Overruns (s : String) : Prop :=
  UInt32.size ≤ Position.lineAfter s ∨ UInt32.size ≤ Position.columnAfter s

/-- A cursor says line and column as they are exactly if both fit. -/
theorem not_overruns_iff {s : String} : ¬ Overruns s ↔
    (Position.after s).line.toNat = Position.lineAfter s ∧
      (Position.after s).column.toNat = Position.columnAfter s := by
  have hfits : ∀ n : Nat, (UInt32.ofNat n).toNat = n ↔ n < UInt32.size := by
    intro n
    rw [UInt32.toNat_ofNat']
    constructor
    · intro h
      rw [← h]
      exact Nat.mod_lt _ (by decide)
    · exact Nat.mod_eq_of_lt
  rw [Position.after, hfits, hfits, Overruns, not_or, Nat.not_le, Nat.not_le]

/-- The numbers of lines and columns do not outgrow the bytes before them. -/
theorem lineAfter_le (s : String) : Position.lineAfter s ≤ s.utf8ByteSize + 1 ∧
    Position.columnAfter s ≤ s.utf8ByteSize + 1 := by
  have hsize : ∀ cs : List Char, cs.length ≤ (String.ofList cs).utf8ByteSize := by
    intro cs
    induction cs with
    | nil => simp
    | cons c cs ih =>
      have := c.utf8Size_pos
      rw [utf8ByteSize_cons, List.length_cons]
      omega
  have hlength := hsize s.toList
  have hline := List.count_le_length (a := '\n') (l := s.toList)
  have hcolumn := (List.takeWhile_prefix (· != '\n') (l := s.toList.reverse)).length_le
  rw [String.ofList_toList] at hlength
  rw [List.length_reverse] at hcolumn
  simp only [Position.lineAfter, Position.columnAfter]
  omega

theorem Overruns.size_le {s : String} (h : Overruns s) : UInt32.size ≤ s.utf8ByteSize + 1 := by
  obtain ⟨hline, hcolumn⟩ := lineAfter_le s
  obtain h | h := h
  · exact Nat.le_trans h hline
  · exact Nat.le_trans h hcolumn

/-- What is found for a line and a column is an offset between characters. A cursor moved
there is on that line and column exactly if the text has the line and both numbers have 32
bits; for the lines behind the last one, it is the end of a text that ends with a line
feed. -/
theorem lookup_sound_iff {s : String} {line column o : Nat}
    (h : offsetAt? s line column = some o) :
    let p := ((Cursor.ofBytes (bytes s)).advance o).position
    isBoundary s o = true ∧ o ≤ s.utf8ByteSize ∧ p.offset = o ∧
      (p.line.toNat = line ∧ p.column.toNat = column ↔
        line ≤ 1 + s.toList.count '\n' ∧ line < UInt32.size ∧ column < UInt32.size) ∧
      (1 + s.toList.count '\n' < line →
        column = 1 ∧ s.toList.getLast? = some '\n' ∧ o = s.utf8ByteSize) := by
  by_cases hline : line ≤ Position.lineAfter s
  · obtain ⟨before, after, rfl, ⟨rfl, rfl, rfl⟩, _⟩ := endsAt_of_offsetAt? h hline
    have hb : isBoundary (before ++ after) before.utf8ByteSize = true :=
      isBoundary_iff.mpr ⟨_, _, rfl, rfl⟩
    simp only [position_advance]
    refine ⟨hb, le_of_isBoundary hb, rfl, ?_, fun hlt => absurd hline (Nat.not_le.mpr hlt)⟩
    rw [← not_overruns_iff, Overruns, not_or, Nat.not_le, Nat.not_le]
    exact ⟨fun hfits => ⟨hline, hfits⟩, fun hfits => hfits.2⟩
  · have hbehind := (offsetAt?_behind (Nat.not_le.mp hline)).mp h
    obtain rfl : o = s.utf8ByteSize := hbehind.2.2
    have hb : isBoundary s s.utf8ByteSize = true := isBoundary_iff.mpr ⟨s, "", by simp, rfl⟩
    have hend := position_advance s ""
    rw [String.append_empty] at hend
    intro p
    have hp : p = Position.after s := hend
    rw [hp]
    refine ⟨hb, Nat.le_refl _, rfl, iff_of_false (fun hplace => hline ?_) (fun hlt => hline hlt.1),
      fun _ => hbehind⟩
    -- the count of lines is less than what was asked for, and the cursor's no greater
    rw [← hplace.1, Position.after, UInt32.toNat_ofNat']
    exact Nat.mod_le _ _

/-- On the second line, behind a character of two bytes and a line ending of two. -/
theorem lookup_sound_second_line :
    offsetAt? "<é>\r\n é\n" 2 3 = some 9 ∧ isBoundary "<é>\r\n é\n" 9 = true ∧
      ((Cursor.ofBytes (bytes "<é>\r\n é\n")).advance 9).position = ⟨9, 2, 3⟩ := by
  have h : offsetAt? "<é>\r\n é\n" 2 3 = some 9 := by decide
  obtain ⟨hb, _, hoffset, hplace, _⟩ := lookup_sound_iff h
  obtain ⟨hline, hcolumn⟩ := hplace.mpr (by decide)
  refine ⟨h, hb, ?_⟩
  generalize ((Cursor.ofBytes (bytes "<é>\r\n é\n")).advance 9).position = p at *
  obtain ⟨offset, line, column⟩ := p
  rw [Position.mk.injEq]
  exact ⟨hoffset, UInt32.toNat_inj.mp hline, UInt32.toNat_inj.mp hcolumn⟩

/-- A text of one line, and the empty line that its line feed opens, has no third line, but
the end is found there as well. -/
theorem lookup_third_line :
    offsetAt? "a\n" 3 1 = some 2 ∧ offsetAt? "a\n" 2 1 = some 2 ∧
      ((Cursor.ofBytes (bytes "a\n")).advance 2).position = ⟨2, 2, 1⟩ ∧
      ¬ ∀ (s : String) (line column o : Nat), offsetAt? s line column = some o →
        let p := ((Cursor.ofBytes (bytes s)).advance o).position
        isBoundary s o = true ∧ o ≤ s.utf8ByteSize ∧
          p.offset = o ∧ p.line.toNat = line ∧ p.column.toNat = column := by
  have hthird : offsetAt? "a\n" 3 1 = some 2 := by decide
  have hplace : ((Cursor.ofBytes (bytes "a\n")).advance 2).position = ⟨2, 2, 1⟩ := by decide
  refine ⟨hthird, by decide, hplace, fun hall => ?_⟩
  obtain ⟨_, _, _, hwrong, _⟩ := hall _ _ _ _ hthird
  rw [hplace] at hwrong
  exact absurd hwrong (by decide)

/-- As many line feeds as there are numbers of 32 bits besides zero: the line behind them does
not fit. -/
theorem endsAt_lineFeeds {n : Nat} (hn : n + 1 = UInt32.size) :
    EndsAt (String.ofList (List.replicate n '\n')) n UInt32.size 1 := by
  have hwhole : WholeLines n (List.replicate n '\n') := by
    refine ⟨List.count_replicate_self, fun c hc => ?_⟩
    exact List.eq_of_mem_replicate (List.mem_of_getLast? hc)
  have hat := endsAt_wholeLines hwhole (List.not_mem_nil (a := '\n'))
  rw [List.append_nil, List.length_nil, hn] at hat
  refine ⟨?_, hat.line, hat.column⟩
  have hone : '\n'.utf8Size = 1 := by decide
  rw [← length_bytes, bytes_ofList, List.flatMap_replicate]
  simp [hone]

end TextHoist.Text
