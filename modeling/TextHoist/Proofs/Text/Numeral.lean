/-
  Written numbers. A digit is a character of one of two tables, and its value is its place
  there; a numeral is one digit or more, and each further digit multiplies what stands before
  it by the base. Reading digits from the front keeps a numeral behind it all the way
  (`Numeral.digits?`), so what is read as a number is a numeral, with a plus sign allowed in
  front of it (`number?_eq_some_iff`).
-/
import TextHoist.Text.Characters

namespace TextHoist.Text

/-- An ASCII digit and its value, letters of either case standing for ten and above. -/
def Digit (base : Nat) (c : Char) (d : Nat) : Prop :=
  d < base ∧ ("0123456789abcdef".toList[d]? = some c ∨ "0123456789ABCDEF".toList[d]? = some c)

/-- One or more digits, and the number that they write. -/
inductive Numeral (base : Nat) : List Char → Nat → Prop
  | digit {c : Char} {d : Nat} : Digit base c d → Numeral base [c] d
  | append {cs : List Char} {c : Char} {n d : Nat} :
      Numeral base cs n → Digit base c d → Numeral base (cs ++ [c]) (base * n + d)

/-- A character among some that follow each other stands in the table as far from the first. -/
theorem getElem?_of_run {first c : Char} {table : List Char} {n offset : Nat}
    (htable : ∀ k < n, table[k + offset]? = some (Char.ofNat (first.toNat + k)))
    (hfirst : first ≤ c) (hn : c.toNat - first.toNat < n) :
    table[c.toNat - first.toNat + offset]? = some c := by
  have hle : first.toNat ≤ c.toNat := hfirst
  rw [htable _ hn, Nat.add_sub_cancel' hle, Char.ofNat_toNat]

theorem digit?_eq_some_iff {base : Nat} (hbase : base ≤ 16) {c : Char} {d : Nat} :
    digit? base c = some d ↔ Digit base c d := by
  unfold digit? Digit
  simp only [Option.filter_eq_some_iff, decide_eq_true_eq]
  rw [and_comm]
  refine and_congr_right fun hd => ?_
  constructor
  · have hdigits : ∀ k < 10, "0123456789abcdef".toList[k + 0]? =
        some (Char.ofNat ('0'.toNat + k)) := by decide
    have hlower : ∀ k < 6, "0123456789abcdef".toList[k + 10]? =
        some (Char.ofNat ('a'.toNat + k)) := by decide
    have hupper : ∀ k < 6, "0123456789ABCDEF".toList[k + 10]? =
        some (Char.ofNat ('A'.toNat + k)) := by decide
    intro h
    split at h
    case isTrue hc =>
      cases h
      have hnine : c.toNat ≤ 57 := hc.2
      exact .inl (getElem?_of_run hdigits hc.1 (show c.toNat - 48 < 10 by omega))
    case isFalse =>
      split at h
      case isTrue hc =>
        cases h
        exact .inl (getElem?_of_run hlower hc.1 (by omega))
      case isFalse =>
        split at h
        case isTrue hc =>
          cases h
          exact .inr (getElem?_of_run hupper hc.1 (by omega))
        case isFalse => cases h
  · have hvalue : ∀ d < 16, ∀ table ∈ ["0123456789abcdef", "0123456789ABCDEF"],
        table.toList[d]?.bind (digit? 16) = some d := by decide
    intro h
    have h16 : digit? 16 c = some d := by
      rcases h with h | h
      · have := hvalue d (by omega) "0123456789abcdef" (by decide)
        rwa [h] at this
      · have := hvalue d (by omega) "0123456789ABCDEF" (by decide)
        rwa [h] at this
    exact (Option.filter_eq_some_iff.mp h16).1

theorem Digit.mem {base d : Nat} {c : Char} (h : Digit base c d) :
    c ∈ "0123456789abcdefABCDEF".toList := by
  have htables : ∀ table ∈ ["0123456789abcdef", "0123456789ABCDEF"],
      table.toList.all ("0123456789abcdefABCDEF".toList.contains ·) = true := by
    decide
  have htable : ∀ table ∈ ["0123456789abcdef", "0123456789ABCDEF"], table.toList[d]? = some c →
      c ∈ "0123456789abcdefABCDEF".toList := by
    intro table hmem hc
    have hall := List.all_eq_true.mp (htables table hmem) c (List.mem_of_getElem? hc)
    exact List.contains_iff_mem.mp hall
  rcases h.2 with hc | hc
  · exact htable _ (by decide) hc
  · exact htable _ (by decide) hc

theorem Numeral.mem {base n : Nat} {cs : List Char} (h : Numeral base cs n) :
    ∀ c ∈ cs, c ∈ "0123456789abcdefABCDEF".toList := by
  induction h with
  | digit hd =>
    intro c hc
    rw [List.mem_singleton.mp hc]
    exact hd.mem
  | append _ hd ih =>
    intro c hc
    rcases List.mem_append.mp hc with hc | hc
    · exact ih c hc
    · rw [List.mem_singleton.mp hc]
      exact hd.mem

/-- A numeral begins with a digit: with no sign, and not as the mark of a base does. -/
theorem Numeral.eq_cons {base n : Nat} {cs : List Char} (h : Numeral base cs n) :
    ∃ d ds, cs = d :: ds ∧ d ≠ '+' ∧ d ≠ 'x' := by
  have hne : cs ≠ [] := by cases h <;> simp
  obtain ⟨d, ds, rfl⟩ := List.exists_cons_of_ne_nil hne
  have hd : ∀ x : Char, x ∉ "0123456789abcdefABCDEF".toList → d ≠ x := by
    intro x hx heq
    exact hx (heq ▸ h.mem d List.mem_cons_self)
  exact ⟨d, ds, rfl, hd '+' (by decide), hd 'x' (by decide)⟩

/-- Reading on behind a numeral makes it longer, digit by digit. -/
theorem Numeral.digits? {base n m : Nat} (hbase : base ≤ 16) {cs ds : List Char}
    (h : Numeral base cs n) (hds : Text.digits? base n ds = some m) :
    Numeral base (cs ++ ds) m := by
  induction ds generalizing cs n with
  | nil =>
    cases hds
    rwa [List.append_nil]
  | cons c ds ih =>
    obtain ⟨d, hd, hrest⟩ := Option.bind_eq_some_iff.mp hds
    have hlonger := ih (h.append ((digit?_eq_some_iff hbase).mp hd)) hrest
    rwa [List.append_assoc, List.singleton_append] at hlonger

theorem digits?_append (base n : Nat) (cs ds : List Char) :
    digits? base n (cs ++ ds) = (digits? base n cs).bind (digits? base · ds) := by
  induction cs generalizing n with
  | nil => rfl
  | cons c cs ih =>
    show ((digit? base c).bind _) = ((digit? base c).bind _).bind _
    rw [Option.bind_assoc]
    exact congrArg _ (funext fun d => ih _)

theorem digits?_eq_some_iff {base n : Nat} (hbase : base ≤ 16) {c : Char} {cs : List Char} :
    digits? base 0 (c :: cs) = some n ↔ Numeral base (c :: cs) n := by
  constructor
  · intro h
    obtain ⟨d, hd, hrest⟩ := Option.bind_eq_some_iff.mp h
    rw [Nat.mul_zero, Nat.zero_add] at hrest
    exact (Numeral.digit ((digit?_eq_some_iff hbase).mp hd)).digits? hbase hrest
  · intro h
    generalize c :: cs = ds at h
    induction h with
    | digit hd => simp [digits?, (digit?_eq_some_iff hbase).mpr hd]
    | append _ hd ih => simp [digits?_append, ih, digits?, (digit?_eq_some_iff hbase).mpr hd]

theorem number?_plus {base : Nat} {ds : List Char} (h : ds ≠ []) :
    number? base ('+' :: ds) = digits? base 0 ds := by
  cases ds with
  | nil => exact absurd rfl h
  | cons d ds => rfl

theorem number?_cons {base : Nat} {c : Char} {cs : List Char} (h : c ≠ '+') :
    number? base (c :: cs) = digits? base 0 (c :: cs) := by
  unfold number?
  split
  case h_1 heq => cases heq
  case h_2 heq => exact absurd (List.cons.inj heq).1 h
  case h_3 heq => exact absurd (List.cons.inj heq).1 h
  case h_4 => rfl

/-- A number is a numeral, a plus sign allowed in front. -/
theorem number?_eq_some_iff {base n : Nat} (hbase : base ≤ 16) {cs : List Char} :
    number? base cs = some n ↔
      ∃ sign ∈ ["", "+"], ∃ ds, cs = sign.toList ++ ds ∧ Numeral base ds n := by
  constructor
  · intro h
    cases cs with
    | nil => cases h
    | cons c cs =>
      by_cases hc : c = '+'
      · subst hc
        cases cs with
        | nil => cases h
        | cons d ds =>
          rw [number?_plus (List.cons_ne_nil _ _), digits?_eq_some_iff hbase] at h
          exact ⟨"+", by simp, d :: ds, rfl, h⟩
      · rw [number?_cons hc, digits?_eq_some_iff hbase] at h
        exact ⟨"", by simp, c :: cs, rfl, h⟩
  · rintro ⟨sign, hsign, ds, rfl, h⟩
    obtain ⟨d, ds, rfl, hd, _⟩ := h.eq_cons
    have hdigits := (digits?_eq_some_iff hbase).mpr h
    simp only [List.mem_cons, List.not_mem_nil, or_false] at hsign
    rcases hsign with rfl | rfl
    · exact (number?_cons hd).trans hdigits
    · exact (number?_plus (List.cons_ne_nil _ _)).trans hdigits

end TextHoist.Text
