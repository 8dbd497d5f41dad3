/-
  References and the text that they stand for. `Names` says what may stand between `&` and
  `;`, and `Resolves` which text is meant by a text with references; both are grammars that
  take nothing from the decoder, and both leave open which signs a number may have.

  The decoder accepts exactly the texts of the grammar in which a number may have a plus sign
  (`decode_eq_ok_iff`). Inside a reference it has put back nothing yet; what it has read of
  the reference, joined to what is still to come, is what the grammar sees
  (`resolves_of_decodeFrom`). In the grammar without signs there are fewer texts, but only
  those in which a sign can be seen are missing (`resolves_plain_iff`).
-/
import TextHoist.Proofs.Markup.Escape
import TextHoist.Proofs.Text.Numeral

namespace TextHoist.Reference

/-! ## The grammar -/

/-- What stands between the `&` and the `;` of a reference, and the character it names. The
number of a character may have one of these signs. -/
inductive Names (signs : List String) : List Char → Char → Prop
  | amp : Names signs "amp".toList '&'
  | lt : Names signs "lt".toList '<'
  | gt : Names signs "gt".toList '>'
  | quot : Names signs "quot".toList '"'
  | apos : Names signs "apos".toList '\''
  | decimal {sign : String} {digits : List Char} {c : Char} :
      sign ∈ signs → Text.Numeral 10 digits c.toNat →
      Names signs ("#".toList ++ (sign.toList ++ digits)) c
  | hexadecimal {sign : String} {digits : List Char} {c : Char} :
      sign ∈ signs → Text.Numeral 16 digits c.toNat →
      Names signs ("#x".toList ++ (sign.toList ++ digits)) c

/-- A text with references, and the text that it stands for. Every `&` begins a reference. -/
inductive Resolves (signs : List String) : List Char → List Char → Prop
  | nil : Resolves signs [] []
  | char {c : Char} {cs ts : List Char} :
      c ≠ '&' → Resolves signs cs ts → Resolves signs (c :: cs) (c :: ts)
  | reference {name cs ts : List Char} {c : Char} :
      Names signs name c → Resolves signs cs ts →
      Resolves signs ('&' :: (name ++ ';' :: cs)) (c :: ts)

/-! ## Names of characters -/

theorem scalar?_eq_some_iff {n : Nat} {c : Char} : scalar? n = some c ↔ n = c.toNat := by
  unfold scalar?
  constructor
  · intro h
    split at h
    case isFalse => cases h
    case isTrue hn =>
      cases h
      rw [Char.ofNat, dif_pos hn]
      rfl
  · intro h
    rw [h, if_pos (show c.toNat.isValidChar from c.valid), Char.ofNat_toNat]

/-- The character whose number is written. -/
theorem bind_scalar?_eq_some_iff {base : Nat} (hbase : base ≤ 16) {cs : List Char} {c : Char} :
    (Text.number? base cs).bind scalar? = some c ↔
      ∃ sign ∈ ["", "+"], ∃ ds, cs = sign.toList ++ ds ∧ Text.Numeral base ds c.toNat := by
  rw [← Text.number?_eq_some_iff hbase, Option.bind_eq_some_iff]
  constructor
  · rintro ⟨n, hn, hc⟩
    rwa [scalar?_eq_some_iff.mp hc] at hn
  · intro hn
    exact ⟨c.toNat, hn, scalar?_eq_some_iff.mpr rfl⟩

theorem character?_number {cs : List Char} (h : cs.head? ≠ some 'x') :
    character? ('#' :: cs) = (Text.number? 10 cs).bind scalar? := by
  unfold character?
  split
  case h_1 heq | h_2 heq | h_3 heq | h_4 heq | h_5 heq => cases heq
  case h_6 heq =>
    rw [(List.cons.inj heq).2] at h
    exact absurd rfl h
  case h_7 heq =>
    rw [(List.cons.inj heq).2]
    rfl
  case h_8 hnone => exact (hnone cs rfl).elim

/-- Behind the mark of its base, a number has digits and perhaps a sign. -/
theorem not_mem_number {base n : Nat} {mark sign : String} {digits : List Char} {x : Char}
    (hsign : sign ∈ ["", "+"]) (hds : Text.Numeral base digits n) (hmark : x ∉ mark.toList)
    (hplus : x ≠ '+') (hx : x ∉ "0123456789abcdefABCDEF".toList) :
    x ∉ mark.toList ++ (sign.toList ++ digits) := by
  rw [List.mem_append, List.mem_append, not_or, not_or]
  refine ⟨hmark, fun hmem => ?_, fun hmem => hx (hds.mem x hmem)⟩
  simp only [List.mem_cons, List.not_mem_nil, or_false] at hsign
  rcases hsign with rfl | rfl
  · cases hmem
  · exact hplus (List.mem_singleton.mp hmem)

theorem character?_eq_some_iff {name : List Char} {c : Char} :
    character? name = some c ↔ Names ["", "+"] name c := by
  constructor
  · intro h
    unfold character? at h
    split at h
    case h_1 => cases h; exact .amp
    case h_2 => cases h; exact .lt
    case h_3 => cases h; exact .gt
    case h_4 => cases h; exact .quot
    case h_5 => cases h; exact .apos
    case h_6 =>
      obtain ⟨sign, hsign, ds, rfl, hds⟩ := (bind_scalar?_eq_some_iff (by decide)).mp h
      exact .hexadecimal hsign hds
    case h_7 =>
      obtain ⟨sign, hsign, ds, rfl, hds⟩ := (bind_scalar?_eq_some_iff (by decide)).mp h
      exact .decimal hsign hds
    case h_8 => cases h
  · intro h
    cases h with
    | amp | lt | gt | quot | apos => rfl
    | @decimal sign digits _ hsign hds =>
      -- a number of base ten is not taken for one of base sixteen
      have hmem : 'x' ∉ "".toList ++ (sign.toList ++ digits) :=
        not_mem_number hsign hds (by decide) (by decide) (by decide)
      have hx : (sign.toList ++ digits).head? ≠ some 'x' := fun h => hmem (List.mem_of_head? h)
      refine (character?_number hx).trans ?_
      exact (bind_scalar?_eq_some_iff (by decide)).mpr ⟨sign, hsign, digits, rfl, hds⟩
    | @hexadecimal sign digits _ hsign hds =>
      exact (bind_scalar?_eq_some_iff (by decide)).mpr ⟨sign, hsign, digits, rfl, hds⟩

/-- Neither of the characters around a name stands in it. -/
theorem Names.not_mem {name : List Char} {c : Char} (h : Names ["", "+"] name c) :
    '&' ∉ name ∧ ';' ∉ name := by
  cases h with
  | amp | lt | gt | quot | apos => decide
  | decimal hsign hds | hexadecimal hsign hds =>
    exact ⟨not_mem_number hsign hds (by decide) (by decide) (by decide),
      not_mem_number hsign hds (by decide) (by decide) (by decide)⟩

/-! ## Decoding -/

/-- What has been read of the reference that the decoder is in. -/
def Place.opened : Place → List Char
  | outside => []
  | inside name => '&' :: name.reverse

/-- What is decoded is a text with references, the one that was begun included. -/
theorem resolves_of_decodeFrom {done cs r : List Char} {place : Place}
    (h : decodeFrom done place cs = .ok r) :
    ∃ ts, r = done.reverse ++ ts ∧ Resolves ["", "+"] (place.opened ++ cs) ts := by
  fun_induction decodeFrom done place cs with
  | case1 done =>
    cases h
    exact ⟨[], (List.append_nil _).symm, .nil⟩
  | case2 => cases h
  | case3 done c cs hc ih =>
    rw [beq_iff_eq.mp hc]
    exact ih h
  | case4 done c cs hc ih =>
    obtain ⟨ts, hr, hts⟩ := ih h
    refine ⟨c :: ts, by simp [hr], .char ?_ hts⟩
    simpa using hc
  | case5 done name c cs hc d hd ih =>
    obtain ⟨ts, hr, hts⟩ := ih h
    refine ⟨d :: ts, by simp [hr], ?_⟩
    rw [beq_iff_eq.mp hc]
    exact .reference (character?_eq_some_iff.mp hd) hts
  | case6 => cases h
  | case7 done name c cs hc ih =>
    have := ih h
    simpa [Place.opened] using this

/-- A text with references is decoded to what it stands for. -/
theorem Resolves.decodeFrom {cs ts : List Char} (h : Resolves ["", "+"] cs ts) (done : List Char) :
    decodeFrom done .outside cs = .ok (done.reverse ++ ts) := by
  induction h generalizing done with
  | nil => simp [Reference.decodeFrom]
  | @char c cs ts hc _ ih =>
    have hamp : (c == '&') = false := beq_eq_false_iff_ne.mpr hc
    rw [Reference.decodeFrom, hamp]
    refine (ih (c :: done)).trans ?_
    simp
  | @reference name cs ts c hname _ ih =>
    rw [Reference.decodeFrom, if_pos (by rfl)]
    rw [decodeFrom_inside done [] name cs hname.not_mem.2 (character?_eq_some_iff.mpr hname), ih]
    simp

theorem decode_eq_ok_iff {s t : String} :
    decode s = .ok t ↔ Resolves ["", "+"] s.toList t.toList := by
  unfold decode
  constructor
  · intro h
    cases hr : decodeFrom [] .outside s.toList with
    | error e =>
      rw [hr] at h
      cases h
    | ok r =>
      rw [hr] at h
      cases h
      obtain ⟨ts, rfl, hts⟩ := resolves_of_decodeFrom hr
      simpa [Place.opened] using hts
  · intro h
    rw [h.decodeFrom []]
    show Except.ok (String.ofList t.toList) = _
    rw [String.ofList_toList]

/-! ## Signs -/

/-- A number in the text has a plus sign. -/
def Signed (cs : List Char) : Prop := "&#+".toList <:+: cs ∨ "&#x+".toList <:+: cs

theorem Names.unsign {name : List Char} {c : Char} (h : Names ["", "+"] name c) :
    Names [""] name c ∨ "#+".toList <+: name ∨ "#x+".toList <+: name := by
  cases h with
  | amp => exact .inl .amp
  | lt => exact .inl .lt
  | gt => exact .inl .gt
  | quot => exact .inl .quot
  | apos => exact .inl .apos
  | @decimal sign digits _ hsign hds =>
    simp only [List.mem_cons, List.not_mem_nil, or_false] at hsign
    rcases hsign with rfl | rfl
    · exact .inl (.decimal (by simp) hds)
    · exact .inr (.inl ⟨digits, rfl⟩)
  | @hexadecimal sign digits _ hsign hds =>
    simp only [List.mem_cons, List.not_mem_nil, or_false] at hsign
    rcases hsign with rfl | rfl
    · exact .inl (.hexadecimal (by simp) hds)
    · exact .inr (.inr ⟨digits, rfl⟩)

/-- A name without a sign is one where signs are allowed, and shows none. -/
theorem Names.plain {name : List Char} {c : Char} (h : Names [""] name c) (rest : List Char) :
    Names ["", "+"] name c ∧ ¬ "#+".toList <+: name ++ rest ∧ ¬ "#x+".toList <+: name ++ rest := by
  cases h with
  | amp => exact ⟨.amp, by simp⟩
  | lt => exact ⟨.lt, by simp⟩
  | gt => exact ⟨.gt, by simp⟩
  | quot => exact ⟨.quot, by simp⟩
  | apos => exact ⟨.apos, by simp⟩
  | @decimal sign digits _ hsign hds =>
    obtain rfl := List.mem_singleton.mp hsign
    obtain ⟨d, ds, rfl, hplus, hx⟩ := hds.eq_cons
    exact ⟨.decimal (by simp) hds, by simp [hplus.symm], by simp [hx.symm]⟩
  | @hexadecimal sign digits _ hsign hds =>
    obtain rfl := List.mem_singleton.mp hsign
    obtain ⟨d, ds, rfl, hplus, _⟩ := hds.eq_cons
    exact ⟨.hexadecimal (by simp) hds, by simp, by simp [hplus.symm]⟩

theorem infix_append_iff {pattern xs ys : List Char} (hxs : '&' ∉ xs) :
    ('&' :: pattern) <:+: xs ++ ys ↔ ('&' :: pattern) <:+: ys := by
  induction xs with
  | nil => rfl
  | cons x xs ih =>
    rw [List.mem_cons, not_or] at hxs
    rw [List.cons_append, List.infix_cons_iff, List.cons_prefix_cons, ih hxs.2]
    simp [hxs.1]

/-- Signs stand behind an `&` only. -/
theorem signed_append_iff {xs cs : List Char} (hxs : '&' ∉ xs) :
    Signed (xs ++ cs) ↔ Signed cs :=
  or_congr (infix_append_iff hxs) (infix_append_iff hxs)

theorem signed_amp_iff {cs : List Char} :
    Signed ('&' :: cs) ↔ ("#+".toList <+: cs ∨ "#x+".toList <+: cs) ∨ Signed cs := by
  have hplus : "&#+".toList <:+: '&' :: cs ↔ "#+".toList <+: cs ∨ "&#+".toList <:+: cs := by
    rw [List.infix_cons_iff]
    exact or_congr_left (by simp)
  have hxplus : "&#x+".toList <:+: '&' :: cs ↔ "#x+".toList <+: cs ∨ "&#x+".toList <:+: cs := by
    rw [List.infix_cons_iff]
    exact or_congr_left (by simp)
  rw [Signed, Signed, hplus, hxplus]
  exact or_or_or_comm

theorem signed_reference_iff {name cs : List Char} {c : Char} (h : Names ["", "+"] name c) :
    Signed ('&' :: (name ++ ';' :: cs)) ↔
      ("#+".toList <+: name ++ ';' :: cs ∨ "#x+".toList <+: name ++ ';' :: cs) ∨ Signed cs := by
  have hname : '&' ∉ name ++ [';'] := by
    rw [List.mem_append, not_or]
    exact ⟨h.not_mem.1, by decide⟩
  have hsplit : name ++ ';' :: cs = name ++ [';'] ++ cs := List.append_cons name ';' cs
  rw [signed_amp_iff]
  refine or_congr_right ?_
  rw [hsplit, signed_append_iff hname]

/-- The grammar without signs has the texts of the other one in which no sign is seen. -/
theorem resolves_plain_iff {cs ts : List Char} :
    Resolves [""] cs ts ↔ Resolves ["", "+"] cs ts ∧ ¬ Signed cs := by
  have hother : ∀ {c : Char} {cs : List Char}, c ≠ '&' → (Signed (c :: cs) ↔ Signed cs) :=
    fun {c cs} hc => @signed_append_iff [c] cs (by simpa using hc.symm)
  constructor
  · intro h
    induction h with
    | nil => exact ⟨.nil, by simp [Signed]⟩
    | char hc _ ih =>
      rw [hother hc]
      exact ⟨.char hc ih.1, ih.2⟩
    | @reference name cs _ _ hname _ ih =>
      obtain ⟨hsigned, hplain⟩ := hname.plain (';' :: cs)
      rw [signed_reference_iff hsigned, not_or, not_or]
      exact ⟨.reference hsigned ih.1, hplain, ih.2⟩
  · rintro ⟨h, hplain⟩
    induction h with
    | nil => exact .nil
    | char hc _ ih =>
      rw [hother hc] at hplain
      exact .char hc (ih hplain)
    | reference hname _ ih =>
      rw [signed_reference_iff hname, not_or] at hplain
      refine .reference ?_ (ih hplain.2)
      rcases hname.unsign with hname | hname
      · exact hname
      · refine absurd (hname.imp ?_ ?_) hplain.1
        · exact fun h => h.trans (List.prefix_append _ _)
        · exact fun h => h.trans (List.prefix_append _ _)

/-- A text is decoded exactly if every `&` in it begins one of the five named references or a
number that is a character's, in digits of base ten or sixteen. The number may have a plus
sign; the grammar without signs is met by the texts that are decoded and have none. -/
theorem decode_exact (s t : String) :
    (decode s = .ok t ↔ Resolves ["", "+"] s.toList t.toList) ∧
      (Resolves [""] s.toList t.toList ↔ decode s = .ok t ∧ ¬ Signed s.toList) := by
  rw [decode_eq_ok_iff]
  exact ⟨Iff.rfl, resolves_plain_iff⟩

/-- A plus sign is not in the grammar of references, but it is read over. -/
theorem decode_plus :
    decode "&#+65;" = .ok "A" ∧
      ¬ ∀ s t : String, decode s = .ok t ↔ Resolves [""] s.toList t.toList := by
  have hdecode : decode "&#+65;" = .ok "A" := rfl
  refine ⟨hdecode, fun hall => ?_⟩
  have hplain := (resolves_plain_iff.mp ((hall _ _).mp hdecode)).2
  exact hplain (.inl ⟨[], "65;".toList, rfl⟩)

end TextHoist.Reference
