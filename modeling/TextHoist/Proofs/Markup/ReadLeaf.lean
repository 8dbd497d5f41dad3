/-
  Reading leaves, against the grammar. The content of a leaf with a closer ends at the
  first place where the closer comes next. For closers no end of which is a beginning of
  them (`Unbordered`), that is the same as saying that the closer is not inside the
  content: an occurrence cannot lie across the border between the two.

  `innerLeaf?_eq_ok_iff` and `outerLeaf?_eq_ok_iff` say of the two places where leaves are
  read that exactly the leaves of the grammar are, in whatever order the kinds are tried.
-/
import TextHoist.Markup.Reading
import TextHoist.Proofs.Markup.ReadTag

namespace TextHoist

/-! ## Where a content ends -/

/-- No proper end of the list is a beginning of it. -/
def Unbordered (stop : List UInt8) : Prop :=
  ∀ k < stop.length, 0 < k → ¬ stop.drop k <+: stop

instance (stop : List UInt8) : Decidable (Unbordered stop) :=
  inferInstanceAs (Decidable (∀ k < stop.length, 0 < k → ¬ stop.drop k <+: stop))

theorem infix_of_prefix_append {stop cs rest : List UInt8} (hu : Unbordered stop)
    (hcs : cs ≠ []) (h : stop <+: cs ++ (stop ++ rest)) : stop <:+: cs := by
  have hcs' : cs <+: cs ++ (stop ++ rest) := List.prefix_append _ _
  rcases Nat.lt_or_ge cs.length stop.length with hlt | hge
  · obtain ⟨u, hstop⟩ := List.prefix_of_prefix_length_le hcs' h (Nat.le_of_lt hlt)
    have hu' : u <+: stop ++ rest := by
      rw [← hstop, List.prefix_append_right_inj, hstop] at h
      exact h
    have hlen : u.length ≤ stop.length := by rw [← hstop, List.length_append]; omega
    have hborder : u <+: stop := List.prefix_of_prefix_length_le hu' (List.prefix_append _ _) hlen
    have hdrop : stop.drop cs.length = u := by rw [← hstop, List.drop_left]
    exact absurd (hdrop ▸ hborder) (hu cs.length hlt (List.length_pos_iff.mpr hcs))
  · exact (List.prefix_of_prefix_length_le h hcs' hge).isInfix

theorem distance?_eq_some_iff {stop bs : List UInt8} {n m : Nat} (hu : Unbordered stop)
    (hne : stop ≠ []) : distance? stop n bs = some m ↔
      ∃ cs rest, bs = cs ++ (stop ++ rest) ∧ m = n + cs.length ∧ ¬ stop <:+: cs := by
  induction bs generalizing n with
  | nil =>
    constructor
    · intro h
      cases h
    · rintro ⟨cs, rest, h, _⟩
      simp [hne] at h
  | cons b bs ih =>
    unfold distance?
    by_cases hp : stop.isPrefixOf (b :: bs) = true
    · rw [if_pos hp]
      rw [List.isPrefixOf_iff_prefix] at hp
      constructor
      · intro h
        cases h
        obtain ⟨rest, hrest⟩ := hp
        exact ⟨[], rest, hrest.symm, rfl, by simpa using hne⟩
      · rintro ⟨cs, rest, hb, hm, hinf⟩
        cases cs with
        | nil => rw [hm]; rfl
        | cons c cs =>
          rw [hb] at hp
          exact absurd (infix_of_prefix_append hu (List.cons_ne_nil c cs) hp) hinf
    · rw [if_neg hp, ih]
      rw [List.isPrefixOf_iff_prefix] at hp
      constructor
      · rintro ⟨cs, rest, rfl, rfl, hinf⟩
        refine ⟨b :: cs, rest, rfl, by rw [List.length_cons]; omega, ?_⟩
        rw [List.infix_cons_iff]
        rintro (h | h)
        · exact hp (h.trans (List.prefix_append (b :: cs) _))
        · exact hinf h
      · rintro ⟨cs, rest, hb, hm, hinf⟩
        cases cs with
        | nil => exact absurd ⟨rest, hb.symm⟩ hp
        | cons c cs =>
          cases hb
          rw [List.infix_cons_iff, not_or] at hinf
          exact ⟨cs, rest, rfl, by rw [hm, List.length_cons]; omega, hinf.2⟩

/-- A byte that does not end a doctype is one more byte of its content. -/
theorem exists_doctype_cons_iff {b : UInt8} {bs : List UInt8} {depth n m : Nat} (depth' : Nat)
    (hb : ∀ cs, bracketsAfter depth (b :: cs) = bracketsAfter depth' cs)
    (hgt : b = '>'.toUInt8 → depth ≠ 0) :
    (∃ cs rest, b :: bs = cs ++ '>'.toUInt8 :: rest ∧ m = n + cs.length ∧
      bracketsAfter depth cs = some 0) ↔
    ∃ cs rest, bs = cs ++ '>'.toUInt8 :: rest ∧ m = n + 1 + cs.length ∧
      bracketsAfter depth' cs = some 0 := by
  constructor
  · rintro ⟨cs, rest, heq, hm, hcs⟩
    cases cs with
    | nil =>
      cases heq
      exact absurd (Option.some.inj hcs) (hgt rfl)
    | cons c cs =>
      cases heq
      rw [hb] at hcs
      exact ⟨cs, rest, rfl, by rw [hm, List.length_cons]; omega, hcs⟩
  · rintro ⟨cs, rest, rfl, rfl, hcs⟩
    exact ⟨b :: cs, rest, rfl, by rw [List.length_cons]; omega, by rw [hb, hcs]⟩

theorem doctypeEnd?_eq_some_iff {bs : List UInt8} {depth n m : Nat} :
    doctypeEnd? depth n bs = some m ↔
      ∃ cs rest, bs = cs ++ '>'.toUInt8 :: rest ∧ m = n + cs.length ∧
        bracketsAfter depth cs = some 0 := by
  induction bs generalizing depth n with
  | nil => simp [doctypeEnd?]
  | cons b bs ih =>
    unfold doctypeEnd?
    split
    case isTrue h =>
      rw [ih, exists_doctype_cons_iff (depth + 1) (fun cs => by simp [bracketsAfter, h])]
      rintro rfl
      cases h
    case isFalse h =>
      split
      case isTrue h' =>
        rw [ih, exists_doctype_cons_iff (depth - 1) (fun cs => by simp [bracketsAfter, h, h'])]
        rintro rfl
        cases h'
      case isFalse h' =>
        split
        case isTrue h'' =>
          rw [Bool.and_eq_true, beq_iff_eq, beq_iff_eq] at h''
          obtain ⟨rfl, rfl⟩ := h''
          constructor
          · intro hm
            cases hm
            exact ⟨[], bs, rfl, rfl, rfl⟩
          · rintro ⟨cs, rest, heq, hm, hcs⟩
            cases cs with
            | nil => rw [hm]; rfl
            | cons c cs =>
              cases heq
              rw [bracketsAfter, if_neg h, if_neg h', if_pos (by decide)] at hcs
              cases hcs
        case isFalse h'' =>
          rw [ih, exists_doctype_cons_iff depth (fun cs => by simp [bracketsAfter, h, h', h''])]
          rintro rfl rfl
          exact h'' rfl

theorem LeafKind.contentEnd?_eq_some_iff {kind : LeafKind} (hk : kind ≠ .text)
    {bs : List UInt8} {m : Nat} : kind.contentEnd? bs = some m ↔
      ∃ cs rest, bs = cs ++ (Text.bytes kind.closer ++ rest) ∧ m = cs.length ∧ kind.Avoids cs := by
  cases kind with
  | text => exact absurd rfl hk
  | doctype =>
    show doctypeEnd? 0 0 bs = some m ↔ _
    rw [doctypeEnd?_eq_some_iff]
    simp only [Nat.zero_add]
    rfl
  | _ =>
    show distance? _ 0 bs = some m ↔ _
    rw [distance?_eq_some_iff (by decide) (by decide)]
    simp only [Nat.zero_add]
    rfl

/-- What follows a doctype's content has no part in dashes that the content begins with. -/
theorem dashes_prefix_append {bs rest : List UInt8}
    (h : Text.bytes "--" <+: bs ++ '>'.toUInt8 :: rest) : Text.bytes "--" <+: bs := by
  have hp : ['-'.toUInt8, '-'.toUInt8] <+: bs ++ '>'.toUInt8 :: rest := h
  have hne : '-'.toUInt8 ≠ '>'.toUInt8 := by decide
  match bs with
  | [] => exact absurd (List.cons_prefix_cons.mp hp).1 hne
  | [x] => exact absurd (List.cons_prefix_cons.mp (List.cons_prefix_cons.mp hp).2).1 hne
  | x :: y :: bs =>
    obtain ⟨hx, hp⟩ := List.cons_prefix_cons.mp hp
    obtain ⟨hy, _⟩ := List.cons_prefix_cons.mp hp
    exact List.cons_prefix_cons.mpr ⟨hx, List.cons_prefix_cons.mpr ⟨hy, List.nil_prefix⟩⟩

/-! ## Leaves of each kind -/

namespace Cursor

variable {c c' : Cursor} {n : Node}

theorem opens_iff {kind : LeafKind} :
    c.opens kind = true ↔ Text.bytes kind.opener <+: c.rest := by
  rw [opens, startsWith, startsWithBytes, List.isPrefixOf_iff_prefix]

theorem readDelimited_eq_ok_iff {kind : LeafKind} (hk : kind ≠ .text) (hc : c.opens kind = true) :
    c.readDelimited kind = .ok (n, c') ↔
      ∃ content, kind.Avoids (Text.bytes content) ∧
        c.Passes (Text.bytes (kind.opener ++ content ++ kind.closer)) c' ∧
        n = .leaf kind content ⟨c.position, c'.position⟩ := by
  obtain ⟨c₀, hp₀⟩ := startsWithBytes_iff.mp hc
  have hc₀ : c.advance kind.opener.utf8ByteSize = c₀ := hp₀.2.symm
  unfold readDelimited
  simp only [hc₀, Text.bytes_append]
  constructor
  · intro h
    split at h
    case h_1 => cases h
    case h_2 m hm =>
      obtain ⟨content, hcontent, h⟩ := exists_of_bind_eq_ok h
      obtain ⟨cs, rest, hrest, rfl, hav⟩ := (LeafKind.contentEnd?_eq_some_iff hk).mp hm
      rw [textOf_eq_ok_iff, hrest, List.take_left] at hcontent
      subst hcontent
      cases h
      refine ⟨content, hav, ?_, rfl⟩
      rw [← List.append_assoc] at hrest
      have hp₁ := (passes_advance hrest).1
      rw [List.length_append, Text.length_bytes, Text.length_bytes] at hp₁
      rw [List.append_assoc, Text.length_bytes]
      exact hp₀.trans hp₁
  · rintro ⟨content, hav, hp, rfl⟩
    rw [List.append_assoc] at hp
    obtain ⟨c₀', hp₀', hp₁⟩ := hp.split
    obtain rfl := hp₀.unique hp₀'
    have hrest : c₀.rest = Text.bytes content ++ (Text.bytes kind.closer ++ c'.rest) := by
      rw [hp₁.1, List.append_assoc]
    have hm := (LeafKind.contentEnd?_eq_some_iff hk).mpr ⟨_, _, hrest, rfl, hav⟩
    have hc' : c₀.advance ((Text.bytes content).length + kind.closer.utf8ByteSize) = c' := by
      rw [hp₁.2, List.length_append, Text.length_bytes kind.closer]
    simp only [hm, hc']
    rw [bind_eq_ok_iff]
    refine ⟨content, textOf_eq_ok_iff.mpr ?_, rfl⟩
    rw [hrest, List.take_left]

theorem readCharacterData_eq_ok_iff (hc : c.isAt '<' = false) (he : c.atEnd = false) :
    c.readCharacterData = .ok (n, c') ↔
      ∃ raw content, raw ≠ "" ∧ '<'.toUInt8 ∉ Text.bytes raw ∧
        Reference.decode raw = .ok content ∧ c.Passes (Text.bytes raw) c' ∧
        Halts Zone.inside.isTextByte c'.rest ∧
        n = .leaf .text content ⟨c.position, c'.position⟩ := by
  obtain ⟨hrun, hhalt⟩ := c.passes_run (· != '<'.toUInt8)
  unfold readCharacterData
  constructor
  · intro h
    obtain ⟨content, hcontent, h⟩ := exists_of_bind_eq_ok h
    cases h
    obtain ⟨raw, hraw, hdec⟩ := decodedText_eq_ok_iff.mp hcontent
    refine ⟨raw, content, ?_, ?_, hdec, hraw ▸ hrun, hhalt, rfl⟩
    · rintro rfl
      rw [hraw, Text.bytes_empty, passes_nil_iff] at hrun
      rw [hraw, Text.bytes_empty, hrun] at hhalt
      -- nothing was read, although something other than a tag comes next
      cases hr : c.rest with
      | nil => simp [atEnd, hr] at he
      | cons b bs =>
        rw [hr] at hhalt
        have := halts_cons.mp hhalt
        simp only [bne_eq_false_iff_eq] at this
        simp [isAt, peek?, hr, this] at hc
    · intro hmem
      rw [← hraw] at hmem
      have := mem_run hmem
      simp at this
  · rintro ⟨raw, content, _, hraw, hdec, hp, hh, rfl⟩
    have hall : ∀ b ∈ Text.bytes raw, (b != '<'.toUInt8) = true := by
      intro b hb
      rw [bne_iff_ne]
      rintro rfl
      exact hraw hb
    have hbs : (c.run fun b => b != '<'.toUInt8) = Text.bytes raw := hp.run_eq hall hh
    rw [hbs, bind_eq_ok_iff]
    refine ⟨content, decodedText_eq_ok_iff.mpr ⟨raw, rfl, hdec⟩, ?_⟩
    rw [← hp.2]
    rfl

theorem readBlank_eq_ok_iff (hc : c.peek?.any Text.isBlankByte = true) :
    c.readBlank = .ok (n, c') ↔
      ∃ content, content ≠ "" ∧ Blanks (Text.bytes content) ∧
        c.Passes (Text.bytes content) c' ∧ Halts Zone.outside.isTextByte c'.rest ∧
        n = .leaf .text content ⟨c.position, c'.position⟩ := by
  obtain ⟨hrun, hhalt⟩ := c.passes_run Text.isBlankByte
  unfold readBlank
  constructor
  · intro h
    obtain ⟨content, hcontent, h⟩ := exists_of_bind_eq_ok h
    cases h
    rw [textOf_eq_ok_iff] at hcontent
    refine ⟨content, ?_, ?_, hcontent ▸ hrun, hhalt, rfl⟩
    · rintro rfl
      rw [hcontent, Text.bytes_empty, passes_nil_iff] at hrun
      rw [hcontent, Text.bytes_empty, hrun] at hhalt
      cases hr : c.rest with
      | nil => simp [peek?, hr] at hc
      | cons b bs =>
        rw [hr] at hhalt
        have := halts_cons.mp hhalt
        simp [peek?, hr, this] at hc
    · intro b hb
      rw [← hcontent] at hb
      exact mem_run hb
  · rintro ⟨content, _, hblank, hp, hh, rfl⟩
    have hbs := hp.run_eq hblank hh
    rw [bind_eq_ok_iff]
    refine ⟨content, textOf_eq_ok_iff.mpr hbs, ?_⟩
    rw [skipBlank_eq_iff.mpr ⟨_, hblank, hp, hh⟩]
    rfl

/-! ## The leaf that comes next -/

/-- A leaf of a zone comes next, as long as it can be, and `c'` is behind it. -/
def PassesLeaf (zone : Zone) (c : Cursor) (n : Node) (c' : Cursor) : Prop :=
  ∃ kind bs content, LeafSpelled zone kind bs content ∧ c.Passes bs c' ∧
    (kind = .text → Halts zone.isTextByte c'.rest) ∧
    n = .leaf kind content ⟨c.position, c'.position⟩

theorem passesLeaf_of_readDelimited {kind : LeafKind} {zone : Zone}
    (hs : kind.standsIn zone = true) (hc : c.opens kind = true)
    (hd : kind ≠ .doctype ∨ c.opens .comment = false) (h : c.readDelimited kind = .ok (n, c')) :
    c.PassesLeaf zone n c' := by
  have hk := LeafKind.standsIn_ne_text hs
  obtain ⟨content, hav, hp, rfl⟩ := (readDelimited_eq_ok_iff hk hc).mp h
  refine ⟨kind, _, content, .delimited hs ⟨hav, ?_⟩, hp, fun h => absurd h hk, rfl⟩
  rintro rfl hdashes
  -- two dashes in front of the content would have made it a comment
  have hopen : c.opens .comment = true := by
    rw [opens_iff, hp.1, Text.bytes_append, Text.bytes_append, List.append_assoc,
      List.append_assoc]
    exact (List.prefix_append_right_inj (Text.bytes "<!")).mpr
      (hdashes.trans (List.prefix_append _ _))
  rcases hd with hd | hd
  · exact hd rfl
  · rw [hd] at hopen
    cases hopen

theorem opens_of_passes {kind : LeafKind} {content : String}
    (h : c.Passes (Text.bytes (kind.opener ++ content ++ kind.closer)) c') :
    c.opens kind = true := by
  rw [opens_iff, h.1, Text.bytes_append, Text.bytes_append, List.append_assoc, List.append_assoc]
  exact List.prefix_append _ _

/-- Of two kinds whose openers are not one the beginning of the other, one can be open. -/
theorem opens_eq_false {kind other : LeafKind} (h : c.opens kind = true)
    (hne : ¬ Text.bytes kind.opener <+: Text.bytes other.opener ∧
      ¬ Text.bytes other.opener <+: Text.bytes kind.opener) : c.opens other = false := by
  rw [← Bool.not_eq_true, opens_iff]
  intro h'
  rcases List.prefix_or_prefix_of_prefix (opens_iff.mp h) h' with hp | hp
  · exact hne.1 hp
  · exact hne.2 hp

/-- A doctype's content that does not begin with two dashes does not make it a comment. -/
theorem opens_comment_eq_false {content : String}
    (h : c.Passes (Text.bytes (LeafKind.doctype.opener ++ content ++ LeafKind.doctype.closer)) c')
    (hd : ¬ Text.bytes "--" <+: Text.bytes content) : c.opens .comment = false := by
  rw [← Bool.not_eq_true, opens_iff, h.1, Text.bytes_append, Text.bytes_append, List.append_assoc,
    List.append_assoc]
  intro hp
  exact hd (dashes_prefix_append ((List.prefix_append_right_inj (Text.bytes "<!")).mp hp))

/-- What begins otherwise than with `<` opens no leaf that has an opener. -/
theorem opens_eq_false_of_ne {kind : LeafKind} (hk : kind ≠ .text)
    (h : ∀ bs, c.rest ≠ '<'.toUInt8 :: bs) : c.opens kind = false := by
  rw [← Bool.not_eq_true, opens_iff]
  rintro ⟨rest, hrest⟩
  obtain ⟨cs, hcs⟩ := LeafKind.bytes_opener hk
  rw [hcs, List.cons_append] at hrest
  exact h _ hrest.symm

/-- Nor does a tag, opening or closing. -/
theorem opens_eq_false_of_tag {kind : LeafKind} (hk : kind ≠ .text) {b : UInt8}
    {bs : List UInt8} (h : c.rest = '<'.toUInt8 :: b :: bs)
    (hb : isNameStart b = true ∨ b = '/'.toUInt8) : c.opens kind = false := by
  rw [← Bool.not_eq_true, opens_iff, h]
  intro hp
  have hsecond : ∃ x cs, Text.bytes kind.opener = '<'.toUInt8 :: x :: cs ∧
      isNameStart x = false ∧ x ≠ '/'.toUInt8 := by
    cases kind with
    | text => exact absurd rfl hk
    | _ => exact ⟨_, _, rfl, rfl, by decide⟩
  obtain ⟨x, cs, hx, hstart, hslash⟩ := hsecond
  rw [hx, List.cons_prefix_cons, List.cons_prefix_cons] at hp
  obtain ⟨_, rfl, _⟩ := hp
  rcases hb with hb | hb
  · rw [hstart] at hb
    cases hb
  · exact hslash hb

theorem outerLeaf?_eq_ok_iff :
    c.outerLeaf? = some (.ok (n, c')) ↔ c.PassesLeaf .outside n c' := by
  constructor
  · intro h
    rcases outerLeaf?_cases h with ⟨hb, hr⟩ | ⟨kind, hk, hcdata, hc, hd, hr⟩
    · obtain ⟨content, hne, hblank, hp, hh, rfl⟩ := (readBlank_eq_ok_iff hb).mp hr.symm
      exact ⟨.text, _, content, .blank hne hblank, hp, fun _ => hh, rfl⟩
    · have hs : kind.standsIn .outside = true :=
        LeafKind.standsIn_iff.mpr ⟨hk, by simp, fun _ => hcdata⟩
      exact passesLeaf_of_readDelimited hs hc hd hr.symm
  · rintro ⟨kind, bs, content, hl, hp, hh, rfl⟩
    unfold outerLeaf?
    cases hl with
    | blank hne hblank =>
      have hb : c.peek?.any Text.isBlankByte = true := by
        obtain ⟨b, cs, hbs, hb⟩ := (LeafSpelled.blank hne hblank).text_eq_cons
        rw [hbs] at hp
        rw [hp.peek?]
        exact hb
      rw [if_pos hb]
      exact congrArg some ((readBlank_eq_ok_iff hb).mpr ⟨content, hne, hblank, hp, hh rfl, rfl⟩)
    | delimited hs henc =>
      have hk := LeafKind.standsIn_ne_text hs
      have hopen := opens_of_passes hp
      have hread := (readDelimited_eq_ok_iff hk hopen).mpr ⟨content, henc.1, hp, rfl⟩
      have hb : ¬ c.peek?.any Text.isBlankByte = true := by
        obtain ⟨cs, hcs⟩ := LeafKind.bytes_opener hk
        rw [Text.bytes_append, Text.bytes_append, hcs] at hp
        rw [hp.peek?]
        decide
      rw [if_neg hb]
      cases kind with
      | text => exact absurd rfl hk
      | cdata => cases hs
      | comment => rw [if_pos hopen, hread]
      | instruction =>
        rw [if_neg (by rw [opens_eq_false hopen (by decide)]; decide), if_pos hopen, hread]
      | doctype =>
        have hcomment := opens_comment_eq_false hp (henc.2 rfl)
        have hinstr : c.opens .instruction = false := opens_eq_false hopen (by decide)
        rw [if_neg (by rw [hcomment]; decide), if_neg (by rw [hinstr]; decide), if_pos hopen, hread]

theorem innerLeaf?_eq_ok_iff :
    c.innerLeaf? = some (.ok (n, c')) ↔ c.PassesLeaf .inside n c' := by
  constructor
  · intro h
    rcases innerLeaf?_cases h with ⟨kind, hk, hdoctype, hc, hr⟩ | ⟨ht, he, hr⟩
    · have hs : kind.standsIn .inside = true :=
        LeafKind.standsIn_iff.mpr ⟨hk, fun _ => hdoctype, by simp⟩
      exact passesLeaf_of_readDelimited hs hc (.inl hdoctype) hr.symm
    · obtain ⟨raw, content, hne, hraw, hdec, hp, hh, rfl⟩ :=
        (readCharacterData_eq_ok_iff ht he).mp hr.symm
      exact ⟨.text, _, content, .text hne hraw hdec, hp, fun _ => hh, rfl⟩
  · rintro ⟨kind, bs, content, hl, hp, hh, rfl⟩
    unfold innerLeaf?
    cases hl with
    | @text raw _ hne hraw hdec =>
      obtain ⟨b, cs, hbs, hb⟩ := (LeafSpelled.text hne hraw hdec).text_eq_cons
      have hrest : c.rest = b :: (cs ++ c'.rest) := by rw [hp.1, hbs]; rfl
      have hb : b ≠ '<'.toUInt8 := bne_iff_ne.mp hb
      have hclosed : ∀ kind : LeafKind, kind ≠ .text → ¬ c.opens kind = true := by
        intro kind hk
        rw [opens_eq_false_of_ne hk fun bs' h => hb (by rw [hrest] at h; cases h; rfl)]
        decide
      have hat : c.isAt '<' = false := by simp [isAt, peek?, hrest, hb]
      have hend : c.atEnd = false := by simp [atEnd, hrest]
      rw [if_neg (hclosed .comment (by decide)), if_neg (hclosed .cdata (by decide)),
        if_neg (hclosed .instruction (by decide)), if_neg (by simp [hat, hend])]
      exact congrArg some ((readCharacterData_eq_ok_iff hat hend).mpr
        ⟨raw, content, hne, hraw, hdec, hp, hh rfl, rfl⟩)
    | delimited hs henc =>
      have hk := LeafKind.standsIn_ne_text hs
      have hopen := opens_of_passes hp
      have hread := (readDelimited_eq_ok_iff hk hopen).mpr ⟨content, henc.1, hp, rfl⟩
      cases kind with
      | text => exact absurd rfl hk
      | doctype => cases hs
      | comment => rw [if_pos hopen, hread]
      | cdata =>
        rw [if_neg (by rw [opens_eq_false hopen (by decide)]; decide), if_pos hopen, hread]
      | instruction =>
        rw [if_neg (by rw [opens_eq_false hopen (by decide)]; decide),
          if_neg (by rw [opens_eq_false hopen (by decide)]; decide), if_pos hopen, hread]

end Cursor

end TextHoist
