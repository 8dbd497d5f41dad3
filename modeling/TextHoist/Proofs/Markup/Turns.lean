/-
  What one step of reading a document can do. `Turn` lists it: take in a leaf before,
  inside or behind the root element, an element of one tag, a tag that opens an element,
  or the tag that closes the innermost open one. `Draft.step_eq_more_iff` says that a step
  does one of these, and does it whenever the bytes for it come next, whatever else the
  reader tries first. Everything about whole documents rests on turns only.
-/
import TextHoist.Proofs.Markup.ReadLeaf

namespace TextHoist

/-- A tag may have these attributes. -/
def Limits.Admits (limits : Limits) (as : List Attribute) : Prop :=
  limits.allowRepeats = true ∨ (as.map (·.name)).Nodup

/-- From `c` to `c'` a step leads from one draft to another. -/
inductive Turn (limits : Limits) (c c' : Cursor) : Draft → Draft → Prop
  | leading {leading : List Node} {n : Node} : c.PassesLeaf .outside n c' →
      Turn limits c c' (.building leading []) (.building (n :: leading) [])
  | trailing {leading trailing : List Node} {root : Element} {n : Node} :
      c.PassesLeaf .outside n c' →
      Turn limits c c' (.ending leading root trailing) (.ending leading root (n :: trailing))
  | inner {leading : List Node} {o : OpenElement} {outer : List OpenElement} {n : Node} :
      c.PassesLeaf .inside n c' →
      Turn limits c c' (.building leading (o :: outer)) (.building leading (o.push n :: outer))
  | single {leading : List Node} {stack : List OpenElement} {name : String}
      {as : List Attribute} {bs : List UInt8} :
      OpeningTag name as .empty bs → limits.Admits as → c.Passes bs c' →
      Turn limits c c' (.building leading stack)
        (.place leading stack ⟨name, as, [], .empty, ⟨c.position, c'.position⟩⟩)
  | opening {leading : List Node} {stack : List OpenElement} {name : String}
      {as : List Attribute} {bs : List UInt8} :
      OpeningTag name as .paired bs → limits.Admits as → stack.length + 1 ≤ limits.maxDepth →
      c.Passes bs c' →
      Turn limits c c' (.building leading stack)
        (.building leading (⟨⟨name, as, .paired, ⟨c.position, c'.position⟩⟩, []⟩ :: stack))
  | closing {leading : List Node} {o : OpenElement} {outer : List OpenElement}
      {bs : List UInt8} :
      ClosingTag o.tag.name bs → c.Passes bs c' →
      Turn limits c c' (.building leading (o :: outer))
        (.place leading outer (o.close c'.position))

variable {limits : Limits} {c c' : Cursor}

/-! ## What does not come next -/

namespace Cursor

theorem outerLeaf?_eq_none (hblank : ¬ c.peek?.any Text.isBlankByte = true)
    (hclosed : ∀ kind : LeafKind, kind ≠ .text → c.opens kind = false) : c.outerLeaf? = none := by
  have hclosed' : ∀ kind : LeafKind, kind ≠ .text → ¬ c.opens kind = true := by
    intro kind hk
    rw [hclosed kind hk]
    decide
  rw [outerLeaf?, if_neg hblank, if_neg (hclosed' .comment (by decide)),
    if_neg (hclosed' .instruction (by decide)), if_neg (hclosed' .doctype (by decide))]

theorem outerLeaf?_atTag {b : UInt8} {bs : List UInt8} (h : c.rest = '<'.toUInt8 :: b :: bs)
    (hb : isNameStart b = true) : c.outerLeaf? = none := by
  refine outerLeaf?_eq_none ?_ fun kind hk => opens_eq_false_of_tag hk h (.inl hb)
  rw [peek?, h, List.head?_cons]
  decide

theorem outerLeaf?_atEnd (h : c.rest = []) : c.outerLeaf? = none := by
  refine outerLeaf?_eq_none ?_ fun kind hk => opens_eq_false_of_ne hk (by simp [h])
  rw [peek?, h]
  decide

theorem innerLeaf?_atTag {b : UInt8} {bs : List UInt8}
    (h : c.rest = '<'.toUInt8 :: b :: bs) (hb : isNameStart b = true) : c.innerLeaf? = none := by
  have hclosed : ∀ kind : LeafKind, kind ≠ .text → ¬ c.opens kind = true := by
    intro kind hk
    rw [opens_eq_false_of_tag hk h (.inl hb)]
    decide
  have hat : c.isAt '<' = true := by rw [isAt, peek?, h]; rfl
  rw [innerLeaf?, if_neg (hclosed .comment (by decide)), if_neg (hclosed .cdata (by decide)),
    if_neg (hclosed .instruction (by decide)), if_pos (by rw [hat]; rfl)]

theorem startsWith_closing_iff : c.startsWith "</" = true ↔
    ∃ bs, c.rest = '<'.toUInt8 :: '/'.toUInt8 :: bs := by
  rw [startsWith, startsWithBytes, List.isPrefixOf_iff_prefix]
  constructor
  · rintro ⟨bs, h⟩
    exact ⟨bs, h.symm⟩
  · rintro ⟨bs, h⟩
    exact ⟨bs, h.symm⟩

/-- Where a leaf comes next, no closing tag does. -/
theorem PassesLeaf.not_closing {n : Node} (h : c.PassesLeaf .inside n c') :
    ¬ c.startsWith "</" = true := by
  obtain ⟨kind, bs, content, hl, hp, _, _⟩ := h
  rw [startsWith_closing_iff]
  rintro ⟨rest, hrest⟩
  by_cases hk : kind = .text
  · subst hk
    obtain ⟨b, cs, rfl, hb⟩ := hl.text_eq_cons
    have hc : c.rest = b :: (cs ++ c'.rest) := hp.1
    rw [hrest] at hc
    obtain ⟨rfl, _⟩ := List.cons.inj hc
    cases hb
  · cases hl with
    | text => exact hk rfl
    | delimited hs =>
      have hopen := opens_of_passes hp
      rw [opens_eq_false_of_tag hk hrest (.inr rfl)] at hopen
      cases hopen

end Cursor

/-! ## Steps are turns -/

namespace Draft

theorem enter_eq_more_iff {leading : List Node} {stack : List OpenElement} {draft : Draft} :
    enter limits leading stack c = .ok (.more draft c') ↔
      ∃ name as form bs, OpeningTag name as form bs ∧ limits.Admits as ∧ c.Passes bs c' ∧
        (form = .paired → stack.length + 1 ≤ limits.maxDepth) ∧
        draft = match form with
          | .empty => place leading stack ⟨name, as, [], .empty, ⟨c.position, c'.position⟩⟩
          | .paired => building leading
              (⟨⟨name, as, .paired, ⟨c.position, c'.position⟩⟩, []⟩ :: stack) := by
  unfold enter
  constructor
  · intro h
    obtain ⟨⟨tag, c₁⟩, ht, h⟩ := exists_of_bind_eq_ok h
    obtain ⟨bs, htag, hrep, hp, hspan⟩ := Cursor.readTag_eq_ok_iff.mp ht
    obtain ⟨name, as, form, span⟩ := tag
    simp only at htag hrep hspan h
    subst hspan
    cases form with
    | empty =>
      cases h
      exact ⟨name, as, .empty, bs, htag, hrep, hp, nofun, rfl⟩
    | paired =>
      obtain ⟨_, hdepth, h⟩ := exists_of_bind_eq_ok h
      cases h
      exact ⟨name, as, .paired, bs, htag, hrep, hp,
        fun _ => Limits.checkDepth_eq_ok_iff.mp hdepth, rfl⟩
  · rintro ⟨name, as, form, bs, htag, hrep, hp, hdepth, rfl⟩
    rw [bind_eq_ok_iff]
    refine ⟨(⟨name, as, form, ⟨c.position, c'.position⟩⟩, c'),
      Cursor.readTag_eq_ok_iff.mpr ⟨bs, htag, hrep, hp, rfl⟩, ?_⟩
    cases form with
    | empty => rfl
    | paired =>
      simp only
      rw [bind_eq_ok_iff]
      exact ⟨(), Limits.checkDepth_eq_ok_iff.mpr (hdepth rfl), rfl⟩

theorem turn_of_enter {leading : List Node} {stack : List OpenElement} {draft : Draft}
    (h : enter limits leading stack c = .ok (.more draft c')) :
    Turn limits c c' (building leading stack) draft := by
  obtain ⟨name, as, form, bs, htag, hrep, hp, hdepth, rfl⟩ := enter_eq_more_iff.mp h
  cases form with
  | empty => exact .single htag hrep hp
  | paired => exact .opening htag hrep (hdepth rfl) hp

theorem leave_eq_more_iff {leading : List Node} {o : OpenElement} {outer : List OpenElement}
    {draft : Draft} (hc : c.startsWith "</" = true) :
    leave leading o outer c = .ok (.more draft c') ↔
      ∃ bs, ClosingTag o.tag.name bs ∧ c.Passes bs c' ∧
        draft = place leading outer (o.close c'.position) := by
  rw [leave, bind_eq_ok_iff]
  constructor
  · rintro ⟨c₁, hr, h⟩
    cases h
    obtain ⟨bs, hclose, hp⟩ := (Cursor.readClosingTag_eq_ok_iff hc).mp hr
    exact ⟨bs, hclose, hp, rfl⟩
  · rintro ⟨bs, hclose, hp, rfl⟩
    exact ⟨c', (Cursor.readClosingTag_eq_ok_iff hc).mpr ⟨bs, hclose, hp⟩, rfl⟩

theorem keep_eq_more_iff {grow : Node → Draft} {r : Except Error (Node × Cursor)}
    {draft : Draft} :
    keep grow r = .ok (.more draft c') ↔ ∃ n, r = .ok (n, c') ∧ draft = grow n := by
  rw [keep, bind_eq_ok_iff]
  constructor
  · rintro ⟨⟨n, c₁⟩, hr, h⟩
    cases h
    exact ⟨n, hr, rfl⟩
  · rintro ⟨n, hr, rfl⟩
    exact ⟨(n, c'), hr, rfl⟩

/-- Where a tag comes next that opens an element, it is entered. -/
theorem step_eq_enter {leading : List Node} {stack : List OpenElement} {b : UInt8}
    {bs : List UInt8} (h : c.rest = '<'.toUInt8 :: b :: bs) (hb : isNameStart b = true) :
    step limits (building leading stack) c = enter limits leading stack c := by
  have hend : ¬ c.atEnd = true := by simp [Cursor.atEnd, h]
  cases stack with
  | nil => simp only [step, Cursor.outerLeaf?_atTag h hb, if_neg hend]
  | cons o outer =>
    have hclosing : ¬ c.startsWith "</" = true := by
      rw [Cursor.startsWith_closing_iff, h]
      rintro ⟨rest, hrest⟩
      cases hrest
      cases hb
    simp only [step, if_neg hclosing, Cursor.innerLeaf?_atTag h hb, if_neg hend]

/-- A step does what a turn says, and whatever a turn says is done. -/
theorem step_eq_more_iff {draft draft' : Draft} :
    step limits draft c = .ok (.more draft' c') ↔ Turn limits c c' draft draft' := by
  constructor
  · intro h
    unfold step at h
    split at h
    · split at h
      · rename_i r hr
        obtain ⟨n, rfl, rfl⟩ := keep_eq_more_iff.mp h
        exact .leading (Cursor.outerLeaf?_eq_ok_iff.mp hr)
      · split at h
        · cases h
        · exact turn_of_enter h
    · split at h
      · rename_i hc
        obtain ⟨bs, hclose, hp, rfl⟩ := (leave_eq_more_iff hc).mp h
        exact .closing hclose hp
      · split at h
        · rename_i r hr
          obtain ⟨n, rfl, rfl⟩ := keep_eq_more_iff.mp h
          exact .inner (Cursor.innerLeaf?_eq_ok_iff.mp hr)
        · split at h
          · cases h
          · exact turn_of_enter h
    · split at h
      · rename_i r hr
        obtain ⟨n, rfl, rfl⟩ := keep_eq_more_iff.mp h
        exact .trailing (Cursor.outerLeaf?_eq_ok_iff.mp hr)
      · split at h <;> cases h
  · intro h
    cases h with
    | leading hl =>
      simp only [step, Cursor.outerLeaf?_eq_ok_iff.mpr hl]
      exact keep_eq_more_iff.mpr ⟨_, rfl, rfl⟩
    | trailing hl =>
      simp only [step, Cursor.outerLeaf?_eq_ok_iff.mpr hl]
      exact keep_eq_more_iff.mpr ⟨_, rfl, rfl⟩
    | inner hl =>
      simp only [step, if_neg hl.not_closing, Cursor.innerLeaf?_eq_ok_iff.mpr hl]
      exact keep_eq_more_iff.mpr ⟨_, rfl, rfl⟩
    | single htag hrep hp =>
      obtain ⟨b, cs, rfl, hb⟩ := htag.eq_cons
      rw [step_eq_enter hp.1 hb]
      exact enter_eq_more_iff.mpr ⟨_, _, .empty, _, htag, hrep, hp, nofun, rfl⟩
    | opening htag hrep hdepth hp =>
      obtain ⟨b, cs, rfl, hb⟩ := htag.eq_cons
      rw [step_eq_enter hp.1 hb]
      exact enter_eq_more_iff.mpr ⟨_, _, .paired, _, htag, hrep, hp, fun _ => hdepth, rfl⟩
    | closing hclose hp =>
      obtain ⟨cs, rfl⟩ := hclose.eq_cons
      have hc : c.startsWith "</" = true := Cursor.startsWith_closing_iff.mpr ⟨_, hp.1⟩
      simp only [step, if_pos hc]
      exact (leave_eq_more_iff hc).mpr ⟨_, hclose, hp, rfl⟩

theorem keep_ne_done {grow : Node → Draft} {r : Except Error (Node × Cursor)} {d : Document} :
    keep grow r ≠ .ok (.done d) := by
  intro h
  obtain ⟨_, _, h⟩ := exists_of_bind_eq_ok h
  cases h

theorem leave_ne_done {leading : List Node} {o : OpenElement} {outer : List OpenElement}
    {d : Document} : leave leading o outer c ≠ .ok (.done d) := by
  intro h
  obtain ⟨_, _, h⟩ := exists_of_bind_eq_ok h
  cases h

theorem enter_ne_done {leading : List Node} {stack : List OpenElement} {d : Document} :
    enter limits leading stack c ≠ .ok (.done d) := by
  intro h
  obtain ⟨⟨tag, _⟩, _, h⟩ := exists_of_bind_eq_ok h
  simp only at h
  split at h
  · cases h
  · obtain ⟨_, _, h⟩ := exists_of_bind_eq_ok h
    cases h

/-- Reading is done only at the end of the input, behind the root element. -/
theorem step_eq_done_iff {draft : Draft} {d : Document} :
    step limits draft c = .ok (.done d) ↔
      c.rest = [] ∧ draft = ending d.leading d.root d.trailing.reverse := by
  constructor
  · intro h
    unfold step at h
    split at h
    · split at h
      · exact absurd h keep_ne_done
      · split at h
        · cases h
        · exact absurd h enter_ne_done
    · split at h
      · exact absurd h leave_ne_done
      · split at h
        · exact absurd h keep_ne_done
        · split at h
          · cases h
          · exact absurd h enter_ne_done
    · split at h
      · exact absurd h keep_ne_done
      · split at h
        · rename_i he
          cases h
          exact ⟨List.isEmpty_iff.mp he, by simp⟩
        · cases h
  · rintro ⟨he, rfl⟩
    have hend : c.atEnd = true := by simp [Cursor.atEnd, he]
    simp only [step, Cursor.outerLeaf?_atEnd he, if_pos hend, List.reverse_reverse]

theorem complete_of_turn {draft draft' : Draft} (h : Turn limits c c' draft draft') :
    complete limits draft c = complete limits draft' c' := by
  rw [complete]
  have hs := step_eq_more_iff.mpr h
  split
  · rename_i e he
    rw [hs] at he
    cases he
  · rename_i d hd
    rw [hs] at hd
    cases hd
  · rename_i d₁ c₁ hm
    rw [hs] at hm
    cases hm
    rfl

theorem complete_of_error {draft : Draft} {e : Error}
    (h : step limits draft c = .error e) : complete limits draft c = .error e := by
  rw [complete]
  split
  · rename_i e' he
    rw [h] at he
    cases he
    rfl
  · rename_i d hd
    rw [h] at hd
    cases hd
  · rename_i d₁ c₁ hm
    rw [h] at hm
    cases hm

theorem complete_of_done {draft : Draft} {d : Document}
    (h : step limits draft c = .ok (.done d)) : complete limits draft c = .ok d := by
  rw [complete]
  split
  · rename_i e he
    rw [h] at he
    cases he
  · rename_i d' hd
    rw [h] at hd
    cases hd
    rfl
  · rename_i d₁ c₁ hm
    rw [h] at hm
    cases hm

end Draft

end TextHoist
