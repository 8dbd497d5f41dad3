/-
  Limits as conditions on the finished tree. The reader checks its limits as it goes: the
  size before anything else, the depth at every opening tag, repeated attributes within the
  tag. None of that shows in what is read. A document is read under some limits exactly if
  it is read without any and keeps them as a whole (`Document.SpelledBy.within_limits_iff`):
  its paired elements are not nested too deep and, where attributes must not repeat, no
  element has one twice. What is kept under some limits is kept under wider ones
  (`Node.Within.relax`), so widening them changes nothing that was read.
-/
import TextHoist.Proofs.Markup.Productions
import TextHoist.Proofs.Markup.Replacement

namespace TextHoist

/-! ## Wider limits -/

namespace Limits

/-- The second limits admit whatever the first do. -/
instance : LE Limits where
  le limits wider := limits.maxDepth ≤ wider.maxDepth ∧ limits.maxSize ≤ wider.maxSize ∧
    (limits.allowRepeats = true → wider.allowRepeats = true)

theorem le_whileEditing (limits : Limits) : limits ≤ limits.whileEditing :=
  ⟨Nat.le_refl _, Nat.le_refl _, fun _ => rfl⟩

variable {limits wider : Limits}

theorem Admits.relax {as : List Attribute} (h : limits.Admits as) (hle : limits ≤ wider) :
    wider.Admits as :=
  h.imp_left hle.2.2

/-- No input of `size` bytes can break these limits: neither can it be longer, nor have more
elements inside each other than it has bytes. -/
structure Unlimited (limits : Limits) (size : Nat) : Prop where
  repeats_allowed : limits.allowRepeats = true
  size_le : size ≤ limits.maxSize
  depth_le : size ≤ limits.maxDepth

end Limits

variable {limits wider : Limits} {bs : List UInt8} {d : Document}

mutual

/-- Limits that are kept below some elements are kept below fewer, and so are wider ones. -/
theorem Node.Within.relax {k k' : Nat} (hle : limits ≤ wider) (hk : k' ≤ k) :
    ∀ {n : Node}, n.Within limits k → n.Within wider k'
  | .element .., ⟨hadmits, hdepth, hchildren⟩ => by
    refine ⟨hadmits.relax hle, fun hform => ?_, Node.WithinAll.relax hle (by omega) hchildren⟩
    have := hdepth hform
    have := hle.1
    omega
  | .leaf .., _ => trivial

theorem Node.WithinAll.relax {k k' : Nat} (hle : limits ≤ wider) (hk : k' ≤ k) :
    ∀ {ns : List Node}, WithinAll limits k ns → WithinAll wider k' ns
  | [], _ => trivial
  | _ :: _, ⟨hn, hns⟩ => ⟨hn.relax hle hk, Node.WithinAll.relax hle hk hns⟩

end

/-- What is read is read the same within wider limits. -/
theorem Document.parse_relax (hle : limits ≤ wider) (h : Document.parse limits bs = .ok d) :
    Document.parse wider bs = .ok d := by
  obtain ⟨hsize, hspelled, hwithin⟩ := Document.parse_eq_ok_iff.mp h
  have := hle.2.1
  exact Document.parse_eq_ok_iff.mpr ⟨by omega, hspelled, hwithin.relax hle (Nat.le_refl 0)⟩

/-! ## Limits and elements -/

/-- An element below one that keeps the limits keeps them. -/
theorem Element.within_descendant {e below : Element} {path : Path} {k : Nat}
    (h : e.toNode.Within limits k) (hbelow : e.descendant? path = some below) :
    below.toNode.Within limits k := by
  induction path generalizing e with
  | nil =>
    cases hbelow
    exact h
  | cons i path ih =>
    obtain ⟨ls, child, rs, _, hchildren, hchild⟩ := Element.descendant?_cons_iff.mp hbelow
    have hall : Node.WithinAll limits (k + 1) e.children := h.2.2
    rw [hchildren, Node.withinAll_iff] at hall
    have hwithin : child.toNode.Within limits (k + 1) := hall _ (by simp)
    exact ih (hwithin.relax ⟨Nat.le_refl _, Nat.le_refl _, id⟩ (Nat.le_succ k)) hchild

mutual

/-- Attributes apart, keeping the limits is a matter of depth alone. -/
theorem Node.within_of_whileEditing {k : Nat} : ∀ {n : Node}, n.Within limits.whileEditing k →
    (∀ e path below, n.element? = some e → e.descendant? path = some below →
      limits.Admits below.attributes) → n.Within limits k
  | .element _ _ children _ _, ⟨_, hdepth, hchildren⟩, hadmits => by
    refine ⟨hadmits _ [] _ rfl rfl, hdepth, Node.withinAll_of_whileEditing hchildren ?_⟩
    intro n hn e path below he hbelow
    obtain ⟨i, hi⟩ := List.getElem?_of_mem hn
    refine hadmits _ (i :: path) below rfl ?_
    show (children[i]? >>= fun n => n.element? >>= fun e => e.descendant? path) = some below
    rw [hi]
    show (n.element? >>= fun e => e.descendant? path) = some below
    rw [he]
    exact hbelow
  | .leaf .., _, _ => trivial

theorem Node.withinAll_of_whileEditing {k : Nat} : ∀ {ns : List Node},
    WithinAll limits.whileEditing k ns →
    (∀ n ∈ ns, ∀ e path below, n.element? = some e → e.descendant? path = some below →
      limits.Admits below.attributes) → WithinAll limits k ns
  | [], _, _ => trivial
  | n :: _, ⟨hn, hns⟩, hadmits =>
    ⟨Node.within_of_whileEditing hn (hadmits n List.mem_cons_self),
      Node.withinAll_of_whileEditing hns fun m hm => hadmits m (List.mem_cons_of_mem _ hm)⟩

end

theorem Element.within_iff {e : Element} {k : Nat} : e.toNode.Within limits k ↔
    e.toNode.Within limits.whileEditing k ∧
      ∀ path below, e.descendant? path = some below → limits.Admits below.attributes := by
  constructor
  · intro h
    refine ⟨h.relax limits.le_whileEditing (Nat.le_refl k), fun path below hbelow => ?_⟩
    exact (Element.within_descendant h hbelow).1
  · intro h
    refine Node.within_of_whileEditing h.1 fun e' path below he' hbelow => ?_
    obtain rfl : e = e' := by simpa using he'
    exact h.2 path below hbelow

/-- No element of the document has two attributes of one name. -/
def Document.DistinctAttributes (d : Document) : Prop :=
  ∀ path e, d.element? path = some e → (e.attributes.map (·.name)).Nodup

/-- What the limits ask of a document that is spelled out. -/
theorem Document.SpelledBy.within_limits_iff (h : d.SpelledBy bs) :
    d.root.toNode.Within limits 0 ↔
      d.nesting ≤ limits.maxDepth ∧ (limits.allowRepeats = true ∨ d.DistinctAttributes) := by
  have hnesting : d.root.toNode.Within limits.whileEditing 0 ↔ d.nesting ≤ limits.maxDepth :=
    h.within_iff rfl
  rw [Element.within_iff, hnesting]
  refine and_congr_right fun _ => ?_
  by_cases hrep : limits.allowRepeats = true
  · exact ⟨fun _ => .inl hrep, fun _ _ _ _ => .inl hrep⟩
  · exact ⟨fun h => .inr fun path e he => (h path e he).resolve_left hrep,
      fun h path e he => .inr (h.resolve_left hrep path e he)⟩

/-! ## The reader -/

/-- Without limits, everything that is spelled out is read. -/
theorem Document.parse_unlimited_iff (hunlimited : limits.Unlimited bs.length) :
    Document.parse limits bs = .ok d ↔ d.SpelledBy bs := by
  rw [Document.parse_eq_ok_iff]
  refine ⟨fun h => h.2.1, fun h => ⟨hunlimited.size_le, h, ?_⟩⟩
  have := h.nesting_le
  have := hunlimited.depth_le
  exact (h.within_iff hunlimited.repeats_allowed).mpr (by omega)

/-- Some bytes spell one document at most. -/
theorem Document.SpelledBy.unique {d' : Document} (h : d.SpelledBy bs) (h' : d'.SpelledBy bs) :
    d = d' := by
  have hunlimited : Limits.Unlimited ⟨bs.length, bs.length, true⟩ bs.length :=
    ⟨rfl, Nat.le_refl _, Nat.le_refl _⟩
  have hread := (Document.parse_unlimited_iff hunlimited).mpr h
  have hread' := (Document.parse_unlimited_iff hunlimited).mpr h'
  exact Except.ok.inj (hread.symm.trans hread')

/-- Limits decide whether a document is read and never what is read. Some bytes are read as a
document under some limits exactly if they are not too many, they are read as that document
without limits, its paired elements are nested no deeper than allowed and, unless attributes
may repeat, none of its elements has one twice. Wider limits read the same. -/
theorem Document.parse_limits_exact {limits unlimited : Limits} {bs : List UInt8} {d : Document}
    (hunlimited : unlimited.Unlimited bs.length) :
    (Document.parse limits bs = .ok d ↔
      bs.length ≤ limits.maxSize ∧ Document.parse unlimited bs = .ok d ∧
        d.nesting ≤ limits.maxDepth ∧ (limits.allowRepeats = true ∨ d.DistinctAttributes)) ∧
    ∀ wider, limits ≤ wider → Document.parse limits bs = .ok d →
      Document.parse wider bs = .ok d := by
  refine ⟨?_, fun wider hle h => Document.parse_relax hle h⟩
  rw [Document.parse_unlimited_iff hunlimited, Document.parse_eq_ok_iff]
  refine and_congr_right fun _ => and_congr_right fun hspelled => ?_
  exact hspelled.within_limits_iff

/-- A repeated attribute, two elements inside each other and one more that is a single tag. -/
def layeredSource : String := "<a x='1' x='2'><b><c/></b><b/></a>"

/-- Each of the limits is exact: none can be narrowed. -/
theorem Document.parse_limits_exact_layered :
    let input := Text.bytes layeredSource
    let unlimited : Limits := ⟨0xFFFFFFFFFFFFFFFF, 0xFFFFFFFFFFFFFFFF, true⟩
    ∃ d, unlimited.Unlimited input.length ∧ Document.parse unlimited input = .ok d ∧
      Document.parse ⟨2, 34, true⟩ input = .ok d ∧ Document.parse ⟨1, 34, true⟩ input ≠ .ok d ∧
      Document.parse ⟨2, 33, true⟩ input ≠ .ok d ∧ Document.parse ⟨2, 34, false⟩ input ≠ .ok d := by
  intro input unlimited
  have hlength : input.length = 34 := by decide +kernel
  have hunlimited : unlimited.Unlimited input.length := by
    rw [hlength]
    exact ⟨rfl, by decide, by decide⟩
  have hread : (Document.parse unlimited input).toOption.map
      (fun d => (d.nesting, d.root.attributes.map (·.name))) = some (2, ["x", "x"]) := by
    decide +kernel
  obtain ⟨d, hd, hshape⟩ := Option.map_eq_some_iff.mp hread
  obtain ⟨hnesting, hnames⟩ := Prod.mk.inj hshape
  have hparse := toOption_eq_some_iff.mp hd
  have hrepeated : ¬ d.DistinctAttributes := by
    intro h
    have := h [] d.root rfl
    rw [hnames] at this
    exact absurd this (by decide)
  refine ⟨d, hunlimited, hparse, ?_, ?_, ?_, ?_⟩
  · exact (Document.parse_limits_exact hunlimited).1.mpr
      ⟨Nat.le_of_eq hlength, hparse, Nat.le_of_eq hnesting, .inl rfl⟩
  · intro h
    have hle := ((Document.parse_limits_exact hunlimited).1.mp h).2.2.1
    rw [hnesting] at hle
    exact absurd hle (by decide)
  · intro h
    have hle := ((Document.parse_limits_exact hunlimited).1.mp h).1
    rw [hlength] at hle
    exact absurd hle (by decide)
  · intro h
    have hor := ((Document.parse_limits_exact hunlimited).1.mp h).2.2.2
    exact hrepeated (hor.resolve_left (by decide))

end TextHoist
