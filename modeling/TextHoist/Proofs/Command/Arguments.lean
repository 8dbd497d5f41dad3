/-
  Which command lines ask for text to be moved. `Given.Takes` lists what an argument can add
  to what has been given: the input, a flag, an option with its value attached or behind it.
  A command line that asks for text to be moved is taken in that way from beginning to end
  (`scan_eq_move_iff`). Flags are never taken back, so one that stands anywhere before the end
  of the options has been given (`Given.Takes.has_of_mem`), and a flag that is left out changes
  nothing else (`Given.Takes.erase_check`).
-/
import TextHoist.Command.Options
import TextHoist.Proofs.Markup.ReadTag

namespace TextHoist.Command

/-! ## Spellings -/

namespace Argument

theorem ofString_check : ofString "--check" = .flag .check none := by decide

theorem ofString_listTags : ofString "--list-tags" = .flag .listTags none := by decide

theorem ofLong_eq_check {name : String} {attached : Option String}
    (h : ofLong name attached = .flag .check none) : name = "check" ∧ attached = none := by
  unfold ofLong at h
  split at h <;> cases h
  exact ⟨rfl, rfl⟩

theorem ofLong_ne_endOfOptions (name : String) (attached : Option String) :
    ofLong name attached ≠ .endOfOptions := by
  intro h
  unfold ofLong at h
  split at h <;> cases h

/-- The flag that asks for a report has one spelling. -/
theorem eq_of_ofString_check {a : String} (h : ofString a = .flag .check none) :
    a = "--check" := by
  unfold ofString at h
  split at h
  case h_2 long _ ha =>
    split at h
    case h_1 =>
      have hlong : String.ofList long = "check" := (ofLong_eq_check h).1
      rw [← String.ofList_toList (s := a), ha, ← String.toList_ofList (l := long), hlong]
      rfl
    case h_2 => exact absurd (ofLong_eq_check h).2 (by simp)
  all_goals cases h

theorem eq_of_ofString_endOfOptions {a : String} (h : ofString a = .endOfOptions) : a = "--" := by
  unfold ofString at h
  split at h
  case h_1 ha => rw [← String.ofList_toList (s := a), ha]
  case h_2 => split at h <;> exact absurd h (ofLong_ne_endOfOptions _ _)
  all_goals cases h

end Argument

/-! ## Taking in arguments -/

/-- A flag that is kept; the others decide at once. -/
def Flag.isKept : Flag → Bool
  | check | inPlace | listTags => true
  | help | version => false

namespace Given

/-- Whether a flag has been given. -/
def has (g : Given) : Flag → Bool
  | .check => g.check
  | .inPlace => g.inPlace
  | .listTags => g.listTags
  | .help | .version => false

/-- What has been given once a flag has been added. -/
def add (g : Given) : Flag → Given
  | .check => { g with check := true }
  | .inPlace => { g with inPlace := true }
  | .listTags => { g with listTags := true }
  | .help | .version => g

/-- The arguments lead from what has been given before them to what has been given behind
them; `ended` once no more options may come. -/
inductive Takes : Given → Bool → List String → Given → Prop
  | nil (g : Given) (ended : Bool) : Takes g ended [] g
  | input {g g₁ g' : Given} {ended : Bool} {a : String} {as : List String} :
      (ended = true ∨ Argument.ofString a = .plain) → g.addInput a = .ok g₁ →
      Takes g₁ ended as g' → Takes g ended (a :: as) g'
  | endOfOptions {g g' : Given} {a : String} {as : List String} :
      Argument.ofString a = .endOfOptions → Takes g true as g' → Takes g false (a :: as) g'
  | flag {g g' : Given} {f : Flag} {a : String} {as : List String} :
      Argument.ofString a = .flag f none → f.isKept = true → g.has f = false →
      Takes (g.add f) false as g' → Takes g false (a :: as) g'
  | attached {g g₁ g' : Given} {f : Field} {a v : String} {as : List String} :
      Argument.ofString a = .field f (some v) → g.addField f v = .ok g₁ →
      Takes g₁ false as g' → Takes g false (a :: as) g'
  | separate {g g₁ g' : Given} {f : Field} {a v : String} {as : List String} :
      Argument.ofString a = .field f none → Argument.ofString v = .plain →
      g.addField f v = .ok g₁ → Takes g₁ false as g' → Takes g false (a :: v :: as) g'

theorem job_eq_move_iff {g : Given} {o : Options} : g.job = .ok (.move o) ↔
    g.listTags = false ∧ ¬ (g.offset.isSome = true ∧ g.place.isSome = true) ∧
      ¬ (g.output.isSome = true ∧ g.inPlace = true) ∧
      ¬ (g.inPlace = true ∧ g.input.isNone = true) ∧
      o = { input := g.input, dialect := g.dialect, check := g.check, output := g.output,
            inPlace := g.inPlace,
            caret := (g.offset.map Caret.offset).or (g.place.map fun (l, c) => Caret.place l c) } := by
  unfold job
  constructor
  · intro h
    split at h
    case isTrue => split at h <;> cases h
    case isFalse hlist =>
      split at h
      case isTrue => cases h
      case isFalse hcaret =>
        split at h
        case isTrue => cases h
        case isFalse houtput =>
          split at h
          case isTrue => cases h
          case isFalse hinput =>
            cases h
            exact ⟨by simpa using hlist, hcaret, houtput, hinput, rfl⟩
  · intro ⟨hlist, hcaret, houtput, hinput, ho⟩
    rw [if_neg (by simp [hlist]), if_neg hcaret, if_neg houtput, if_neg hinput, ho]

theorem addInput_eq_ok_iff {g g' : Given} {a : String} : g.addInput a = .ok g' ↔
    g.input = none ∧ a.isEmpty = false ∧ g' = { g with input := some a } := by
  unfold addInput
  cases g.input with
  | some x => simp
  | none =>
    cases a.isEmpty with
    | true => simp
    | false => simp [eq_comm]

theorem put_eq_ok_iff {α : Type} {f : Field} {old value : Option α} {text : String}
    {set : α → Given} {g' : Given} : put f old value text set = .ok g' ↔
      old = none ∧ ∃ v, value = some v ∧ g' = set v := by
  unfold put
  cases old with
  | some x => simp
  | none =>
    cases value with
    | none => simp
    | some v => simp [eq_comm]

/-- An option with a value leaves the flags alone. -/
theorem addField_has {g g' : Given} {f : Field} {v : String} (h : g.addField f v = .ok g')
    (x : Flag) : g'.has x = g.has x := by
  cases f <;> obtain ⟨_, _, _, rfl⟩ := put_eq_ok_iff.mp h <;> cases x <;> rfl

theorem addInput_has {g g' : Given} {a : String} (h : g.addInput a = .ok g') (x : Flag) :
    g'.has x = g.has x := by
  obtain ⟨_, _, rfl⟩ := addInput_eq_ok_iff.mp h
  cases x <;> rfl

/-- It is taken in the same way whether or not a report has been asked for. -/
theorem addField_check {g g' : Given} {f : Field} {v : String} (h : g.addField f v = .ok g')
    (check : Bool) : ({ g with check } : Given).addField f v = .ok { g' with check } := by
  cases f <;> obtain ⟨hold, value, hvalue, rfl⟩ := put_eq_ok_iff.mp h <;>
    exact put_eq_ok_iff.mpr ⟨hold, value, hvalue, rfl⟩

theorem addInput_check {g g' : Given} {a : String} (h : g.addInput a = .ok g') (check : Bool) :
    ({ g with check } : Given).addInput a = .ok { g' with check } := by
  obtain ⟨hinput, ha, rfl⟩ := addInput_eq_ok_iff.mp h
  exact addInput_eq_ok_iff.mpr ⟨hinput, ha, rfl⟩

end Given

/-- Where text is to be moved, all arguments have been taken in. -/
theorem takes_of_scan {g : Given} {ended : Bool} {args : List String} {o : Options}
    (h : scan g ended args = .ok (.move o)) :
    ∃ g', g.Takes ended args g' ∧ g'.job = .ok (.move o) := by
  fun_induction scan g ended args with
  | case1 g ended => exact ⟨g, .nil g ended, h⟩
  | case2 g a as ih =>
    obtain ⟨g₁, hg, h⟩ := exists_of_bind_eq_ok h
    obtain ⟨g', hg', hjob⟩ := ih g₁ h
    exact ⟨g', .input (.inl rfl) hg hg', hjob⟩
  | case3 g ended a as hended ha ih =>
    obtain ⟨g', hg', hjob⟩ := ih h
    simp only [Bool.not_eq_true] at hended
    exact ⟨g', hended ▸ .endOfOptions ha hg', hjob⟩
  | case4 g ended a as hended ha ih =>
    obtain ⟨g₁, hg, h⟩ := exists_of_bind_eq_ok h
    obtain ⟨g', hg', hjob⟩ := ih g₁ h
    simp only [Bool.not_eq_true] at hended
    exact ⟨g', hended ▸ .input (.inr ha) hg hg', hjob⟩
  | case5 | case6 | case7 | case8 | case9 | case11 | case13 | case16 | case18 => cases h
  | case10 g ended a as hended ha hnew ih
  | case12 g ended a as hended ha hnew ih
  | case14 g ended a as hended ha hnew ih =>
    obtain ⟨g', hg', hjob⟩ := ih h
    simp only [Bool.not_eq_true] at hended hnew
    exact ⟨g', hended ▸ .flag ha rfl hnew hg', hjob⟩
  | case15 g ended a as hended f v ha ih =>
    obtain ⟨g₁, hg, h⟩ := exists_of_bind_eq_ok h
    obtain ⟨g', hg', hjob⟩ := ih g₁ h
    simp only [Bool.not_eq_true] at hended
    exact ⟨g', hended ▸ .attached ha hg hg', hjob⟩
  | case17 g ended a hended f ha v as hv ih =>
    obtain ⟨g₁, hg, h⟩ := exists_of_bind_eq_ok h
    obtain ⟨g', hg', hjob⟩ := ih g₁ h
    simp only [Bool.not_eq_true] at hended
    exact ⟨g', hended ▸ .separate ha hv hg hg', hjob⟩

theorem Given.Takes.scan_eq {g g' : Given} {ended : Bool} {args : List String}
    (h : g.Takes ended args g') : scan g ended args = g'.job := by
  induction h with
  | nil g ended => rfl
  | @input g g₁ g' ended a as ha hg _ ih =>
    cases ended with
    | true =>
      rw [scan, if_pos rfl, hg]
      exact ih
    | false =>
      have ha : Argument.ofString a = .plain := ha.resolve_left (by decide)
      rw [scan, if_neg (by decide), ha]
      simp only [hg]
      exact ih
  | endOfOptions ha _ ih =>
    rw [scan, if_neg (by decide), ha]
    exact ih
  | @flag g g' f a as ha hkept hnew _ ih =>
    rw [scan, if_neg (by decide), ha]
    cases f with
    | help | version => cases hkept
    | check | inPlace | listTags =>
      simp only [Given.has] at hnew
      simp only [hnew]
      exact ih
  | attached ha hg _ ih =>
    rw [scan, if_neg (by decide), ha]
    simp only [hg]
    exact ih
  | separate ha hv hg _ ih =>
    rw [scan, if_neg (by decide), ha]
    simp only [hv, if_pos, hg]
    exact ih

/-- A command line asks for text to be moved exactly if its arguments are all taken in and
go together. -/
theorem scan_eq_move_iff {g : Given} {ended : Bool} {args : List String} {o : Options} :
    scan g ended args = .ok (.move o) ↔ ∃ g', g.Takes ended args g' ∧ g'.job = .ok (.move o) := by
  constructor
  · exact takes_of_scan
  · intro ⟨g', hg', hjob⟩
    rw [hg'.scan_eq, hjob]

/-! ## Flags -/

namespace Given

variable {g g' : Given} {ended : Bool} {args : List String}

theorem has_add (g : Given) {f x : Flag} (h : g.has x = true) : (g.add f).has x = true := by
  cases f <;> cases x <;> first | rfl | exact h

theorem has_add_self (g : Given) {f : Flag} (h : f.isKept = true) : (g.add f).has f = true := by
  cases f <;> first | rfl | cases h

/-- A flag that has been given is not taken back. -/
theorem Takes.has (h : g.Takes ended args g') {x : Flag} (hx : g.has x = true) :
    g'.has x = true := by
  induction h with
  | nil => exact hx
  | input _ hg _ ih => exact ih ((addInput_has hg x).trans hx)
  | endOfOptions _ _ ih => exact ih hx
  | flag _ _ _ _ ih => exact ih (has_add _ hx)
  | attached _ hg _ ih => exact ih ((addField_has hg x).trans hx)
  | separate _ _ hg _ ih => exact ih ((addField_has hg x).trans hx)

/-- Behind the end of the options no flag is given. -/
theorem Takes.has_eq (h : g.Takes true args g') (x : Flag) : g'.has x = g.has x := by
  generalize hended : true = ended at h
  induction h with
  | nil => rfl
  | input _ hg _ ih => exact (ih hended).trans (addInput_has hg x)
  | endOfOptions | flag | attached | separate => cases hended

/-- The arguments that may be options. -/
def optionsOf (args : List String) : List String := args.takeWhile (· != "--")

theorem mem_optionsOf_cons {a b : String} {as : List String} (h : b ∈ optionsOf (a :: as)) :
    b = a ∧ a ≠ "--" ∨ b ∈ optionsOf as := by
  unfold optionsOf at h
  rw [List.takeWhile_cons] at h
  split at h
  case isTrue ha =>
    obtain rfl | h := List.mem_cons.mp h
    · exact .inl ⟨rfl, by simpa using ha⟩
    · exact .inr h
  case isFalse => cases h

/-- A flag among the options has been given. -/
theorem Takes.has_of_mem (h : g.Takes false args g') {b : String} {x : Flag}
    (hb : Argument.ofString b = .flag x none) (hmem : b ∈ optionsOf args) : g'.has x = true := by
  generalize hended : false = ended at h
  induction h with
  | nil => cases hmem
  | input ha hg _ ih =>
    obtain ⟨rfl, _⟩ | hmem := mem_optionsOf_cons hmem
    · rw [hb, ← hended] at ha
      simp at ha
    · exact ih hmem hended
  | endOfOptions ha _ ih =>
    obtain rfl := Argument.eq_of_ofString_endOfOptions ha
    simp [optionsOf] at hmem
  | flag ha hkept _ hrest ih =>
    obtain ⟨rfl, _⟩ | hmem := mem_optionsOf_cons hmem
    · obtain ⟨rfl, _⟩ := Argument.flag.inj (ha.symm.trans hb)
      exact hrest.has (has_add_self _ hkept)
    · exact ih hmem hended
  | attached ha _ _ ih =>
    obtain ⟨rfl, _⟩ | hmem := mem_optionsOf_cons hmem
    · cases ha.symm.trans hb
    · exact ih hmem hended
  | separate ha hv _ _ ih =>
    obtain ⟨rfl, _⟩ | hmem := mem_optionsOf_cons hmem
    · cases ha.symm.trans hb
    · obtain ⟨rfl, _⟩ | hmem := mem_optionsOf_cons hmem
      · cases hv.symm.trans hb
      · exact ih hmem hended

/-! ## Leaving a flag out -/

/-- What comes behind the wish for a report does not depend on it. -/
theorem Takes.uncheck (h : g.Takes ended args g') (hg : g.check = true) :
    ({ g with check := false } : Given).Takes ended args { g' with check := false } := by
  induction h with
  | nil g ended => exact .nil _ ended
  | input ha hadd _ ih =>
    exact .input ha (addInput_check hadd false) (ih ((addInput_has hadd .check).trans hg))
  | endOfOptions ha _ ih => exact .endOfOptions ha (ih hg)
  | @flag _ _ f _ _ ha hkept hnew _ ih =>
    cases f with
    | help | version => cases hkept
    | check =>
      rw [Given.has, hg] at hnew
      cases hnew
    | inPlace | listTags => exact .flag ha hkept hnew (ih hg)
  | attached ha hadd _ ih =>
    exact .attached ha (addField_check hadd false) (ih ((addField_has hadd .check).trans hg))
  | separate ha hv hadd _ ih =>
    exact .separate ha hv (addField_check hadd false) (ih ((addField_has hadd .check).trans hg))

/-- Without the wish for a report, the arguments are taken in as they were with it. -/
theorem Takes.erase_check (h : g.Takes false args g') (hg : g.check = false)
    (hg' : g'.check = true) :
    g.Takes false (args.erase "--check") { g' with check := false } := by
  have hne : ∀ {a : String} {x : Argument}, Argument.ofString a = x →
      x ≠ .flag .check none → a ≠ "--check" := by
    intro a x ha hx heq
    rw [heq, Argument.ofString_check] at ha
    exact hx ha.symm
  generalize hended : false = ended at h
  induction h with
  | nil => rw [hg] at hg'; cases hg'
  | @input g g₁ g' ended a as ha hadd _ ih =>
    subst hended
    have ha' := ha.resolve_left (by decide)
    rw [List.erase_cons_tail (by simpa using hne ha' (by simp))]
    exact .input ha hadd (ih ((addInput_has hadd .check).trans hg) hg' rfl)
  | endOfOptions _ hrest =>
    have hsame : _ = _ := hrest.has_eq .check
    simp only [Given.has, hg, hg'] at hsame
    cases hsame
  | @flag g g' f a as ha hkept hnew hrest ih =>
    cases f with
    | help | version => cases hkept
    | check =>
      obtain rfl := Argument.eq_of_ofString_check ha
      rw [List.erase_cons_head]
      have hunchecked := hrest.uncheck rfl
      have hsame : ({ g.add .check with check := false } : Given) = g := by
        rw [← hg]
        rfl
      rwa [hsame] at hunchecked
    | inPlace | listTags =>
      rw [List.erase_cons_tail (by simpa using hne ha (by simp))]
      exact .flag ha hkept hnew (ih hg hg' hended)
  | attached ha hadd _ ih =>
    rw [List.erase_cons_tail (by simpa using hne ha (by simp))]
    exact .attached ha hadd (ih ((addField_has hadd .check).trans hg) hg' hended)
  | separate ha hv hadd _ ih =>
    rw [List.erase_cons_tail (by simpa using hne ha (by simp)),
      List.erase_cons_tail (by simpa using hne hv (by simp))]
    exact .separate ha hv hadd (ih ((addField_has hadd .check).trans hg) hg' hended)

end Given

/-! ## Command lines -/

variable {args : List String} {o : Options}

theorem ofArguments_eq_move_iff : Job.ofArguments args = .ok (.move o) ↔
    ∃ g : Given, Given.Takes {} false args g ∧ g.job = .ok (.move o) :=
  scan_eq_move_iff

/-- A file is written over itself only if there is one, and then there is no other. -/
theorem ofArguments_inPlace (h : Job.ofArguments args = .ok (.move o)) (hin : o.inPlace = true) :
    o.output = none ∧ ∃ name, o.input = some name := by
  obtain ⟨g, _, hjob⟩ := ofArguments_eq_move_iff.mp h
  obtain ⟨_, _, houtput, hinput, rfl⟩ := Given.job_eq_move_iff.mp hjob
  have hin : g.inPlace = true := hin
  have hinput : g.input ≠ none := by simpa [hin] using hinput
  exact ⟨by simpa [hin] using houtput, Option.ne_none_iff_exists'.mp hinput⟩

/-- A report is made where one is asked for. -/
theorem ofArguments_check (h : Job.ofArguments args = .ok (.move o))
    (hmem : "--check" ∈ Given.optionsOf args) : o.check = true := by
  obtain ⟨g, hg, hjob⟩ := ofArguments_eq_move_iff.mp h
  obtain ⟨_, _, _, _, rfl⟩ := Given.job_eq_move_iff.mp hjob
  exact hg.has_of_mem Argument.ofString_check hmem

/-- Whoever asks for the list of elements does not ask for text to be moved. -/
theorem ofArguments_listTags (hmem : "--list-tags" ∈ Given.optionsOf args) :
    Job.ofArguments args ≠ .ok (.move o) := by
  intro h
  obtain ⟨g, hg, hjob⟩ := ofArguments_eq_move_iff.mp h
  have hlist : g.listTags = true := hg.has_of_mem Argument.ofString_listTags hmem
  rw [(Given.job_eq_move_iff.mp hjob).1] at hlist
  cases hlist

/-- Without the wish for a report a command line asks for the same otherwise. -/
theorem ofArguments_erase_check (h : Job.ofArguments args = .ok (.move o))
    (hcheck : o.check = true) :
    Job.ofArguments (args.erase "--check") = .ok (.move { o with check := false }) := by
  obtain ⟨g, hg, hjob⟩ := ofArguments_eq_move_iff.mp h
  obtain ⟨hlist, hcaret, houtput, hinput, rfl⟩ := Given.job_eq_move_iff.mp hjob
  exact ofArguments_eq_move_iff.mpr ⟨_, hg.erase_check rfl hcheck,
    Given.job_eq_move_iff.mpr ⟨hlist, hcaret, houtput, hinput, rfl⟩⟩

end TextHoist.Command
