/-
  What is offered can be done. The action resolves the caret the same way whether it is
  asked or run, so asking and running differ only in what comes after: the attribute has to
  be built, the patch applied and the result read again. None of that can fail for a target,
  as long as the table lists attributes that can be written: the target leads to an element
  of two tags, the patched text spells the edited document, and that keeps the limits of the
  old one. What is left is the size of the patched text (`Session.Sound.execute_target`).
-/
import TextHoist.Proofs.Editor.Invariant

namespace TextHoist

/-- The error of an input that is longer than allowed. -/
def Limits.tooLong (limits : Limits) : Error := ⟨.sizeExceeded limits.maxSize, .nowhere, none⟩

/-- An input that is too long is not looked at. -/
theorem Document.ofText_tooLong {limits : Limits} {s : String}
    (h : limits.maxSize < s.utf8ByteSize) : Document.ofText limits s = .error limits.tooLong := by
  have hsize : limits.checkSize (Text.bytes s).length = .error limits.tooLong := by
    unfold Limits.checkSize
    exact if_pos h
  unfold Document.ofText Document.parse
  rw [hsize]
  rfl

/-! ## Targets can be edited -/

namespace Session

variable {s : Session} {action : MoveText} {t : Target}

/-- A patch whose result is no document is refused, with the reason. -/
theorem commit_malformed {p : Patch} {source : String} {e : Error}
    (hp : p.apply s.source = .ok source)
    (hd : Document.ofText s.limits.whileEditing source = .error e) :
    s.commit p = .error (.malformed ("edit produced invalid markup: " ++ e.display)) := by
  unfold commit
  rw [hp]
  show (Except.mapError _ _ >>= _) = _
  rw [hd]
  rfl

/-- What the action comes to at a target: the edit is committed, unless the text would get
too long. -/
theorem Sound.execute_target (h : s.Sound) (htags : action.tags.Writable)
    (ht : action.resolve? s = some t) :
    ∃ edit source, s.document.hoist t s.dialect = .ok edit ∧
      edit.patch.apply s.source = .ok source ∧
      (source.utf8ByteSize ≤ s.limits.maxSize →
        ∃ s', action.execute s = (.ok (.applied t), s') ∧ s'.source = source) ∧
      (s.limits.maxSize < source.utf8ByteSize → action.execute s = (.error
        (.malformed ("edit produced invalid markup: " ++ s.limits.tooLong.display)), s)) := by
  obtain ⟨path, _, htarget⟩ := Option.bind_eq_some_iff.mp ht
  have htarget : s.document.target? action.tags path = some t := htarget
  obtain ⟨edit, he⟩ := Document.hoist_target htags htarget s.dialect
  obtain ⟨source, document, hp, _, _, _, hread⟩ := Document.ofText_hoist h.document htarget he
  refine ⟨edit, source, he, hp, ?_, ?_⟩
  · intro hsize
    have hcommit := commit_eq_ok_iff.mpr ⟨source, document, hp, hread hsize, rfl⟩
    exact ⟨_, execute_of_commit_ok ht he hcommit, rfl⟩
  · intro hsize
    have hlong : Document.ofText s.limits.whileEditing source = .error s.limits.tooLong :=
      Document.ofText_tooLong hsize
    exact execute_of_commit_error ht he (commit_malformed hp hlong)

/-! ## Asking and running -/

/-- Opens a text with the caret at an offset. -/
def openAt (source : String) (offset : Nat) (dialect : Dialect) : Except Error Session := do
  let s ← Session.ofText source dialect {}
  s.setCaret offset

theorem openAt_eq_ok_iff {source : String} {offset : Nat} {dialect : Dialect} :
    openAt source offset dialect = .ok s ↔ ∃ document, Document.ofText {} source = .ok document ∧
      Text.isBoundary source offset = true ∧
      s = { source, document, dialect, caret := offset } := by
  unfold openAt
  rw [bind_eq_ok_iff]
  constructor
  · intro h
    obtain ⟨s₀, h₀, hs⟩ := h
    obtain ⟨document, hd, rfl⟩ := ofText_eq_ok_iff.mp h₀
    obtain ⟨hb, rfl⟩ := setCaret_eq_ok_iff.mp hs
    exact ⟨document, hd, hb, rfl⟩
  · intro h
    obtain ⟨document, hd, hb, rfl⟩ := h
    exact ⟨_, ofText_eq_ok_iff.mpr ⟨document, hd, rfl⟩, setCaret_eq_ok_iff.mpr ⟨hb, rfl⟩⟩

theorem sound_of_openAt {source : String} {offset : Nat} {dialect : Dialect}
    (h : openAt source offset dialect = .ok s) : s.Sound := by
  obtain ⟨document, hd, hb, rfl⟩ := openAt_eq_ok_iff.mp h
  exact ⟨Document.ofText_whileEditing hd, hb, nofun⟩

/-- Whether a text opens there does not depend on the dialect. -/
theorem openAt_dialect (source : String) (offset : Nat) (dialect : Dialect) :
    openAt source offset dialect =
      (openAt source offset .xml).map fun s => { s with dialect } := by
  unfold openAt Session.ofText
  cases Document.ofText {} source with
  | error e => rfl
  | ok document =>
    show Session.setCaret _ offset = (Session.setCaret _ offset).map _
    unfold setCaret
    split
    · rfl
    · rfl

end Session

namespace MoveText

theorem probe_eq (source : String) (offset : Nat) :
    probe source offset = (Session.openAt source offset .xml).map ({} : MoveText).resolve? := by
  unfold probe Session.openAt
  cases Session.ofText source .xml {} with
  | error e => rfl
  | ok s => rfl

/-- The text that a run of the action leaves behind. -/
def result : Except Error Outcome × Session → Except Error (Option String)
  | (.ok (.applied _), s) => .ok (some s.source)
  | (.ok .notApplicable, _) => .ok none
  | (.error e, _) => .error e

theorem apply_eq (source : String) (offset : Nat) (dialect : Dialect) :
    apply source offset dialect = (do
      let s ← Session.openAt source offset dialect
      result (({} : MoveText).execute s)) := by
  unfold apply Session.openAt
  cases Session.ofText source dialect {} with
  | error e => rfl
  | ok s => rfl

section Opened

variable {source : String} {offset : Nat} {dialect : Dialect} {s : Session}

/-- What the caret is on does not depend on the dialect that the text is opened in. -/
theorem probe_of_openAt (h : Session.openAt source offset dialect = .ok s) :
    probe source offset = .ok (({} : MoveText).resolve? s) := by
  obtain ⟨document, hd, hb, rfl⟩ := Session.openAt_eq_ok_iff.mp h
  have hxml : Session.openAt source offset .xml =
      .ok { source, document, dialect := .xml, caret := offset } :=
    Session.openAt_eq_ok_iff.mpr ⟨document, hd, hb, rfl⟩
  rw [probe_eq, hxml]
  rfl

/-- In a text that is read, with the caret on a character boundary, the caret is on the target
that its node gives, if any. -/
theorem probe_eq_ok {d : Document} (hd : Document.ofText {} source = .ok d)
    (ho : Text.isBoundary source offset = true) :
    probe source offset = .ok ((d.nodeAt? offset true).bind (d.target? .builtin)) := by
  have hopen : Session.openAt source offset .xml =
      .ok { source, document := d, dialect := .xml, caret := offset } :=
    Session.openAt_eq_ok_iff.mpr ⟨d, hd, ho, rfl⟩
  exact probe_of_openAt hopen

theorem apply_of_openAt (h : Session.openAt source offset dialect = .ok s) :
    apply source offset dialect = result (({} : MoveText).execute s) := by
  rw [apply_eq, h]
  rfl

/-- Where something can be asked, the text opens in every dialect. -/
theorem openAt_of_probe {found : Option Target} (h : probe source offset = .ok found)
    (dialect : Dialect) : ∃ s, Session.openAt source offset dialect = .ok s := by
  rw [probe_eq] at h
  rw [Session.openAt_dialect]
  cases hs : Session.openAt source offset .xml with
  | error e =>
    rw [hs] at h
    cases h
  | ok s => exact ⟨_, rfl⟩

/-- Where something comes of a run, there was a target. -/
theorem resolve?_of_result (h : result (({} : MoveText).execute s) ≠ .ok none) :
    ∃ t, ({} : MoveText).resolve? s = some t := by
  obtain ⟨_, hs⟩ | ⟨t, _, ht, _⟩ | ⟨t, _, _, ht, _⟩ := s.execute_cases {}
  · rw [hs] at h
    exact absurd rfl h
  · exact ⟨t, ht⟩
  · exact ⟨t, ht⟩

theorem openAt_of_apply {moved : Option String} (h : apply source offset dialect = .ok moved) :
    ∃ s, Session.openAt source offset dialect = .ok s := by
  rw [apply_eq] at h
  obtain ⟨s, hs, _⟩ := exists_of_bind_eq_ok h
  exact ⟨s, hs⟩

/-- What is targeted is targeted from a node of the text. -/
theorem target?_of_probe {d : Document} {t : Target} (hd : Document.ofText {} source = .ok d)
    (h : probe source offset = .ok (some t)) : ∃ path, d.target? .builtin path = some t := by
  obtain ⟨s, hopen⟩ := openAt_of_probe h .xml
  obtain ⟨_, _, ho, _⟩ := Session.openAt_eq_ok_iff.mp hopen
  rw [probe_eq_ok hd ho] at h
  obtain ⟨path, _, ht⟩ := Option.bind_eq_some_iff.mp (Except.ok.inj h)
  exact ⟨path, ht⟩

/-- What a run leaves behind is the patched text of an edit to the target, if that is not too
long. -/
theorem apply_eq_some_iff {out : String} : apply source offset dialect = .ok (some out) ↔
    ∃ t d edit, probe source offset = .ok (some t) ∧ Document.ofText {} source = .ok d ∧
      d.hoist t dialect = .ok edit ∧ edit.patch.apply source = .ok out ∧
      out.utf8ByteSize ≤ Limits.maxSize {} := by
  constructor
  · intro h
    obtain ⟨s, hopen⟩ := openAt_of_apply h
    have hprobe := probe_of_openAt hopen
    rw [apply_of_openAt hopen] at h
    obtain ⟨_, hs⟩ | ⟨_, _, _, hs⟩ | ⟨t, edit, s', ht, he, hcommit, hs⟩ := s.execute_cases {}
    · rw [hs] at h
      cases h
    · rw [hs] at h
      cases h
    · rw [hs] at h
      cases h
      obtain ⟨d, hd, _, rfl⟩ := Session.openAt_eq_ok_iff.mp hopen
      obtain ⟨out, _, hpatched, hread, rfl⟩ := Session.commit_eq_ok_iff.mp hcommit
      rw [ht] at hprobe
      exact ⟨t, d, edit, hprobe, hd, he, hpatched, (Document.parse_eq_ok_iff.mp hread).1⟩
  · intro h
    obtain ⟨t, d, edit, hprobe, hd, he, hpatched, hsize⟩ := h
    obtain ⟨s, hopen⟩ := openAt_of_probe hprobe dialect
    have ht : ({} : MoveText).resolve? s = some t :=
      Except.ok.inj ((probe_of_openAt hopen).symm.trans hprobe)
    have htags : ({} : MoveText).tags.Writable := TagTable.builtin_writable
    obtain ⟨edit', out', he', hpatched', hdone, _⟩ :=
      (Session.sound_of_openAt hopen).execute_target htags ht
    obtain ⟨d', hd', _, rfl⟩ := Session.openAt_eq_ok_iff.mp hopen
    obtain rfl : d' = d := Except.ok.inj (hd'.symm.trans hd)
    obtain rfl : edit' = edit := Except.ok.inj (he'.symm.trans he)
    obtain rfl : out' = out := Except.ok.inj (hpatched'.symm.trans hpatched)
    obtain ⟨s', hrun, rfl⟩ := hdone hsize
    rw [apply_of_openAt hopen, hrun]
    rfl

end Opened

theorem probe_labelSource :
    probe labelSource 24 = .ok (some ⟨[1], "Label", "Content", "a & \"b\""⟩) := by
  rw [probe_eq_ok ofText_labelSource (by decide)]
  exact congrArg Except.ok (by decide)

theorem hoist_labelDocument :
    labelDocument.hoist ⟨[1], "Label", "Content", "a & \"b\""⟩ .html = .ok labelEdit :=
  toOption_eq_some_iff.mp (by decide +kernel)

/-- The label with its text moved, in HTML. -/
def movedLabel : String := "<W>é<Label Content=\"a &amp; &quot;b&quot;\" Content='x'></Label></W>"

theorem patch_labelSource : labelEdit.patch.apply labelSource = .ok movedLabel :=
  Patch.apply_eq_ok_iff.mpr ⟨"<W>é", "<Label Content='x'>a &amp; \"b\"</Label>", "</W>",
    by decide, by decide, by decide, by decide⟩

theorem apply_labelSource : apply labelSource 24 .html = .ok (some movedLabel) :=
  apply_eq_some_iff.mpr ⟨_, _, _, probe_labelSource, ofText_labelSource, hoist_labelDocument,
    patch_labelSource, by decide⟩

/-- Asking and running agree at every offset of every text. What is an error to ask is the
same error to run, and what does not apply changes nothing. What is offered is done, unless
the patched text would be too long. -/
theorem apply_agrees_probe (source : String) (offset : Nat) (dialect : Dialect) :
    (∀ e, probe source offset = .error e → apply source offset dialect = .error e) ∧
    (probe source offset = .ok none → apply source offset dialect = .ok none) ∧
    ∀ t, probe source offset = .ok (some t) → ∃ d edit patched,
      Document.ofText {} source = .ok d ∧ d.hoist t dialect = .ok edit ∧
      edit.patch.apply source = .ok patched ∧
      (patched.utf8ByteSize ≤ Limits.maxSize {} →
        apply source offset dialect = .ok (some patched)) ∧
      (Limits.maxSize {} < patched.utf8ByteSize → apply source offset dialect =
        .error (.malformed ("edit produced invalid markup: " ++ (Limits.tooLong {}).display))) := by
  have hopen := Session.openAt_dialect source offset dialect
  cases hs : Session.openAt source offset .xml with
  | error e =>
    rw [hs] at hopen
    rw [probe_eq, apply_eq, hs, hopen]
    refine ⟨fun e' he => ?_, fun h => ?_, fun t h => ?_⟩
    · cases he
      rfl
    · cases h
    · cases h
  | ok s =>
    rw [hs] at hopen
    -- what the caret is on does not depend on the dialect
    obtain ⟨s', hs', hresolve⟩ : ∃ s', Session.openAt source offset dialect = .ok s' ∧
        ({} : MoveText).resolve? s = ({} : MoveText).resolve? s' := ⟨_, hopen, rfl⟩
    have hprobe : probe source offset = .ok (({} : MoveText).resolve? s') := by
      rw [probe_eq, hs]
      exact congrArg Except.ok hresolve
    have happly : apply source offset dialect = result (({} : MoveText).execute s') := by
      rw [apply_eq, hs']
      rfl
    rw [hprobe, happly]
    refine ⟨fun e he => ?_, fun h => ?_, fun t h => ?_⟩
    · cases he
    · have hnone := Except.ok.inj h
      unfold execute
      rw [hnone]
      rfl
    · have hsome := Except.ok.inj h
      have htags : ({} : MoveText).tags.Writable := TagTable.builtin_writable
      obtain ⟨edit, patched, he, hp, hdone, hlong⟩ :=
        (Session.sound_of_openAt hs').execute_target htags hsome
      obtain ⟨d, hd, _, rfl⟩ := Session.openAt_eq_ok_iff.mp hs'
      refine ⟨d, edit, patched, hd, he, hp, fun hsize => ?_, fun hsize => ?_⟩
      · obtain ⟨s', hrun, rfl⟩ := hdone hsize
        rw [hrun]
        rfl
      · rw [hlong hsize]
        rfl

/-- The text of a label that has the attribute already, in HTML. -/
theorem apply_agrees_probe_label :
    probe labelSource 24 = .ok (some ⟨[1], "Label", "Content", "a & \"b\""⟩) ∧
    apply labelSource 24 .html = .ok (some
      "<W>é<Label Content=\"a &amp; &quot;b&quot;\" Content='x'></Label></W>") := by
  obtain ⟨d, edit, patched, hd, he, hp, hdone, _⟩ :=
    (apply_agrees_probe labelSource 24 .html).2.2 _ probe_labelSource
  obtain rfl := Except.ok.inj (hd.symm.trans ofText_labelSource)
  obtain rfl := Except.ok.inj (he.symm.trans hoist_labelDocument)
  obtain rfl := Except.ok.inj (hp.symm.trans patch_labelSource)
  exact ⟨probe_labelSource, hdone (by decide)⟩

end MoveText

end TextHoist
