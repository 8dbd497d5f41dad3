/-
  What holds of a session all the time. `Session.Sound`: the document belongs to the text,
  the caret stands between two characters, and every text to go back to is a document.
  Whatever a sound session is asked, one of three things happens to it (`Session.Step`):
  caret and mark change, a commit goes through, or an undo does. Each keeps the session
  sound (`Session.Step.sound`), so every run does (`Session.Sound.after`).

  The history of a sound session holds documents only, so an undo cannot fail, and any
  other request that fails leaves the session as it was (`Session.Sound.handle_error`).
  A session is opened within stricter limits than it goes on with: its first text may not
  repeat attributes. What is read under the strict limits is read the same under the
  others (`Document.ofText_whileEditing`).
-/
import TextHoist.Editor.Request
import TextHoist.Proofs.Edit.Refinement

namespace TextHoist

/-- A patch starts between two characters of its result, too. -/
theorem Patch.isBoundary_start {p : Patch} {source result : String}
    (h : p.apply source = .ok result) : Text.isBoundary result p.start = true := by
  obtain ⟨before, _, after, _, hsize, _, rfl⟩ := Patch.apply_eq_ok_iff.mp h
  exact Text.isBoundary_iff.mpr ⟨before, p.replacement ++ after, String.append_assoc .., hsize⟩

/-! ## What a request can do -/

/-- What a request came to, as far as the history is concerned. -/
inductive Effect where
  | none
  | commit
  | undo
  deriving DecidableEq, Repr

/-- The effect of a request that was answered. -/
def Request.effect : Request → Except Error Reply → Effect
  | .commit _, .ok _ => .commit
  | .execute _, .ok (.ran (.applied _)) => .commit
  | .undo, .ok (.undone true) => .undo
  | _, _ => .none

namespace Session

theorem commit_eq_ok_iff {s s' : Session} {p : Patch} : s.commit p = .ok s' ↔
    ∃ source document, p.apply s.source = .ok source ∧
      Document.ofText s.limits.whileEditing source = .ok document ∧
      s' = { s with source, document, caret := p.start, history := s.source :: s.history } := by
  unfold commit
  constructor
  · intro h
    obtain ⟨source, hp, h⟩ := exists_of_bind_eq_ok h
    obtain ⟨document, hd, h⟩ := exists_of_bind_eq_ok h
    cases h
    exact ⟨source, document, hp, mapError_eq_ok_iff.mp hd, rfl⟩
  · rintro ⟨source, document, hp, hd, rfl⟩
    rw [hp]
    show (Except.mapError _ _ >>= _) = _
    rw [hd]
    rfl

/-- The ways a session goes on from a request. -/
inductive Step (s : Session) : Effect → Session → Prop
  | keep {caret : Nat} (dirty : Bool) : Text.isBoundary s.source caret = true →
      Step s .none { s with caret, dirty }
  | commit {p : Patch} {source : String} {document : Document} (dirty : Bool) :
      p.apply s.source = .ok source →
      Document.ofText s.limits.whileEditing source = .ok document →
      Step s .commit
        { s with source, document, caret := p.start, history := s.source :: s.history, dirty }
  | undo {source : String} {history : List String} {document : Document} :
      s.history = source :: history →
      Document.ofText s.limits.whileEditing source = .ok document →
      Step s .undo { s with source, document, history, dirty := true
                            caret := Text.boundaryBefore source (min s.caret source.utf8ByteSize) }

/-- Text, document, caret and history belong together. -/
structure Sound (s : Session) : Prop where
  document : Document.ofText s.limits.whileEditing s.source = .ok s.document
  caret : Text.isBoundary s.source s.caret = true
  history : ∀ text ∈ s.history, ∃ d, Document.ofText s.limits.whileEditing text = .ok d

variable {s s' : Session}

/-- Nothing happened. -/
theorem Sound.refl (h : s.Sound) : s.Step .none s := .keep s.dirty h.caret

theorem setCaret_eq_ok_iff {offset : Nat} : s.setCaret offset = .ok s' ↔
    Text.isBoundary s.source offset = true ∧ s' = { s with caret := offset } := by
  unfold setCaret
  split
  case isTrue hb =>
    constructor
    · intro h
      cases h
      exact ⟨hb, rfl⟩
    · rintro ⟨_, rfl⟩
      rfl
  case isFalse hb =>
    constructor
    · nofun
    · exact fun h => absurd h.1 hb

/-- A caret move by line and column is one by offset, or an error. -/
theorem setCaretAt_eq_ok {line column : Nat} (h : s.setCaretAt line column = .ok s') :
    ∃ offset, s.setCaret offset = .ok s' := by
  unfold setCaretAt at h
  split at h
  · exact ⟨_, h⟩
  · cases h

section Execute

variable {action : MoveText} {t : Target} {edit : Edit}

/-- The action at a target is done if its edit is committed. -/
theorem execute_of_commit_ok (ht : action.resolve? s = some t)
    (he : s.document.hoist t s.dialect = .ok edit) (hc : s.commit edit.patch = .ok s') :
    action.execute s = (.ok (.applied t), s'.markDirty) := by
  have he : (Host.document s).hoist t (Host.dialect s) = .ok edit := he
  have hc : Host.commit s edit.patch = (.ok (), s') := by simp only [Host.commit, hc]
  simp only [MoveText.execute, ht, he, hc]
  rfl

/-- If its edit is refused, the action fails for the same reason. -/
theorem execute_of_commit_error {e : Error} (ht : action.resolve? s = some t)
    (he : s.document.hoist t s.dialect = .ok edit) (hc : s.commit edit.patch = .error e) :
    action.execute s = (.error e, s) := by
  have he : (Host.document s).hoist t (Host.dialect s) = .ok edit := he
  have hc : Host.commit s edit.patch = (.error e, s) := by simp only [Host.commit, hc]
  simp only [MoveText.execute, ht, he, hc]

end Execute

/-- The action does not apply, or fails, or commits an edit to its target. Only then does
the session change. -/
theorem execute_cases (action : MoveText) (s : Session) :
    (action.resolve? s = none ∧ action.execute s = (.ok .notApplicable, s)) ∨
    (∃ t e, action.resolve? s = some t ∧ action.execute s = (.error e, s)) ∨
    ∃ t edit s', action.resolve? s = some t ∧ s.document.hoist t s.dialect = .ok edit ∧
      s.commit edit.patch = .ok s' ∧ action.execute s = (.ok (.applied t), s'.markDirty) := by
  cases ht : action.resolve? s with
  | none => exact .inl ⟨rfl, by simp [MoveText.execute, ht]⟩
  | some t =>
    right
    cases he : s.document.hoist t s.dialect with
    | error e =>
      refine .inl ⟨t, e, rfl, ?_⟩
      have he : (Host.document s).hoist t (Host.dialect s) = .error e := he
      simp only [MoveText.execute, ht, he]
    | ok edit =>
      cases hc : s.commit edit.patch with
      | error e => exact .inl ⟨t, e, rfl, execute_of_commit_error ht he hc⟩
      | ok s' => exact .inr ⟨t, edit, s', rfl, he, hc, execute_of_commit_ok ht he hc⟩

/-- An undo has nothing to go back to, or goes back to the latest text. -/
theorem Sound.undo_cases (h : s.Sound) :
    (s.history = [] ∧ s.undo = (.ok false, s)) ∨
      ∃ s', s.Step .undo s' ∧ s.undo = (.ok true, s') := by
  cases hh : s.history with
  | nil => exact .inl ⟨rfl, by simp [undo, hh]⟩
  | cons source history =>
    obtain ⟨document, hd⟩ := h.history source (by simp [hh])
    exact .inr ⟨_, .undo hh hd, by simp [undo, hh, hd]⟩

theorem update_cases (s : Session) (r : Except Error Session) :
    (∃ e, s.update r = (.error e, s)) ∨ ∃ s', r = .ok s' ∧ s.update r = (.ok .done, s') := by
  cases r with
  | error e => exact .inl ⟨e, rfl⟩
  | ok s' => exact .inr ⟨s', rfl, rfl⟩

/-- A request to a sound session fails and changes nothing, or the session takes a step. -/
theorem Sound.handle_cases (h : s.Sound) (r : Request) :
    (∃ e, s.handle r = (.error e, s)) ∨
      ∃ reply s', s.handle r = (.ok reply, s') ∧ s.Step (r.effect (.ok reply)) s' := by
  cases r with
  | setCaret offset =>
    refine (s.update_cases (s.setCaret offset)).imp_right ?_
    rintro ⟨s', hs, hu⟩
    obtain ⟨hb, rfl⟩ := setCaret_eq_ok_iff.mp hs
    exact ⟨_, _, hu, .keep s.dirty hb⟩
  | setCaretAt line column =>
    refine (s.update_cases (s.setCaretAt line column)).imp_right ?_
    rintro ⟨s', hs, hu⟩
    obtain ⟨offset, hs⟩ := setCaretAt_eq_ok hs
    obtain ⟨hb, rfl⟩ := setCaret_eq_ok_iff.mp hs
    exact ⟨_, _, hu, .keep s.dirty hb⟩
  | commit p =>
    refine (s.update_cases (s.commit p)).imp_right ?_
    rintro ⟨s', hs, hu⟩
    obtain ⟨source, document, hp, hd, rfl⟩ := commit_eq_ok_iff.mp hs
    exact ⟨_, _, hu, .commit s.dirty hp hd⟩
  | execute action =>
    rcases s.execute_cases action with ⟨_, hr⟩ | ⟨_, e, _, hr⟩ | ⟨t, edit, s', _, _, hc, hr⟩
    · exact .inr ⟨.ran .notApplicable, s, by simp only [handle, hr]; rfl, h.refl⟩
    · exact .inl ⟨e, by simp only [handle, hr]; rfl⟩
    · obtain ⟨source, document, hp, hd, rfl⟩ := commit_eq_ok_iff.mp hc
      exact .inr ⟨.ran (.applied t), _, by simp only [handle, hr]; rfl, .commit true hp hd⟩
  | undo =>
    rcases h.undo_cases with ⟨_, hu⟩ | ⟨s', hs, hu⟩
    · exact .inr ⟨.undone false, s, by simp only [handle, hu]; rfl, h.refl⟩
    · exact .inr ⟨.undone true, s', by simp only [handle, hu]; rfl, hs⟩
  | markDirty => exact .inr ⟨_, _, rfl, .keep true h.caret⟩
  | markSaved => exact .inr ⟨_, _, rfl, .keep false h.caret⟩

/-- Whatever a sound session is asked, it takes a step. -/
theorem Sound.step (h : s.Sound) (r : Request) :
    s.Step (r.effect (s.handle r).1) (s.handle r).2 := by
  rcases h.handle_cases r with ⟨e, he⟩ | ⟨reply, s', hr, hs⟩
  · rw [he]
    have hnone : r.effect (.error e) = .none := by cases r <;> rfl
    rw [hnone]
    exact h.refl
  · rw [hr]
    exact hs

/-- A request that fails leaves a sound session as it was. -/
theorem Sound.handle_error (h : s.Sound) {r : Request} {e : Error}
    (he : (s.handle r).1 = .error e) : (s.handle r).2 = s := by
  rcases h.handle_cases r with ⟨e, hr⟩ | ⟨reply, s', hr, _⟩
  · rw [hr]
  · rw [hr] at he
    cases he

/-! ## Runs -/

theorem Step.limits {effect : Effect} (h : s.Step effect s') : s'.limits = s.limits := by
  cases h <;> rfl

theorem Step.sound {effect : Effect} (h : s.Sound) (hs : s.Step effect s') : s'.Sound := by
  cases hs with
  | keep dirty hb => exact ⟨h.document, hb, h.history⟩
  | commit dirty hp hd =>
    refine ⟨hd, Patch.isBoundary_start hp, ?_⟩
    intro text ht
    rcases List.mem_cons.mp ht with rfl | ht
    · exact ⟨_, h.document⟩
    · exact h.history text ht
  | undo hh hd =>
    refine ⟨hd, Text.isBoundary_boundaryBefore _ _, ?_⟩
    intro text ht
    exact h.history text (by rw [hh]; exact List.mem_cons_of_mem _ ht)

theorem Sound.after (h : s.Sound) (requests : List Request) :
    (s.after requests).Sound ∧ (s.after requests).limits = s.limits := by
  induction requests generalizing s with
  | nil => exact ⟨h, rfl⟩
  | cons r requests ih =>
    have hstep := h.step r
    obtain ⟨hsound, hlimits⟩ := ih (hstep.sound h)
    exact ⟨hsound, hlimits.trans hstep.limits⟩

/-- A session is opened on a document of its own, with nothing to go back to. -/
theorem ofText_eq_ok_iff {source : String} {dialect : Dialect} {limits : Limits} :
    Session.ofText source dialect limits = .ok s ↔
      ∃ document, Document.ofText limits source = .ok document ∧
        s = { source, document, dialect, limits } := by
  unfold Session.ofText
  constructor
  · intro h
    obtain ⟨document, hd, h⟩ := exists_of_bind_eq_ok h
    cases h
    exact ⟨document, hd, rfl⟩
  · rintro ⟨document, hd, rfl⟩
    rw [hd]
    rfl

theorem sound_of_ofText {source : String} {dialect : Dialect} {limits : Limits}
    (h : Session.ofText source dialect limits = .ok s) : s.Sound := by
  obtain ⟨document, hd, rfl⟩ := ofText_eq_ok_iff.mp h
  exact ⟨Document.ofText_whileEditing hd, Text.isBoundary_zero _, nofun⟩

/-- Whatever a session has been asked since it was opened, its document is what its text
reads as, its caret stands between two characters of the text, the text is not too long,
and each text to go back to is a document. A request that fails then changes nothing. -/
theorem consistent_after {source : String} {dialect : Dialect} {limits : Limits}
    (h : Session.ofText source dialect limits = .ok s) (requests : List Request) :
    let t := s.after requests
    Document.ofText limits.whileEditing t.source = .ok t.document ∧
    Text.isBoundary t.source t.caret = true ∧ t.caret ≤ t.source.utf8ByteSize ∧
    t.source.utf8ByteSize ≤ limits.maxSize ∧
    (∀ text ∈ t.history, ∃ d, Document.ofText limits.whileEditing text = .ok d) ∧
    ∀ r e, (t.handle r).1 = .error e → (t.handle r).2 = t := by
  obtain ⟨hsound, hlimits⟩ := (sound_of_ofText h).after requests
  have hs : s.limits = limits := by
    obtain ⟨_, _, rfl⟩ := ofText_eq_ok_iff.mp h
    rfl
  rw [hs] at hlimits
  have hdocument := hsound.document
  have hhistory := hsound.history
  rw [hlimits] at hdocument hhistory
  have hsize := (Document.parse_eq_ok_iff.mp hdocument).1
  exact ⟨hdocument, hsound.caret, Text.le_of_isBoundary hsound.caret, hsize, hhistory,
    fun r e he => hsound.handle_error he⟩

/-- The session on a document with a label. -/
def labelSession : Session := { source := labelSource, document := labelDocument, dialect := .html }

theorem ofText_labelSource : Session.ofText labelSource .html {} = .ok labelSession :=
  ofText_eq_ok_iff.mpr ⟨labelDocument, TextHoist.ofText_labelSource, rfl⟩

/-- An edit, and a caret that would have to stand inside a character. -/
theorem consistent_after_label :
    Session.ofText labelSource .html {} = .ok labelSession ∧
    let t := labelSession.after [.setCaret 24, .execute {}, .setCaret 4]
    t.history = [labelSource] ∧
    Document.ofText (Limits.whileEditing {}) t.source = .ok t.document ∧
    Text.isBoundary t.source t.caret = true ∧
    ∀ r e, (t.handle r).1 = .error e → (t.handle r).2 = t := by
  obtain ⟨hdocument, hcaret, _, _, _, herror⟩ :=
    consistent_after ofText_labelSource [.setCaret 24, .execute {}, .setCaret 4]
  exact ⟨ofText_labelSource, by decide +kernel, hdocument, hcaret, herror⟩

end Session

end TextHoist
