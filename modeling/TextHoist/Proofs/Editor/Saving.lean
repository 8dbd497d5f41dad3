/-
  No unsaved edit is hidden. A commit does not touch the mark of a session; whoever asks for
  it has to. The action does so once its commit has gone through, and an undo does so itself,
  so without commits from elsewhere a request marks the session whenever it changes the text
  (`Session.Sound.dirty_handle`). Only a save takes the mark off. What a clean session shows
  is therefore the text that was last saved, or else the one it was opened with: a run without
  saves leaves a clean session clean exactly if it never changed the text and was never told
  to mark it (`Session.Sound.dirty_after`).
-/
import TextHoist.Proofs.Editor.History

namespace TextHoist.Session

/-- Some requests, one after the other, neither change the text nor mark it as changed. -/
def Spares (s : Session) (requests : List Request) : Prop :=
  Request.markDirty ∉ requests ∧ ∀ effect ∈ s.effects requests, effect = .none

variable {s : Session} {r : Request} {run : List Request}

theorem spares_nil (s : Session) : s.Spares [] := by
  simp [Spares, effects]

theorem spares_cons_iff : s.Spares (r :: run) ↔
    (r ≠ .markDirty ∧ r.effect (s.handle r).1 = .none) ∧ (s.handle r).2.Spares run := by
  simp only [Spares, effects, List.mem_cons, not_or, forall_eq_or_imp]
  constructor
  · intro h
    obtain ⟨⟨hne, hrun⟩, heffect, heffects⟩ := h
    exact ⟨⟨Ne.symm hne, heffect⟩, hrun, heffects⟩
  · intro h
    obtain ⟨⟨hne, heffect⟩, hrun, heffects⟩ := h
    exact ⟨⟨Ne.symm hne, hrun⟩, heffect, heffects⟩

/-! ## One request -/

/-- A caret move leaves the mark alone, whether it succeeds or not. -/
theorem dirty_update_caret {result : Except Error Session}
    (h : ∀ s', result = .ok s' → ∃ offset, s.setCaret offset = .ok s') :
    (s.update result).2.dirty = s.dirty := by
  obtain ⟨e, hu⟩ | ⟨s', hs, hu⟩ := s.update_cases result
  · rw [hu]
  · obtain ⟨offset, hs⟩ := h s' hs
    obtain ⟨_, rfl⟩ := setCaret_eq_ok_iff.mp hs
    rw [hu]

/-- Commits and saves aside, a request leaves a clean session clean exactly if it neither
changes the text nor asks for the mark. -/
theorem Sound.dirty_handle (h : s.Sound) (hcommit : ∀ p, r ≠ .commit p) (hsave : r ≠ .markSaved) :
    (s.handle r).2.dirty = false ↔
      s.dirty = false ∧ r ≠ .markDirty ∧ r.effect (s.handle r).1 = .none := by
  cases r with
  | setCaret offset =>
    have hdirty : (s.handle (.setCaret offset)).2.dirty = s.dirty :=
      dirty_update_caret fun s' hs => ⟨offset, hs⟩
    rw [hdirty]
    exact ⟨fun hd => ⟨hd, by simp, rfl⟩, And.left⟩
  | setCaretAt line column =>
    have hdirty : (s.handle (.setCaretAt line column)).2.dirty = s.dirty :=
      dirty_update_caret fun s' hs => setCaretAt_eq_ok hs
    rw [hdirty]
    exact ⟨fun hd => ⟨hd, by simp, rfl⟩, And.left⟩
  | commit p => exact absurd rfl (hcommit p)
  | execute action =>
    obtain ⟨_, hr⟩ | ⟨_, e, _, hr⟩ | ⟨t, edit, s', _, _, _, hr⟩ := s.execute_cases action
    · simp [handle, hr, Request.effect, Except.map]
    · simp [handle, hr, Request.effect, Except.map]
    · simp [handle, hr, Request.effect, Except.map, markDirty]
  | undo =>
    obtain ⟨_, hu⟩ | ⟨s', hstep, hu⟩ := h.undo_cases
    · simp [handle, hu, Request.effect, Except.map]
    · have hdirty : s'.dirty = true := by
        cases hstep
        rfl
      simp [handle, hu, Request.effect, Except.map, hdirty]
  | markDirty => simp [handle, markDirty]
  | markSaved => exact absurd rfl hsave

/-! ## Runs -/

/-- A run without commits and saves leaves a session clean exactly if the session was clean
and the run spared it. -/
theorem Sound.dirty_after (h : s.Sound) (hcommit : ∀ p, Request.commit p ∉ run)
    (hsave : Request.markSaved ∉ run) :
    (s.after run).dirty = false ↔ s.dirty = false ∧ s.Spares run := by
  induction run generalizing s with
  | nil => exact ⟨fun hd => ⟨hd, s.spares_nil⟩, And.left⟩
  | cons r run ih =>
    simp only [List.mem_cons, not_or] at hcommit hsave
    have hfirst := h.dirty_handle (fun p hr => (hcommit p).1 hr.symm) (Ne.symm hsave.1)
    have hrest := ih ((h.step r).sound h) (fun p => (hcommit p).2) hsave.2
    show ((s.handle r).2.after run).dirty = false ↔ _
    rw [hrest, hfirst, spares_cons_iff]
    exact and_assoc

/-- A run that spares a session leaves its text as it was. -/
theorem Sound.source_after (h : s.Sound) (hspares : s.Spares run) :
    (s.after run).source = s.source := by
  induction run generalizing s with
  | nil => rfl
  | cons r run ih =>
    obtain ⟨⟨_, heffect⟩, hspares⟩ := spares_cons_iff.mp hspares
    have hstep := h.step r
    have hrest := ih (hstep.sound h) hspares
    rw [heffect] at hstep
    exact hrest.trans hstep.agrees.source

/-- No unsaved edit is hidden. Let a session be opened and asked for anything but commits. At
every point where it is clean, its text is the one that was last saved, or else the one it was
opened with; and it is clean exactly if since then no request changed the text or asked for
the mark. -/
theorem unsaved_edits_show {source : String} {dialect : Dialect} {limits : Limits}
    (h : Session.ofText source dialect limits = .ok s) {requests : List Request}
    (hcommit : ∀ p, Request.commit p ∉ requests) :
    let t := s.after requests
    (Request.markSaved ∉ requests →
      (t.dirty = false ↔ s.Spares requests) ∧ (t.dirty = false → t.source = source)) ∧
    ∀ before since, requests = before ++ .markSaved :: since → Request.markSaved ∉ since →
      let saved := s.after (before ++ [.markSaved])
      saved.source = (s.after before).source ∧
      (t.dirty = false ↔ saved.Spares since) ∧ (t.dirty = false → t.source = saved.source) := by
  have hsound := sound_of_ofText h
  refine ⟨fun hsave => ?_, ?_⟩
  · obtain ⟨_, _, rfl⟩ := ofText_eq_ok_iff.mp h
    have hclean := hsound.dirty_after hcommit hsave
    simp only [true_and] at hclean
    exact ⟨hclean, fun hd => hsound.source_after (hclean.mp hd)⟩
  · intro before since hrequests hsave saved
    subst hrequests
    have hsplit : s.after (before ++ .markSaved :: since) = saved.after since := by
      rw [← after_append, List.append_assoc]
      rfl
    have hsaved : saved = (s.after before).markSaved := after_append s before [.markSaved]
    have hdirty : saved.dirty = false := by
      rw [hsaved]
      rfl
    have hsound' : saved.Sound := (hsound.after _).1
    have hclean := hsound'.dirty_after (fun p hp => hcommit p (by simp [hp])) hsave
    simp only [hdirty, true_and] at hclean
    rw [hsplit]
    refine ⟨by rw [hsaved]; rfl, hclean, fun hd => ?_⟩
    exact hsound'.source_after (hclean.mp hd)

/-- An edit that is saved, and then a caret that cannot be put and an action that does not
apply. -/
theorem unsaved_edits_show_label :
    Session.ofText labelSource .html {} = .ok labelSession ∧
    let before : List Request := [.setCaret 24, .execute {}]
    let since : List Request := [.setCaret 4, .execute {}]
    (labelSession.after before).source ≠ labelSource ∧ (labelSession.after before).dirty = true ∧
    (labelSession.after (before ++ .markSaved :: since)).dirty = false ∧
    (labelSession.after (before ++ .markSaved :: since)).source =
      (labelSession.after before).source := by
  refine ⟨ofText_labelSource, ?_⟩
  intro before since
  have hrun : (labelSession.after before).source ≠ labelSource ∧
      (labelSession.after before).dirty = true ∧
      (labelSession.after (before ++ .markSaved :: since)).dirty = false := by
    decide +kernel
  obtain ⟨hedited, hdirty, hclean⟩ := hrun
  obtain ⟨hsaved, _, hsource⟩ := (unsaved_edits_show ofText_labelSource
    (by simp [before, since])).2 before since rfl (by simp [since])
  exact ⟨hedited, hdirty, hclean, (hsource hclean).trans hsaved⟩

end TextHoist.Session
