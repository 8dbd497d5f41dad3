/-
  The history is a stack. A commit puts the text before it on top and an undo takes the
  top off again, so what is left counts the commits that have not been undone
  (`Session.Sound.length_history`), and as many undos as a run made commits restore text,
  document and history from before the run (`Session.Sound.undo_run`), whatever else the
  run did. The document comes back with its spans, because it is the reading of a text
  that comes back.
-/
import TextHoist.Proofs.Editor.Invariant

namespace TextHoist.Session

/-- What some requests came to, one after the other. -/
def effects (s : Session) : List Request → List Effect
  | [] => []
  | r :: requests => r.effect (s.handle r).1 :: (s.handle r).2.effects requests

/-- What a session answers to some requests, one after the other. -/
def replies (s : Session) : List Request → List (Except Error Reply)
  | [] => []
  | r :: requests => (s.handle r).1 :: (s.handle r).2.replies requests

variable {s s' : Session}

theorem after_append (s : Session) (rs ts : List Request) :
    s.after (rs ++ ts) = (s.after rs).after ts :=
  List.foldl_append

theorem replies_append (s : Session) (rs ts : List Request) :
    s.replies (rs ++ ts) = s.replies rs ++ (s.after rs).replies ts := by
  induction rs generalizing s with
  | nil => rfl
  | cons r rs ih =>
    rw [List.cons_append, replies, replies, ih, List.cons_append]
    rfl

/-! ## Counting -/

theorem Step.length_history {effect : Effect} (h : s.Step effect s') :
    s'.history.length + [effect].count .undo = s.history.length + [effect].count .commit := by
  cases h with
  | keep => rfl
  | commit => rfl
  | undo hh => rw [hh]; rfl

/-- The texts to go back to are as many as the commits that have not been undone. -/
theorem Sound.length_history (h : s.Sound) (requests : List Request) :
    (s.after requests).history.length + (s.effects requests).count .undo =
      s.history.length + (s.effects requests).count .commit := by
  induction requests generalizing s with
  | nil => rfl
  | cons r requests ih =>
    have hstep := h.step r
    have hfirst := hstep.length_history
    have hrest := ih (hstep.sound h)
    have hcons : ∀ effect, (s.effects (r :: requests)).count effect =
        [r.effect (s.handle r).1].count effect +
          ((s.handle r).2.effects requests).count effect := by
      intro effect
      rw [effects, ← List.count_append]
      rfl
    rw [hcons, hcons]
    show ((s.handle r).2.after requests).history.length + _ = _
    omega

/-! ## Going back -/

/-- The same text, document and history. -/
structure Agrees (s t : Session) : Prop where
  source : s.source = t.source
  document : s.document = t.document
  history : s.history = t.history

theorem Step.agrees (h : s.Step .none s') : s'.Agrees s := by
  cases h
  exact ⟨rfl, rfl, rfl⟩

/-- An undo takes back what a commit did. -/
theorem Step.undo_commit {t : Session} (h : s.Sound) (hs : s.Step .commit s') (ht : t.Sound)
    (hlimits : t.limits = s.limits) (hagrees : t.Agrees s') :
    (t.handle .undo).1 = .ok (.undone true) ∧ (t.handle .undo).2.Agrees s := by
  obtain ⟨_, _, hhistory⟩ := hagrees
  cases hs with
  | commit =>
    rcases ht.undo_cases with ⟨hnil, _⟩ | ⟨t', hstep, hundo⟩
    · rw [hnil] at hhistory
      cases hhistory
    · cases hstep with
      | undo hh hd =>
        obtain ⟨rfl, rfl⟩ := List.cons.inj (hh.symm.trans hhistory)
        rw [hlimits, h.document] at hd
        cases hd
        simp only [handle, hundo]
        exact ⟨rfl, rfl, rfl, rfl⟩

theorem Agrees.trans {t u : Session} (h : s.Agrees t) (h' : t.Agrees u) : s.Agrees u :=
  ⟨h.source.trans h'.source, h.document.trans h'.document, h.history.trans h'.history⟩

/-- After a run in which nothing was undone, as many undos as it made commits succeed and
restore what was there before the run. -/
theorem Sound.undo_run (h : s.Sound) {run : List Request} {k : Nat}
    (hrun : Effect.undo ∉ s.effects run) (hk : (s.effects run).count .commit = k) :
    (s.after run).replies (List.replicate k .undo) = List.replicate k (.ok (.undone true)) ∧
      ((s.after run).after (List.replicate k .undo)).Agrees s := by
  subst hk
  induction run generalizing s with
  | nil => exact ⟨rfl, rfl, rfl, rfl⟩
  | cons r run ih =>
    rw [effects, List.mem_cons, not_or] at hrun
    obtain ⟨hr, hrun⟩ := hrun
    have hstep := h.step r
    have hsound := hstep.sound h
    obtain ⟨hreplies, hagrees⟩ := ih hsound hrun
    show ((s.handle r).2.after run).replies _ = _ ∧ (((s.handle r).2.after run).after _).Agrees s
    rw [effects]
    cases heffect : r.effect (s.handle r).1 with
    | none =>
      rw [heffect] at hstep
      rw [List.count_cons_of_ne (by decide)]
      exact ⟨hreplies, hagrees.trans hstep.agrees⟩
    | undo => exact absurd heffect.symm hr
    | commit =>
      -- the undo of this commit comes last, when all later ones are undone
      rw [heffect] at hstep
      obtain ⟨hsound', hlimits'⟩ := hsound.after run
      obtain ⟨hsound'', hlimits''⟩ := hsound'.after
        (List.replicate (((s.handle r).2.effects run).count .commit) .undo)
      obtain ⟨hreply, hback⟩ := hstep.undo_commit h hsound''
        (hlimits''.trans (hlimits'.trans hstep.limits)) hagrees
      rw [List.count_cons_self, List.replicate_succ', List.replicate_succ', replies_append,
        after_append, hreplies]
      exact ⟨by rw [replies, hreply]; rfl, hback⟩

/-- Undo is the inverse of commits, latest first. Whatever a session has been asked since
it was opened, an undo does not fail, and says that there is nothing to go back to exactly
if as many undos as commits have gone through. After any further run in which nothing is
undone, as many undos as the run made commits all go through and bring back text, document
and history from before it. -/
theorem undo_inverts_commits {source : String} {dialect : Dialect} {limits : Limits}
    (h : Session.ofText source dialect limits = .ok s) (requests : List Request) :
    let t := s.after requests
    (∃ undone, (t.handle .undo).1 = .ok (.undone undone) ∧
      (undone = false ↔
        (s.effects requests).count .undo = (s.effects requests).count .commit)) ∧
    ∀ run k, Effect.undo ∉ t.effects run → (t.effects run).count .commit = k →
      let u := (t.after run).after (List.replicate k .undo)
      (t.after run).replies (List.replicate k .undo) =
        List.replicate k (.ok (.undone true)) ∧
      u.source = t.source ∧ u.document = t.document ∧ u.history = t.history := by
  have hsound := sound_of_ofText h
  have hcount := hsound.length_history requests
  have hempty : s.history = [] := by
    obtain ⟨_, _, rfl⟩ := ofText_eq_ok_iff.mp h
    rfl
  rw [hempty, List.length_nil] at hcount
  obtain ⟨ht, _⟩ := hsound.after requests
  refine ⟨?_, ?_⟩
  · rcases ht.undo_cases with ⟨hnil, hundo⟩ | ⟨t', hstep, hundo⟩
    · refine ⟨false, by simp only [handle, hundo]; rfl, ?_⟩
      rw [hnil, List.length_nil] at hcount
      simp only [true_iff]
      omega
    · refine ⟨true, by simp only [handle, hundo]; rfl, ?_⟩
      cases hstep with
      | undo hh _ =>
        rw [hh, List.length_cons] at hcount
        simp only [reduceCtorEq, false_iff]
        omega
  · intro run k hrun hk
    obtain ⟨hreplies, hagrees⟩ := ht.undo_run hrun hk
    exact ⟨hreplies, hagrees.source, hagrees.document, hagrees.history⟩

/-- Two commits, one of them by the action, with a caret move and a failure between. -/
theorem undo_inverts_commits_label :
    Session.ofText labelSource .html {} = .ok labelSession ∧
    let run : List Request :=
      [.setCaret 24, .execute {}, .setCaret 3, .commit ⟨0, 1, ""⟩, .commit ⟨3, 5, "&lt;"⟩]
    labelSession.effects run = [.none, .commit, .none, .none, .commit] ∧
    (labelSession.after run).replies [.undo, .undo] =
      [.ok (.undone true), .ok (.undone true)] ∧
    ((labelSession.after run).after [.undo, .undo]).source = labelSource ∧
    ((labelSession.after run).after [.undo, .undo]).document = labelDocument := by
  refine ⟨ofText_labelSource, ?_⟩
  intro run
  have heffects : (labelSession.after []).effects run =
      [.none, .commit, .none, .none, .commit] := by
    decide +kernel
  obtain ⟨hreplies, hsource, hdocument, _⟩ := (undo_inverts_commits ofText_labelSource []).2 run 2
    (by rw [heffects]; decide) (by rw [heffects]; decide)
  exact ⟨heffects, hreplies, hsource, hdocument⟩

end TextHoist.Session
