/-
  What a command leaves alone. A file is written in one case only: text was to be moved and
  no report was asked for, a text was found and opened, the action ran on it without error,
  and its outcome is for a file (`run_writes`). Where a file would be written over itself the
  action has to have applied. Everything that is said here about files follows from that case.
-/
import TextHoist.Proofs.Command.Outcome

namespace TextHoist.Command

variable {args : List String} {o : Options} {stdin : List UInt8} {d : Directory}

/-- A command ends well, and of all files only the one it delivers to may have changed. -/
structure WritesOnly (destination : Option String) (d : Directory) (outcome : Result × Directory) :
    Prop where
  exit : outcome.1.exit = 0
  only : ∃ name, destination = some name ∧
    ∀ other, other ≠ name → outcome.2.read? other = d.read? other

/-- Handing over a text changes no file but the one that it is for. -/
theorem deliver_writes {log : List Log} {text : String}
    (h : ((o.deliver log text).settle d).2 ≠ d) :
    WritesOnly o.destination d ((o.deliver log text).settle d) := by
  obtain ⟨_, hexit, hdelivered⟩ | ⟨_, _, _, _, houtcome⟩ := settle_deliver o log text d
  · refine ⟨hexit, ?_⟩
    cases hdest : o.destination with
    | none =>
      rw [hdest] at hdelivered
      exact absurd hdelivered.2 h
    | some name =>
      rw [hdest] at hdelivered
      exact ⟨name, rfl, hdelivered.2.2⟩
  · rw [houtcome] at h
    exact absurd rfl h

/-- Once the action has been run, a file changes only if the action did not fail, and one that
would be written over itself only if the action applied. -/
theorem conclude_writes {s : String} {result : Except Error (Option String)}
    (h : ((o.conclude s result).settle d).2 ≠ d) :
    ∃ moved, result = .ok moved ∧ (o.inPlace = true → moved ≠ none) ∧
      WritesOnly o.destination d ((o.conclude s result).settle d) := by
  cases result with
  | error e => exact absurd rfl h
  | ok moved =>
    refine ⟨moved, rfl, ?_⟩
    cases moved with
    | some moved => exact ⟨fun _ => Option.some_ne_none moved, deliver_writes h⟩
    | none =>
      cases hplace : o.inPlace with
      | true =>
        simp only [Options.conclude, hplace] at h
        exact absurd rfl h
      | false =>
        simp only [Options.conclude, hplace] at h ⊢
        exact ⟨fun hin => absurd hin (by decide), deliver_writes h⟩

/-- Where a run changes a file, it has run the action and delivers what came of it. -/
theorem run_writes (h : (run args stdin d).2 ≠ d) :
    ∃ o s n moved, Job.ofArguments args = .ok (.move o) ∧ o.check = false ∧
      o.Finds stdin d s n ∧ MoveText.apply s n o.dialectOrImplied = .ok moved ∧
      (o.inPlace = true → moved ≠ none) ∧ WritesOnly o.destination d (run args stdin d) := by
  obtain ⟨o, hjob⟩ : ∃ o, Job.ofArguments args = .ok (.move o) := by
    unfold run at h
    split at h
    case h_5 o hjob => exact ⟨o, hjob⟩
    all_goals exact absurd rfl h
  obtain ⟨_, hrun, _⟩ | ⟨s, n, opened, hfinds, _, hrun⟩ := run_cases hjob stdin d
  · rw [hrun] at h
    exact absurd rfl h
  · cases hcheck : o.check with
    | true =>
      rw [hrun, hcheck] at h
      exact absurd rfl h
    | false =>
      rw [hcheck, if_neg (by decide)] at hrun
      rw [hrun] at h ⊢
      obtain ⟨moved, happly, hplace, hwrites⟩ := conclude_writes h
      exact ⟨o, s, n, moved, hjob, hcheck, hfinds, happly, hplace, hwrites⟩

/-- What does not apply where it is asked does not apply where it is run. -/
theorem apply_of_probe_none {s : String} {n : Nat} (h : MoveText.probe s n = .ok none)
    (dialect : Dialect) : MoveText.apply s n dialect = .ok none := by
  obtain ⟨opened, hopen⟩ := MoveText.openAt_of_probe h dialect
  have hnone : ({} : MoveText).resolve? opened = none :=
    Except.ok.inj ((MoveText.probe_of_openAt hopen).symm.trans h)
  rw [MoveText.apply_of_openAt hopen]
  obtain ⟨_, hs⟩ | ⟨_, _, ht, _⟩ | ⟨_, _, _, ht, _⟩ := opened.execute_cases {}
  · rw [hs]
    rfl
  · rw [hnone] at ht
    cases ht
  · rw [hnone] at ht
    cases ht

/-- A command damages no files. Whatever it is given, every file is left as it was but the one
for the output or, where that is to be written over, the one for the input. No file changes
where the command does not end well, where a report or the list of elements is asked for, or
where the input would be written over and the action does not apply. -/
theorem run_spares_files (args : List String) (stdin : List UInt8) (d : Directory) :
    let outcome := run args stdin d
    (∀ name, outcome.2.read? name ≠ d.read? name → ∃ o, Job.ofArguments args = .ok (.move o) ∧
      (o.output = some name ∨ o.inPlace = true ∧ o.input = some name)) ∧
    (outcome.1.exit ≠ 0 → outcome.2 = d) ∧
    ("--check" ∈ Given.optionsOf args ∨ "--list-tags" ∈ Given.optionsOf args → outcome.2 = d) ∧
    ∀ o s n, Job.ofArguments args = .ok (.move o) → o.inPlace = true → o.Finds stdin d s n →
      MoveText.probe s n = .ok none → outcome.2 = d := by
  intro outcome
  refine ⟨?_, ?_, ?_, ?_⟩
  · intro name hchanged
    have hne : outcome.2 ≠ d := fun heq => hchanged (by rw [heq])
    obtain ⟨o, _, _, _, hjob, _, _, _, _, _, written, hdest, hothers⟩ := run_writes hne
    obtain rfl : written = name :=
      Classical.byContradiction fun hne => hchanged (hothers name (Ne.symm hne))
    refine ⟨o, hjob, ?_⟩
    unfold Options.destination at hdest
    split at hdest
    case isTrue hplace => exact .inr ⟨hplace, hdest⟩
    case isFalse => exact .inl hdest
  · intro hexit
    refine Classical.byContradiction fun hne => ?_
    obtain ⟨_, _, _, _, _, _, _, _, _, hwrites⟩ := run_writes hne
    exact hexit hwrites.exit
  · intro hgiven
    refine Classical.byContradiction fun hne => ?_
    obtain ⟨o, _, _, _, hjob, hcheck, _⟩ := run_writes hne
    obtain hgiven | hgiven := hgiven
    · rw [ofArguments_check hjob hgiven] at hcheck
      cases hcheck
    · exact ofArguments_listTags hgiven hjob
  · intro o s n hjob hplace hfinds hprobe
    refine Classical.byContradiction fun hne => ?_
    obtain ⟨o', s', n', moved, hjob', _, hfinds', happly, hmoved, _⟩ := run_writes hne
    obtain rfl : o = o' := Job.move.inj (Except.ok.inj (hjob.symm.trans hjob'))
    obtain ⟨rfl, rfl⟩ := hfinds.unique hfinds'
    have hnone := apply_of_probe_none hprobe o.dialectOrImplied
    exact hmoved hplace (Except.ok.inj (happly.symm.trans hnone))

/-- A file that would be written over, where the caret is on a tag. -/
theorem run_spares_files_label :
    let args := ["--offset", "6", "--in-place", "--", "views/a.html"]
    let o : Options := { input := some "views/a.html", caret := some (.offset 6), inPlace := true }
    let d : Directory := { files := [("views/a.html", Text.bytes labelSource)] }
    Job.ofArguments args = .ok (.move o) ∧ o.Finds [] d labelSource 6 ∧
    MoveText.probe labelSource 6 = .ok none ∧ (run args [] d).1.exit = 0 ∧
    (run args [] d).2 = d := by
  intro args o d
  have hargs : Job.ofArguments args = .ok (.move o) := toOption_eq_some_iff.mp (by decide)
  have hfinds : o.Finds [] d labelSource 6 := ⟨by decide, by decide⟩
  have hprobe : MoveText.probe labelSource 6 = .ok none := by
    rw [MoveText.probe_eq_ok ofText_labelSource (by decide)]
    exact congrArg Except.ok (by decide)
  have hexit : (run args [] d).1.exit = 0 := by
    obtain ⟨opened, hopen⟩ := MoveText.openAt_of_probe hprobe o.dialectOrImplied
    rw [run_eq_conclude hargs rfl hfinds hopen, apply_of_probe_none hprobe]
    rfl
  obtain ⟨_, _, _, hkept⟩ := run_spares_files args [] d
  exact ⟨hargs, hfinds, hprobe, hexit, hkept o labelSource 6 hargs rfl hfinds hprobe⟩

end TextHoist.Command
