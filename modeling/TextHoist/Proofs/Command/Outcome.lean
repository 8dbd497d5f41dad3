/-
  What a command comes to. A command that is to move text finds a text and a place in it
  (`Options.Finds`), opens the text there, and then reports or acts. Whatever it is given, it
  fails before it has opened anything, or reports what the caret is on, or does with the
  outcome of the action what its options say: `Options.respond_cases`. So it does what asking
  and running do at that offset of that text, and adds where the result goes
  (`run_refines`). The dialect it works in is the one asked for, or else the one that the
  extension of its input implies, or else XML (`Options.worksIn_iff`).

  The session that a command acts in knows the file it came from, the one that the action is
  otherwise run in does not; the action does not look (`MoveText.execute_path`).
-/
import TextHoist.Command.Run
import TextHoist.Proofs.Command.Arguments
import TextHoist.Proofs.Editor.Availability

namespace TextHoist

/-! ## The file a session came from -/

theorem Session.commit_path (s : Session) (path : Option String) (p : Patch) :
    ({ s with path } : Session).commit p = (s.commit p).map fun s' => { s' with path } := by
  unfold Session.commit
  show (p.apply s.source >>= _) = (p.apply s.source >>= _ : Except Error Session).map _
  cases p.apply s.source with
  | error e => rfl
  | ok source =>
    show ((Document.ofText s.limits.whileEditing source).mapError _ >>= _) =
      ((Document.ofText s.limits.whileEditing source).mapError _ >>= _ : Except Error Session).map _
    cases Document.ofText s.limits.whileEditing source with
    | error e => rfl
    | ok document => rfl

/-- The action does the same to a text whichever file the text came from. -/
theorem MoveText.execute_path (action : MoveText) (s : Session) (path : Option String) :
    action.execute ({ s with path } : Session) =
      ((action.execute s).1, { (action.execute s).2 with path }) := by
  cases ht : action.resolve? s with
  | none =>
    have ht' : action.resolve? ({ s with path } : Session) = none := ht
    simp only [MoveText.execute, ht, ht']
  | some t =>
    have ht' : action.resolve? ({ s with path } : Session) = some t := ht
    cases he : s.document.hoist t s.dialect with
    | error e =>
      have he : (Host.document s).hoist t (Host.dialect s) = .error e := he
      have he' : (Host.document ({ s with path } : Session)).hoist t
          (Host.dialect ({ s with path } : Session)) = .error e := he
      simp only [MoveText.execute, ht, ht', he, he']
    | ok edit =>
      have hpath := s.commit_path path edit.patch
      cases hc : s.commit edit.patch with
      | error e =>
        rw [hc] at hpath
        rw [Session.execute_of_commit_error ht he hc, Session.execute_of_commit_error ht' he hpath]
      | ok s' =>
        rw [hc] at hpath
        rw [Session.execute_of_commit_ok ht he hc, Session.execute_of_commit_ok ht' he hpath]
        rfl

/-! ## The dialect -/

/-- The extensions that imply a dialect, in small letters. -/
def Dialect.extensions : Dialect → List String
  | .xml => ["xml", "xaml", "axaml", "svg"]
  | .html => ["html", "htm"]

theorem Dialect.ofExtension?_eq_some_iff {extension : String} {dialect : Dialect} :
    Dialect.ofExtension? extension = some dialect ↔ extension.toLower ∈ dialect.extensions := by
  unfold Dialect.ofExtension?
  split <;> cases dialect <;> simp_all [Dialect.extensions]

namespace Command

/-- What stands in a file name behind the last dot of its last part, something else standing
before that dot. -/
def HasExtension (name extension : String) : Prop :=
  ∃ folder stem : String, name = folder ++ stem ++ "." ++ extension ∧
    (∀ c ∈ folder.toList.getLast?, c = '/') ∧ stem ≠ "" ∧ '/' ∉ stem.toList ∧
    '/' ∉ extension.toList ∧ '.' ∉ extension.toList

/-- A list is cut before the first place where a character stands in it, and only there. -/
theorem cut_at_iff (c : Char) (l : List Char) {before after : List Char} :
    l.takeWhile (· != c) = before ∧ l.dropWhile (· != c) = after ↔
      l = before ++ after ∧ c ∉ before ∧ ∀ x ∈ after.head?, x = c := by
  constructor
  · rintro ⟨rfl, rfl⟩
    refine ⟨List.takeWhile_append_dropWhile.symm, fun hmem => ?_, fun x hx => ?_⟩
    · have := List.all_eq_true.mp List.all_takeWhile _ hmem
      simp at this
    · have := Text.head?_dropWhile_eq_false _ _ x hx
      simpa using this
  · rintro ⟨rfl, hbefore, hafter⟩
    have hpos : ∀ x ∈ before, (x != c) = true := by
      intro x hx
      rw [bne_iff_ne]
      rintro rfl
      exact hbefore hx
    rw [List.takeWhile_append_of_pos hpos, List.dropWhile_append_of_pos hpos]
    cases after with
    | nil => simp
    | cons x after =>
      obtain rfl : x = c := hafter x rfl
      simp

theorem extension?_eq_some_iff {name extension : String} :
    extension? name = some extension ↔ HasExtension name extension := by
  unfold extension?
  constructor
  · intro h
    dsimp only at h
    obtain ⟨hname, hslash, hfolder⟩ := (cut_at_iff '/' name.toList.reverse).mp ⟨rfl, rfl⟩
    generalize name.toList.reverse.takeWhile (· != '/') = base at hname hslash h
    generalize name.toList.reverse.dropWhile (· != '/') = folder at hname hfolder
    obtain ⟨hbase, hdot, hhead⟩ := (cut_at_iff '.' base).mp ⟨rfl, rfl⟩
    generalize base.takeWhile (· != '.') = ext at hbase hdot h
    split at h
    case h_2 => cases h
    case h_1 dot c cs hstem =>
      cases h
      rw [hstem] at hbase hhead
      obtain rfl : dot = '.' := hhead dot rfl
      rw [hbase] at hname hslash
      refine ⟨String.ofList folder.reverse, String.ofList (c :: cs).reverse, ?_, ?_, ?_, ?_, ?_, ?_⟩
      · rw [← String.toList_inj, ← List.reverse_inj, hname]
        simp
      · simpa using hfolder
      · simp
      · simp_all
      · simp_all
      · simpa using hdot
  · rintro ⟨folder, stem, rfl, hfolder, hstem, hslash, hslash', hdot⟩
    let base := extension.toList.reverse ++ '.' :: stem.toList.reverse
    have hreverse : (folder ++ stem ++ "." ++ extension).toList.reverse =
        base ++ folder.toList.reverse := by
      simp [base]
    have hmem : '/' ∉ base := by simp [base, hslash, hslash']
    obtain ⟨hbase, _⟩ := (cut_at_iff '/' _).mpr ⟨hreverse, hmem, by simpa using hfolder⟩
    obtain ⟨hext, hrest⟩ := (cut_at_iff '.' base).mpr ⟨rfl, by simpa using hdot, by simp⟩
    simp only [hbase, hext, hrest]
    cases hs : stem.toList.reverse with
    | nil => exact absurd (String.toList_eq_nil_iff.mp (List.reverse_eq_nil_iff.mp hs)) hstem
    | cons c cs => simp

/-- The dialect that a command works in: the one asked for, or else the one that the extension
of its input implies, or else XML. -/
inductive Options.WorksIn (o : Options) : Dialect → Prop
  | asked {dialect : Dialect} : o.dialect = some dialect → WorksIn o dialect
  | implied {dialect : Dialect} {name extension : String} : o.dialect = none →
      o.input = some name → HasExtension name extension →
      extension.toLower ∈ dialect.extensions → WorksIn o dialect
  | otherwise : o.dialect = none →
      (∀ name extension dialect, o.input = some name → HasExtension name extension →
        extension.toLower ∉ Dialect.extensions dialect) → WorksIn o .xml

theorem Options.worksIn_iff {o : Options} {dialect : Dialect} :
    o.WorksIn dialect ↔ dialect = o.dialectOrImplied := by
  have himplied : ∀ {dialect : Dialect},
      (o.input.bind extension?).bind Dialect.ofExtension? = some dialect ↔
        ∃ name extension, o.input = some name ∧ HasExtension name extension ∧
          extension.toLower ∈ dialect.extensions := by
    intro dialect
    simp only [Option.bind_eq_some_iff, extension?_eq_some_iff, Dialect.ofExtension?_eq_some_iff]
    constructor
    · rintro ⟨extension, ⟨name, hname, hext⟩, hin⟩
      exact ⟨name, extension, hname, hext, hin⟩
    · rintro ⟨name, extension, hname, hext, hin⟩
      exact ⟨extension, ⟨name, hname, hext⟩, hin⟩
  unfold dialectOrImplied
  constructor
  · intro h
    cases h with
    | asked hasked => rw [hasked]; rfl
    | @implied _ name extension hnone hname hext hin =>
      rw [hnone, himplied.mpr ⟨name, extension, hname, hext, hin⟩]
      rfl
    | otherwise hnone hother =>
      cases hi : (o.input.bind extension?).bind Dialect.ofExtension? with
      | none => rw [hnone]; rfl
      | some dialect =>
        obtain ⟨name, extension, hname, hext, hin⟩ := himplied.mp hi
        exact absurd hin (hother name extension dialect hname hext)
  · rintro rfl
    cases hd : o.dialect with
    | some dialect => exact .asked hd
    | none =>
      cases hi : (o.input.bind extension?).bind Dialect.ofExtension? with
      | some dialect =>
        obtain ⟨name, extension, hname, hext, hin⟩ := himplied.mp hi
        exact .implied hd hname hext hin
      | none =>
        refine .otherwise hd fun name extension dialect hname hext hin => ?_
        rw [himplied.mpr ⟨name, extension, hname, hext, hin⟩] at hi
        cases hi

/-! ## What a command finds -/

/-- The byte offset that a caret means in a text. -/
def Caret.offset? (s : String) : Caret → Option Nat
  | offset n => some n
  | place line column => Text.offsetAt? s line column

namespace Options

/-- The text that a command works on, if there is one that can be read. One from standard
input must not be blank. -/
def source? (o : Options) (stdin : List UInt8) (d : Directory) : Option String :=
  match o.input with
  | some name => (d.read? name).bind Text.ofBytes?
  | none => (Text.ofBytes? stdin).filter fun s => !Text.isBlankText s

/-- A command works on a text, with the caret at an offset. -/
structure Finds (o : Options) (stdin : List UInt8) (d : Directory) (s : String) (n : Nat) :
    Prop where
  source : o.source? stdin d = some s
  caret : (o.caret.bind fun caret => caret.offset? s) = some n

/-- The file that a text is delivered to, standard output if there is none. -/
def destination (o : Options) : Option String := if o.inPlace then o.input else o.output

variable {o : Options} {stdin : List UInt8} {d : Directory} {s : String} {n : Nat}

theorem Finds.unique {s' : String} {n' : Nat} (h : o.Finds stdin d s n)
    (h' : o.Finds stdin d s' n') : s = s' ∧ n = n' := by
  have hs : s = s' := Option.some.inj (h.source.symm.trans h'.source)
  subst hs
  exact ⟨rfl, Option.some.inj (h.caret.symm.trans h'.caret)⟩

theorem text_eq_ok_iff : (o.inputFrom d stdin).text = .ok s ↔ o.source? stdin d = some s := by
  unfold inputFrom source?
  cases o.input with
  | none =>
    cases ht : Text.ofBytes? stdin with
    | none => simp [Input.text, ht]
    | some t =>
      cases hblank : Text.isBlankText t with
      | true => simp [Input.text, ht, Option.filter, hblank]
      | false => simp [Input.text, ht, Option.filter, hblank]
  | some name =>
    cases hr : d.read? name with
    | none => simp [Input.text, hr]
    | some bs => cases ht : Text.ofBytes? bs <;> simp [Input.text, hr, ht]

theorem putCaret_eq_ok_iff {session session' : Session} : o.putCaret session = .ok session' ↔
    ∃ n, (o.caret.bind fun caret => caret.offset? session.source) = some n ∧
      session.setCaret n = .ok session' := by
  unfold putCaret
  cases o.caret with
  | none => simp
  | some caret =>
    cases caret with
    | offset n => simp [Caret.offset?, mapError_eq_ok_iff]
    | place line column =>
      unfold Session.setCaretAt
      simp only [Option.bind_some, Caret.offset?, mapError_eq_ok_iff]
      cases Text.offsetAt? session.source line column with
      | none => simp
      | some n => simp

/-- The session that a command acts in. -/
def prepare (o : Options) (input : Input) : Except String Session := do
  let source ← input.text
  let s ← (Session.ofText source o.dialectOrImplied {}).mapError fun e =>
    "failed to parse input: " ++ e.display
  o.putCaret { s with path := o.input }

theorem perform_eq (o : Options) (input : Input) :
    o.perform input = (do
      let s ← o.prepare input
      if o.check then return report s else o.moveText s) := by
  unfold perform prepare
  cases input.text with
  | error e => rfl
  | ok source =>
    show ((Session.ofText source o.dialectOrImplied {}).mapError _ >>= _) =
      ((Session.ofText source o.dialectOrImplied {}).mapError _ >>= _ >>= _)
    cases Session.ofText source o.dialectOrImplied {} with
    | error e => rfl
    | ok s => rfl

/-- A command acts where the text that it finds opens. -/
theorem prepare_eq_ok_iff {session : Session} :
    o.prepare (o.inputFrom d stdin) = .ok session ↔
      ∃ s n opened, o.Finds stdin d s n ∧ Session.openAt s n o.dialectOrImplied = .ok opened ∧
        session = { opened with path := o.input } := by
  unfold prepare
  constructor
  · intro h
    obtain ⟨s, hs, h⟩ := exists_of_bind_eq_ok h
    obtain ⟨session₀, h₀, h⟩ := exists_of_bind_eq_ok h
    obtain ⟨document, hd, rfl⟩ := Session.ofText_eq_ok_iff.mp (mapError_eq_ok_iff.mp h₀)
    obtain ⟨n, hn, h⟩ := putCaret_eq_ok_iff.mp h
    obtain ⟨hb, rfl⟩ := Session.setCaret_eq_ok_iff.mp h
    exact ⟨s, n, _, ⟨text_eq_ok_iff.mp hs, hn⟩,
      Session.openAt_eq_ok_iff.mpr ⟨document, hd, hb, rfl⟩, rfl⟩
  · intro ⟨s, n, opened, hfinds, hopen, hsession⟩
    obtain ⟨document, hd, hb, rfl⟩ := Session.openAt_eq_ok_iff.mp hopen
    subst hsession
    refine bind_eq_ok_iff.mpr ⟨s, text_eq_ok_iff.mpr hfinds.source, bind_eq_ok_iff.mpr
      ⟨_, mapError_eq_ok_iff.mpr (Session.ofText_eq_ok_iff.mpr ⟨document, hd, rfl⟩), ?_⟩⟩
    exact putCaret_eq_ok_iff.mpr ⟨n, hfinds.caret, Session.setCaret_eq_ok_iff.mpr ⟨hb, rfl⟩⟩

/-! ## What a command does with it -/

/-- What is logged where the action does not apply. -/
def notApplicable : Log := .warning (MoveText.name ++ " is not applicable at the caret")

/-- What a command comes to once the action has been run on a text. -/
def conclude (o : Options) (s : String) : Except Error (Option String) → Response
  | .ok (some moved) => o.deliver [] moved
  | .ok none => if o.inPlace then { log := [notApplicable] } else o.deliver [notApplicable] s
  | .error e => .failure e.display

theorem moveText_eq (o : Options) (session : Session) :
    (∀ moved, MoveText.result (({} : MoveText).execute session) = .ok moved →
      o.moveText session = .ok (o.conclude session.source (.ok moved))) ∧
    ∀ e, MoveText.result (({} : MoveText).execute session) = .error e →
      o.moveText session = .error e.display := by
  unfold moveText
  obtain ⟨_, hs⟩ | ⟨_, e, _, hs⟩ | ⟨t, edit, s', _, _, _, hs⟩ := session.execute_cases {}
  · rw [hs]
    refine ⟨fun moved h => ?_, fun e h => ?_⟩
    · cases h
      rfl
    · cases h
  · rw [hs]
    refine ⟨fun moved h => ?_, fun e h => ?_⟩
    · cases h
    · cases h
      rfl
  · rw [hs]
    refine ⟨fun moved h => ?_, fun e h => ?_⟩
    · cases h
      rfl
    · cases h

theorem result_path (session : Session) (path : Option String) :
    MoveText.result (({} : MoveText).execute ({ session with path } : Session)) =
      MoveText.result (({} : MoveText).execute session) := by
  rw [MoveText.execute_path]
  obtain ⟨_, hs⟩ | ⟨_, e, _, hs⟩ | ⟨t, edit, s', _, _, _, hs⟩ := session.execute_cases {}
  · rw [hs]
    rfl
  · rw [hs]
    rfl
  · rw [hs]
    rfl

/-- A command fails before it has opened a text, or reports what the caret is on, or does
with the outcome of the action what its options say. -/
theorem respond_cases (o : Options) (stdin : List UInt8) (d : Directory) :
    (∃ message, o.respond (o.inputFrom d stdin) = .failure message ∧
      ∀ s n opened, o.Finds stdin d s n →
        Session.openAt s n o.dialectOrImplied ≠ .ok opened) ∨
    ∃ s n opened, o.Finds stdin d s n ∧ Session.openAt s n o.dialectOrImplied = .ok opened ∧
      o.respond (o.inputFrom d stdin) =
        if o.check then report opened
        else o.conclude s (MoveText.apply s n o.dialectOrImplied) := by
  cases hp : o.prepare (o.inputFrom d stdin) with
  | error message =>
    refine .inl ⟨message, ?_, fun s n opened hfinds hopen => ?_⟩
    · rw [respond, perform_eq, hp]
      rfl
    · rw [prepare_eq_ok_iff.mpr ⟨s, n, opened, hfinds, hopen, rfl⟩] at hp
      cases hp
  | ok session =>
    obtain ⟨s, n, opened, hfinds, hopen, rfl⟩ := prepare_eq_ok_iff.mp hp
    refine .inr ⟨s, n, opened, hfinds, hopen, ?_⟩
    have hperform : o.perform (o.inputFrom d stdin) =
        if o.check then .ok (report opened) else o.moveText { opened with path := o.input } := by
      rw [perform_eq, hp]
      rfl
    rw [respond, hperform]
    cases o.check with
    | true => rfl
    | false =>
      obtain ⟨hok, herror⟩ := o.moveText_eq { opened with path := o.input }
      rw [result_path, ← MoveText.apply_of_openAt hopen] at hok herror
      have hsource : opened.source = s := by
        obtain ⟨_, _, _, rfl⟩ := Session.openAt_eq_ok_iff.mp hopen
        rfl
      rw [if_neg (by decide), if_neg (by decide)]
      cases hr : MoveText.apply s n o.dialectOrImplied with
      | error e =>
        rw [herror e hr]
        rfl
      | ok moved =>
        rw [hok moved hr, hsource]

end Options

/-! ## Where a result goes -/

/-- The text is in the one place where it was to go: printed, with no file changed, or in a
file, with nothing printed and no other file changed. -/
def Delivered (destination : Option String) (text : String) (d : Directory)
    (outcome : Result × Directory) : Prop :=
  match destination with
  | none => outcome.1.stdout = text ∧ outcome.2 = d
  | some name =>
    outcome.1.stdout = "" ∧ outcome.2.read? name = some (Text.bytes text) ∧
      ∀ other, other ≠ name → outcome.2.read? other = d.read? other

/-- The command failed: nothing is printed and no file changed. -/
structure Refused (d : Directory) (outcome : Result × Directory) : Prop where
  exit : outcome.1.exit = 1
  stdout : outcome.1.stdout = ""
  files : outcome.2 = d

theorem refused_failure (d : Directory) (message : String) :
    Refused d ((Response.failure message).result, d) :=
  ⟨rfl, rfl, rfl⟩

theorem refused_unwritten (d : Directory) (r : Response) (name reason : String) :
    Refused d ((r.unwritten name reason).result, d) :=
  ⟨rfl, rfl, rfl⟩

/-- What is handed over arrives, unless it is for a file that cannot be written. -/
theorem settle_deliver (o : Options) (log : List Log) (text : String) (d : Directory) :
    let outcome := (o.deliver log text).settle d
    ((∀ name, o.destination = some name → d.refusal? name = none) ∧ outcome.1.exit = 0 ∧
      Delivered o.destination text d outcome) ∨
    ∃ name reason, o.destination = some name ∧ d.refusal? name = some reason ∧
      outcome = ((Response.unwritten { log } name reason).result, d) := by
  intro outcome
  have hdeliver : o.deliver log text = match o.destination with
      | some name => { log, write := some (name, text) }
      | none => { log, stdout := text } := rfl
  cases hdest : o.destination with
  | none =>
    rw [hdest] at hdeliver
    have houtcome : outcome = (({ log, stdout := text } : Response).result, d) := by
      simp only [outcome, hdeliver]
      rfl
    rw [houtcome]
    exact .inl ⟨fun _ h => absurd h (by simp), rfl, rfl, rfl⟩
  | some name =>
    rw [hdest] at hdeliver
    cases hwrite : d.write name (Text.bytes text) with
    | error reason =>
      refine .inr ⟨name, reason, rfl, Directory.write_eq_error_iff.mp hwrite, ?_⟩
      simp only [outcome, hdeliver, Response.settle, hwrite]
      rfl
    | ok d' =>
      have houtcome : outcome = (({ log } : Response).result, d') := by
        simp only [outcome, hdeliver, Response.settle, hwrite]
        rfl
      rw [houtcome]
      refine .inl ⟨fun _ h => ?_, rfl, rfl, Directory.read?_write hwrite, fun other hne => ?_⟩
      · cases h
        cases hrefusal : d.refusal? name with
        | none => rfl
        | some reason =>
          rw [Directory.write_eq_error_iff.mpr hrefusal] at hwrite
          cases hwrite
      · exact Directory.read?_write_of_ne hwrite hne

/-- The text that a run came to has to be written, to a file that cannot be. A file that would
be written over itself, the action not applying, does not have to. -/
def Options.Blocked (o : Options) (d : Directory) (moved : Option String) : Prop :=
  (moved = none → o.inPlace = false) ∧
    ∃ name reason, o.destination = some name ∧ d.refusal? name = some reason

/-- Once the action has been run on the text that was found, its outcome arrives if it is not
blocked. A file that would be written over itself holds the text already. -/
theorem settle_conclude {o : Options} {stdin : List UInt8} {d : Directory} {s : String}
    (hin : o.inPlace = true → ∃ name, o.input = some name) (hs : o.source? stdin d = some s)
    (moved : Option String) :
    let outcome := (o.conclude s (.ok moved)).settle d
    (¬ o.Blocked d moved → outcome.1.exit = 0 ∧ Delivered o.destination (moved.getD s) d outcome) ∧
      (o.Blocked d moved → Refused d outcome) := by
  have hdeliver : ∀ log text, (moved = none → o.inPlace = false) →
      let outcome := (o.deliver log text).settle d
      (¬ o.Blocked d moved → outcome.1.exit = 0 ∧ Delivered o.destination text d outcome) ∧
        (o.Blocked d moved → Refused d outcome) := by
    intro log text hmust
    obtain ⟨hfree, harrived⟩ | ⟨name, reason, hdest, hrefusal, houtcome⟩ :=
      settle_deliver o log text d
    · refine ⟨fun _ => harrived, fun hblocked => ?_⟩
      obtain ⟨_, name, reason, hdest, hrefusal⟩ := hblocked
      rw [hfree name hdest] at hrefusal
      cases hrefusal
    · refine ⟨fun hfree => absurd ⟨hmust, name, reason, hdest, hrefusal⟩ hfree, fun _ => ?_⟩
      exact houtcome ▸ refused_unwritten d _ name reason
  cases moved with
  | some m => exact hdeliver [] m (fun h => absurd h (by simp))
  | none =>
    cases hplace : o.inPlace with
    | false =>
      simp only [Options.conclude, hplace]
      exact hdeliver [Options.notApplicable] s (fun _ => hplace)
    | true =>
      obtain ⟨name, hinput⟩ := hin hplace
      have hread : d.read? name = some (Text.bytes s) := by
        simp only [Options.source?, hinput] at hs
        obtain ⟨bs, hbs, hs⟩ := Option.bind_eq_some_iff.mp hs
        rw [hbs, Text.ofBytes?_eq_some_iff.mp hs]
      have hdest : o.destination = some name := by simp [Options.destination, hplace, hinput]
      simp only [Options.conclude, hplace, hdest]
      refine ⟨fun _ => ⟨rfl, rfl, hread, fun _ _ => rfl⟩, fun hblocked => ?_⟩
      rw [hblocked.1 rfl] at hplace
      cases hplace

/-! ## Runs -/

section Run

variable {args : List String} {o : Options} {stdin : List UInt8} {d : Directory}

/-- A run that is to move text fails before it has opened anything, or reports, or acts. -/
theorem run_cases (h : Job.ofArguments args = .ok (.move o)) (stdin : List UInt8)
    (d : Directory) :
    (∃ message, run args stdin d = ((Response.failure message).result, d) ∧
      ∀ s n opened, o.Finds stdin d s n → Session.openAt s n o.dialectOrImplied ≠ .ok opened) ∨
    ∃ s n opened, o.Finds stdin d s n ∧ Session.openAt s n o.dialectOrImplied = .ok opened ∧
      run args stdin d =
        if o.check then ((Options.report opened).result, d)
        else (o.conclude s (MoveText.apply s n o.dialectOrImplied)).settle d := by
  have hrun : run args stdin d = (o.respond (o.inputFrom d stdin)).settle d := by
    unfold run
    rw [h]
  obtain ⟨message, hr, hnone⟩ | ⟨s, n, opened, hfinds, hopen, hr⟩ := o.respond_cases stdin d
  · refine .inl ⟨message, ?_, hnone⟩
    rw [hrun, hr]
    rfl
  · refine .inr ⟨s, n, opened, hfinds, hopen, ?_⟩
    rw [hrun, hr]
    cases o.check with
    | false => rfl
    | true =>
      show (Options.report opened).settle d = _
      unfold Options.report
      cases ({} : MoveText).resolve? opened <;> rfl

/-- Without the wish for a report, the outcome of the action decides. -/
theorem run_eq_conclude (h : Job.ofArguments args = .ok (.move o)) (hcheck : o.check = false)
    {s : String} {n : Nat} {opened : Session} (hfinds : o.Finds stdin d s n)
    (hopen : Session.openAt s n o.dialectOrImplied = .ok opened) :
    run args stdin d = (o.conclude s (MoveText.apply s n o.dialectOrImplied)).settle d := by
  obtain ⟨_, _, hnone⟩ | ⟨s', n', _, hfinds', _, hrun⟩ := run_cases h stdin d
  · exact absurd hopen (hnone s n opened hfinds)
  · obtain ⟨rfl, rfl⟩ := hfinds.unique hfinds'
    rw [hrun, hcheck]
    rfl

/-- A report is favourable exactly if there is a target at the caret. -/
theorem exit_report_iff (h : Job.ofArguments args = .ok (.move o)) (hcheck : o.check = true)
    (stdin : List UInt8) (d : Directory) :
    (run args stdin d).1.exit = 0 ↔
      ∃ s n t, o.Finds stdin d s n ∧ MoveText.probe s n = .ok (some t) := by
  obtain ⟨message, hrun, hnone⟩ | ⟨s, n, opened, hfinds, hopen, hrun⟩ := run_cases h stdin d
  · rw [hrun]
    constructor
    · intro hexit
      cases hexit
    · intro ⟨s, n, t, hfinds, hprobe⟩
      obtain ⟨opened, hopen⟩ := MoveText.openAt_of_probe hprobe o.dialectOrImplied
      exact absurd hopen (hnone s n opened hfinds)
  · have hprobe := MoveText.probe_of_openAt hopen
    rw [hrun, if_pos hcheck]
    unfold Options.report
    cases ht : ({} : MoveText).resolve? opened with
    | some t =>
      rw [ht] at hprobe
      exact ⟨fun _ => ⟨s, n, t, hfinds, hprobe⟩, fun _ => rfl⟩
    | none =>
      constructor
      · intro hexit
        cases hexit
      · intro ⟨s', n', t, hfinds', hprobe'⟩
        obtain ⟨rfl, rfl⟩ := hfinds.unique hfinds'
        rw [hprobe, ht] at hprobe'
        cases hprobe'

end Run

/-- The error of an edit that makes a text longer than is allowed by default. -/
def oversized : Error :=
  .malformed ("edit produced invalid markup: " ++ (Limits.tooLong {}).display)

/-- The outcome of a command that makes its edit in a dialect, or is kept from that only by the
size of the new text or by the file it is for. -/
inductive Options.Edits (o : Options) (dialect : Dialect) (stdin : List UInt8) (d : Directory)
    (outcome : Result × Directory) : Prop
  | made {s moved : String} {n : Nat} : o.Finds stdin d s n →
      MoveText.apply s n dialect = .ok (some moved) → outcome.1.exit = 0 →
      Delivered o.destination moved d outcome → Edits o dialect stdin d outcome
  | unwritten {s moved name reason : String} {n : Nat} : o.Finds stdin d s n →
      MoveText.apply s n dialect = .ok (some moved) → o.destination = some name →
      d.refusal? name = some reason →
      outcome = ((Response.unwritten {} name reason).result, d) → Edits o dialect stdin d outcome
  | tooLong {s : String} {n : Nat} {opened : Session} : o.Finds stdin d s n →
      Session.openAt s n dialect = .ok opened →
      MoveText.apply s n dialect = .error oversized →
      outcome = ((Response.failure oversized.display).result, d) → Edits o dialect stdin d outcome

section Edits

variable {args : List String} {o : Options} {stdin : List UInt8} {d : Directory}

/-- Where there is a target, a command makes its edit or is kept from it. -/
theorem edits_of_probe (h : Job.ofArguments args = .ok (.move o)) (hcheck : o.check = false)
    {s : String} {n : Nat} {t : Target} (hfinds : o.Finds stdin d s n)
    (hprobe : MoveText.probe s n = .ok (some t)) :
    o.Edits o.dialectOrImplied stdin d (run args stdin d) := by
  obtain ⟨opened, hopen⟩ := MoveText.openAt_of_probe hprobe o.dialectOrImplied
  have hrun := run_eq_conclude h hcheck hfinds hopen
  have happly := MoveText.apply_of_openAt hopen
  have ht : ({} : MoveText).resolve? opened = some t :=
    Except.ok.inj ((MoveText.probe_of_openAt hopen).symm.trans hprobe)
  have hlimits : opened.limits = {} := by
    obtain ⟨_, _, _, rfl⟩ := Session.openAt_eq_ok_iff.mp hopen
    rfl
  have htags : ({} : MoveText).tags.Writable := TagTable.builtin_writable
  obtain ⟨edit, moved, _, _, hdone, hlong⟩ :=
    (Session.sound_of_openAt hopen).execute_target htags ht
  rw [hlimits] at hdone hlong
  obtain hsize | hsize := Nat.lt_or_ge (Limits.maxSize {}) moved.utf8ByteSize
  · have hresult : MoveText.apply s n o.dialectOrImplied = .error oversized := by
      rw [happly, hlong hsize]
      rfl
    rw [hresult] at hrun
    exact .tooLong hfinds hopen hresult hrun
  · obtain ⟨s', hexecute, rfl⟩ := hdone hsize
    have hresult : MoveText.apply s n o.dialectOrImplied = .ok (some s'.source) := by
      rw [happly, hexecute]
      rfl
    rw [hresult] at hrun
    obtain ⟨_, hexit, hdelivered⟩ | ⟨name, reason, hdest, hrefusal, houtcome⟩ :=
      settle_deliver o [] s'.source d
    · exact .made hfinds hresult (hrun ▸ hexit) (hrun ▸ hdelivered)
    · exact .unwritten hfinds hresult hdest hrefusal (hrun.trans houtcome)

/-- A command that makes its edit, or is kept from it, has a target. -/
theorem probe_of_edits {dialect : Dialect} {outcome : Result × Directory}
    (h : o.Edits dialect stdin d outcome) :
    ∃ s n t, o.Finds stdin d s n ∧ MoveText.probe s n = .ok (some t) := by
  obtain ⟨s, n, opened, hfinds, hopen, hresult⟩ : ∃ s n opened, o.Finds stdin d s n ∧
      Session.openAt s n dialect = .ok opened ∧ MoveText.apply s n dialect ≠ .ok none := by
    cases h with
    | @made s moved n hfinds happly | @unwritten s moved name reason n hfinds happly =>
      obtain ⟨opened, hopen⟩ := MoveText.openAt_of_apply happly
      exact ⟨s, n, opened, hfinds, hopen, by simp [happly]⟩
    | @tooLong s n opened hfinds hopen happly =>
      exact ⟨s, n, opened, hfinds, hopen, by simp [happly]⟩
  rw [MoveText.apply_of_openAt hopen] at hresult
  obtain ⟨t, ht⟩ := MoveText.resolve?_of_result hresult
  exact ⟨s, n, t, hfinds, by rw [MoveText.probe_of_openAt hopen, ht]⟩

/-- Whether there is a target does not depend on whether only a report is asked for. -/
theorem Options.Finds.uncheck {s : String} {n : Nat} :
    ({ o with check := false } : Options).Finds stdin d s n ↔ o.Finds stdin d s n :=
  ⟨fun h => ⟨h.source, h.caret⟩, fun h => ⟨h.source, h.caret⟩⟩

end Edits

/-- The command line does what asking and running do. Let a command line ask for text to be
moved; it works in one dialect. Where only a report is not asked for: if a text is found, a
caret in it, and the action runs there without error, then the command ends well and the text
it came to, or the old one if the action does not apply, is in the one place where it was to
go, unless it has to be written to a file that cannot be; in that case and in all others the
command fails, prints nothing and changes no file. Where only a report is asked for, the
command ends well exactly if there is a target at the caret, which is exactly if the same
command without that wish makes its edit, or is kept from it only by the size of the new text
or by the file it is for. -/
theorem run_refines {args : List String} {o : Options}
    (h : Job.ofArguments args = .ok (.move o)) (stdin : List UInt8) (d : Directory) :
    let outcome := run args stdin d
    ∃ dialect, (∀ other, o.WorksIn other ↔ other = dialect) ∧
    (o.check = false →
      (∀ s n moved, o.Finds stdin d s n → MoveText.apply s n dialect = .ok moved →
        (¬ o.Blocked d moved →
          outcome.1.exit = 0 ∧ Delivered o.destination (moved.getD s) d outcome) ∧
        (o.Blocked d moved → Refused d outcome)) ∧
      ((∀ s n moved, o.Finds stdin d s n → MoveText.apply s n dialect ≠ .ok moved) →
        Refused d outcome)) ∧
    (o.check = true →
      (outcome.1.exit = 0 ↔
        ∃ s n t, o.Finds stdin d s n ∧ MoveText.probe s n = .ok (some t)) ∧
      Job.ofArguments (args.erase "--check") = .ok (.move { o with check := false }) ∧
      (outcome.1.exit = 0 ↔
        ({ o with check := false } : Options).Edits dialect stdin d
          (run (args.erase "--check") stdin d))) := by
  refine ⟨o.dialectOrImplied, fun _ => Options.worksIn_iff, ?_⟩
  refine ⟨fun hcheck => ⟨?_, ?_⟩, fun hcheck => ?_⟩
  · intro s n moved hfinds happly
    obtain ⟨opened, hopen⟩ := MoveText.openAt_of_apply happly
    rw [run_eq_conclude h hcheck hfinds hopen, happly]
    exact settle_conclude (fun hplace => (ofArguments_inPlace h hplace).2) hfinds.source moved
  · intro hnone
    obtain ⟨message, hrun, _⟩ | ⟨s, n, opened, hfinds, _, hrun⟩ := run_cases h stdin d
    · rw [hrun]
      exact refused_failure d message
    · rw [hrun, hcheck, if_neg (by decide)]
      cases happly : MoveText.apply s n o.dialectOrImplied with
      | error e => exact refused_failure d e.display
      | ok moved => exact absurd happly (hnone s n moved hfinds)
  · have hreport := exit_report_iff h hcheck stdin d
    have herased := ofArguments_erase_check h hcheck
    refine ⟨hreport, herased, ?_⟩
    rw [hreport]
    constructor
    · intro ⟨s, n, t, hfinds, hprobe⟩
      exact edits_of_probe herased rfl (Options.Finds.uncheck.mpr hfinds) hprobe
    · intro hedits
      obtain ⟨s, n, t, hfinds, hprobe⟩ := probe_of_edits hedits
      exact ⟨s, n, t, Options.Finds.uncheck.mp hfinds, hprobe⟩

/-- A label in a file that is to be written over, in a dialect that only its name tells: the
report on it, and the text moved. The same text from standard input, printed; and for a file in
a folder that is not there. -/
theorem run_refines_label :
    let args := ["--in-place", "--at", "1:24", "views/a.html"]
    let o : Options :=
      { input := some "views/a.html", caret := some (.place 1 24), inPlace := true }
    let d : Directory := { files := [("b.html", []), ("views/a.html", Text.bytes labelSource)] }
    let written := run args [] d
    let printed := run ["--offset", "24", "-d", "html"] (Text.bytes labelSource) d
    let missing := Directory.flat [("a.html", Text.bytes labelSource)]
    let refused := run ["--offset", "24", "-o", "views/b.html", "a.html"] [] missing
    Job.ofArguments args = .ok (.move o) ∧ o.WorksIn .html ∧ o.Finds [] d labelSource 24 ∧
    (run ("--check" :: args) [] d).1.exit = 0 ∧
    written.1.exit = 0 ∧ written.1.stdout = "" ∧
    written.2.read? "views/a.html" = some (Text.bytes MoveText.movedLabel) ∧
    written.2.read? "b.html" = some [] ∧
    printed.1.exit = 0 ∧ printed.1.stdout = MoveText.movedLabel ∧ printed.2 = d ∧
    Refused missing refused := by
  intro args o d written printed missing refused
  have hhtml : "html".toLower ∈ Dialect.html.extensions := by
    have hlist : "html".toLower.toList = "html".toList.map Char.toLower := String.toList_map
    have hlower : "html".toLower = "html" := by
      rw [← String.toList_inj, hlist]
      decide
    rw [hlower]
    decide
  have hmoved : ∀ {args o} (stdin d), Job.ofArguments args = .ok (.move o) → o.check = false →
      o.WorksIn .html → o.Finds stdin d labelSource 24 →
      (¬ o.Blocked d (some MoveText.movedLabel) → (run args stdin d).1.exit = 0 ∧
        Delivered o.destination MoveText.movedLabel d (run args stdin d)) ∧
      (o.Blocked d (some MoveText.movedLabel) → Refused d (run args stdin d)) := by
    intro args o stdin d hargs hcheck hdialect hfinds
    obtain ⟨dialect, hworks, hrun, _⟩ := run_refines hargs stdin d
    obtain rfl := (hworks .html).mp hdialect
    exact (hrun hcheck).1 labelSource 24 _ hfinds MoveText.apply_labelSource
  have hargs : Job.ofArguments args = .ok (.move o) := toOption_eq_some_iff.mp (by decide)
  have hworks : o.WorksIn .html := .implied rfl rfl (extension?_eq_some_iff.mp (by decide)) hhtml
  have hfinds : o.Finds [] d labelSource 24 := ⟨by decide, by decide⟩
  have hreport : (run ("--check" :: args) [] d).1.exit = 0 := by
    have hargs' : Job.ofArguments ("--check" :: args) = .ok (.move { o with check := true }) :=
      toOption_eq_some_iff.mp (by decide)
    obtain ⟨_, _, _, hcheck⟩ := run_refines hargs' [] d
    exact (hcheck rfl).1.mpr ⟨labelSource, 24, _, ⟨hfinds.source, hfinds.caret⟩,
      MoveText.probe_labelSource⟩
  have hfree : ∀ o' : Options, ¬ o'.Blocked d (some MoveText.movedLabel) := by
    rintro o' ⟨_, _, _, _, h⟩
    cases h
  have hwritten := (hmoved [] d hargs rfl hworks hfinds).1 (hfree o)
  have hprinted : printed.1.exit = 0 ∧ printed.1.stdout = MoveText.movedLabel ∧ printed.2 = d := by
    have hargs' : Job.ofArguments ["--offset", "24", "-d", "html"] =
        .ok (.move { caret := some (.offset 24), dialect := some .html }) :=
      toOption_eq_some_iff.mp (by decide)
    exact (hmoved (Text.bytes labelSource) d hargs' rfl (.asked rfl) ⟨by decide, by decide⟩).1
      (hfree _)
  have hrefused : Refused missing refused := by
    let o' : Options :=
      { input := some "a.html", caret := some (.offset 24), output := some "views/b.html" }
    have hargs' : Job.ofArguments ["--offset", "24", "-o", "views/b.html", "a.html"] =
        .ok (.move o') := toOption_eq_some_iff.mp (by decide)
    have hworks' : o'.WorksIn .html := .implied rfl rfl (extension?_eq_some_iff.mp (by decide)) hhtml
    exact (hmoved [] missing hargs' rfl hworks' ⟨by decide, by decide⟩).2
      ⟨fun h => absurd h (by simp), "views/b.html", notFound, rfl, by decide⟩
  obtain ⟨hexit, hstdout, hfile, hothers⟩ := hwritten
  exact ⟨hargs, hworks, hfinds, hreport, hexit, hstdout, hfile,
    (hothers "b.html" (by decide)).trans (by decide), hprinted.1, hprinted.2.1, hprinted.2.2,
    hrefused⟩

end Command

end TextHoist
