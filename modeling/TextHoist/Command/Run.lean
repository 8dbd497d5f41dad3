/-
  Running a command: read one text, put the caret, then report on the action or carry it
  out and deliver the result to exactly one place. `Options.perform` decides everything
  from what was read; reading before it and writing after it are all that touches files.
-/
import TextHoist.Command.Files
import TextHoist.Command.Options
import TextHoist.Editor.Session
import TextHoist.Text.Characters

namespace TextHoist.Command

/-- The extension of a file name: what follows its last dot, unless nothing else precedes
it. -/
def extension? (name : String) : Option String :=
  let base := name.toList.reverse.takeWhile (· != '/')
  match base.dropWhile (· != '.') with
  | _ :: _ :: _ => some (String.ofList (base.takeWhile (· != '.')).reverse)
  | _ => none

/-- The dialect to read in: the one asked for, or the one the file name implies. -/
def Options.dialectOrImplied (o : Options) : Dialect :=
  (o.dialect.or ((o.input.bind extension?).bind Dialect.ofExtension?)).getD .xml

/-- What was read: a file, with its content or the reason why there is none, or standard
input. -/
inductive Input where
  | file (name : String) (content : Except String (List UInt8))
  | standard (content : List UInt8)

/-- The reason why bytes cannot be read as text. -/
def notUtf8 : String := "stream did not contain valid UTF-8"

/-- The text that was read, or what to say about it. -/
def Input.text : Input → Except String String
  | file name (.error reason) => .error s!"failed to read input file {name}: {reason}"
  | file name (.ok bs) =>
    match Text.ofBytes? bs with
    | some s => .ok s
    | none => .error s!"failed to read input file {name}: {notUtf8}"
  | standard bs =>
    match Text.ofBytes? bs with
    | some s => if Text.isBlankText s then .error "no input provided on stdin" else .ok s
    | none => .error s!"failed to read stdin: {notUtf8}"

/-- A line of the log. -/
inductive Log where
  | warning (message : String)
  | error (message : String)
  deriving DecidableEq, Repr

def Log.line : Log → String
  | warning m => " WARN " ++ Text.logged m ++ "\n"
  | error m => "ERROR " ++ Text.logged m ++ "\n"

/-- What a command comes to: a status, what it prints and logs, and at most one file with
its text that is to be written. -/
structure Response where
  exit : Nat := 0
  stdout : String := ""
  log : List Log := []
  write : Option (String × String) := none
  deriving DecidableEq, Repr

namespace Response

def failure (message : String) : Response := { exit := 1, log := [.error message] }

def stderr (r : Response) : String := String.join (r.log.map Log.line)

/-- The response when the file could not be written after all. -/
def unwritten (r : Response) (name reason : String) : Response :=
  { exit := 1, log := r.log ++ [.error s!"failed to write output file {name}: {reason}"] }

end Response

namespace Options

/-- Puts the caret where it was asked for. -/
def putCaret (o : Options) (s : Session) : Except String Session :=
  match o.caret with
  | some (.offset n) => (s.setCaret n).mapError Error.display
  | some (.place line column) => (s.setCaretAt line column).mapError Error.display
  | none => .error "no caret given; pass --offset or --at"

/-- Says whether the action applies at the caret. -/
def report (s : Session) : Response :=
  match ({} : MoveText).resolve? s with
  | some t =>
    { stdout := s!"available: {t.tag} -> {t.attributeName} at " ++ Path.display t.element ++ "\n" }
  | none => { exit := 1, stdout := "not available\n" }

/-- Hands over a text: to the file that was read, to another one, or to standard output. -/
def deliver (o : Options) (log : List Log) (text : String) : Response :=
  match if o.inPlace then o.input else o.output with
  | some name => { log, write := some (name, text) }
  | none => { log, stdout := text }

/-- Carries the action out at the caret. Where it does not apply, the text is handed over
as it was, and a file that would be written over itself is left alone. -/
def moveText (o : Options) (s : Session) : Except String Response :=
  match ({} : MoveText).execute s with
  | (.error e, _) => .error e.display
  | (.ok (.applied _), s') => .ok (o.deliver [] s'.source)
  | (.ok .notApplicable, s') =>
    let log := [Log.warning (MoveText.name ++ " is not applicable at the caret")]
    .ok (if o.inPlace then { log } else o.deliver log s'.source)

/-- What to do about an input, or why nothing can be done. -/
def perform (o : Options) (input : Input) : Except String Response := do
  let source ← input.text
  let s ← (Session.ofText source o.dialectOrImplied {}).mapError fun e =>
    "failed to parse input: " ++ e.display
  let s ← o.putCaret { s with path := o.input }
  if o.check then return report s else o.moveText s

/-- What to do about an input. -/
def respond (o : Options) (input : Input) : Response :=
  match o.perform input with
  | .ok r => r
  | .error message => .failure message

end Options

def versionText : String := "attrlift 0.1.0\n"

def helpText : String :=
  String.intercalate "\n"
    ["Move an element's text into an attribute at a caret position",
      "",
      "Usage: attrlift [OPTIONS] [INPUT]",
      "",
      "Arguments:",
      "  [INPUT]  Input file (defaults to stdin)",
      "",
      "Options:",
      "      --offset <BYTES>     Caret as a byte offset",
      "      --at <LINE:COL>      Caret as 1-based LINE:COL, column counted in characters",
      "  -d, --dialect <DIALECT>  Markup dialect (inferred from the input extension, else xml) [possible values: xml, html]",
      "      --check              Only report whether the action applies; exit status 1 when it does not",
      "  -o, --output <OUTPUT>    Output file (defaults to stdout)",
      "      --in-place           Rewrite INPUT in place",
      "      --list-tags          Print the supported tags and their attributes",
      "  -h, --help               Print help",
      "  -V, --version            Print version",
      ""]

/-- The elements whose text can be moved, a line for each. -/
def tagLines (t : TagTable) : String :=
  String.join (t.entries.map fun (tag, name) => s!"{tag} -> {name}\n")

/-- What a command prints on the two streams, and its exit status. -/
structure Result where
  exit : Nat := 0
  stdout : String := ""
  stderr : String := ""
  deriving DecidableEq, Repr

/-- A command line that is refused ends the command with a status of its own. In which words
that is told is left open. -/
def refused : Result := { exit := 2 }

def Response.result (r : Response) : Result :=
  { exit := r.exit, stdout := r.stdout, stderr := r.stderr }

/-- The input a command reads from a directory, or else from standard input. -/
def Options.inputFrom (o : Options) (d : Directory) (stdin : List UInt8) : Input :=
  match o.input with
  | some name => .file name ((d.read? name).elim (.error notFound) .ok)
  | none => .standard stdin

/-- Does to a directory what a response asks for. -/
def Response.settle (r : Response) (d : Directory) : Result × Directory :=
  match r.write with
  | none => (r.result, d)
  | some (name, text) =>
    match d.write name (Text.bytes text) with
    | .ok d' => (r.result, d')
    | .error reason => ((r.unwritten name reason).result, d)

/-- Runs a command in a directory. -/
def run (args : List String) (stdin : List UInt8) (d : Directory) : Result × Directory :=
  match Job.ofArguments args with
  | .error _ => (refused, d)
  | .ok .help => ({ stdout := helpText }, d)
  | .ok .version => ({ stdout := versionText }, d)
  | .ok .listTags => ({ stdout := tagLines .builtin }, d)
  | .ok (.move o) => (o.respond (o.inputFrom d stdin)).settle d

end TextHoist.Command
