/-
  The command line. Arguments are taken in from left to right; the first one that is
  wrong, or that asks for help or the version, decides. What remains is checked as a
  whole: some options exclude each other, and some need another.
-/
import TextHoist.Markup.Dialect
import TextHoist.Text.Characters

namespace TextHoist.Command

/-- Where the caret is to be. -/
inductive Caret where
  | offset (bytes : Nat)
  | place (line column : Nat)
  deriving DecidableEq, Repr

/-- What to do with one input. -/
structure Options where
  /-- The file to read, standard input if there is none. -/
  input : Option String := none
  caret : Option Caret := none
  dialect : Option Dialect := none
  /-- Only say whether the action applies. -/
  check : Bool := false
  /-- The file to write, standard output if there is none. -/
  output : Option String := none
  /-- Write the file that was read. -/
  inPlace : Bool := false
  deriving DecidableEq, Repr

/-- What a command line asks for. -/
inductive Job where
  | help
  | version
  | listTags
  | move (options : Options)
  deriving DecidableEq, Repr

/-- Why a command line is refused. -/
inductive UsageError where
  | unknown (argument : String)
  | extra (argument : String)
  | repeated (option : String)
  | missingValue (option : String)
  | unexpectedValue (option : String)
  | invalidValue (option value : String)
  | conflict (option other : String)
  | inPlaceWithoutInput
  deriving DecidableEq, Repr

/-- Options that stand alone. -/
inductive Flag where
  | check
  | inPlace
  | listTags
  | help
  | version
  deriving DecidableEq, Repr

/-- Options that take a value. -/
inductive Field where
  | offset
  | place
  | dialect
  | output
  deriving DecidableEq, Repr

/-- The spelling of an option with a value. -/
def Field.name : Field → String
  | offset => "--offset"
  | place => "--at"
  | dialect => "--dialect"
  | output => "--output"

/-- One argument, by its spelling. A value may be attached to the option it is for. -/
inductive Argument where
  | endOfOptions
  | flag (f : Flag) (attached : Option String)
  | field (f : Field) (attached : Option String)
  | unknown
  | plain
  deriving DecidableEq, Repr

namespace Argument

/-- An option given by its long name. -/
def ofLong (name : String) (attached : Option String) : Argument :=
  match name with
  | "offset" => field .offset attached
  | "at" => field .place attached
  | "dialect" => field .dialect attached
  | "output" => field .output attached
  | "check" => flag .check attached
  | "in-place" => flag .inPlace attached
  | "list-tags" => flag .listTags attached
  | "help" => flag .help attached
  | "version" => flag .version attached
  | _ => unknown

/-- What is attached to an option of one letter, an equals sign in between or not. -/
def attachedToLetter : List Char → Option String
  | [] => none
  | '=' :: value => some (String.ofList value)
  | value => some (String.ofList value)

/-- Reads an argument. A single dash is an ordinary one. -/
def ofString (s : String) : Argument :=
  match s.toList with
  | ['-', '-'] => endOfOptions
  | '-' :: '-' :: long =>
    match long.dropWhile (· != '=') with
    | [] => ofLong (String.ofList long) none
    | _ :: value =>
      ofLong (String.ofList (long.takeWhile (· != '='))) (some (String.ofList value))
  | '-' :: 'd' :: rest => field .dialect (attachedToLetter rest)
  | '-' :: 'o' :: rest => field .output (attachedToLetter rest)
  | '-' :: 'V' :: _ => flag .version none
  | '-' :: 'h' :: _ => flag .help none
  | '-' :: _ :: _ => unknown
  | _ => plain

end Argument

/-- What has been given so far. -/
structure Given where
  input : Option String := none
  offset : Option Nat := none
  place : Option (Nat × Nat) := none
  dialect : Option Dialect := none
  output : Option String := none
  check : Bool := false
  inPlace : Bool := false
  listTags : Bool := false
  deriving DecidableEq, Repr

namespace Given

/-- Numbers on the command line have 64 bits. -/
def number? (cs : List Char) : Option Nat := (Text.number? 10 cs).filter (· < UInt64.size)

/-- A line and a column, a colon between them. -/
def place? (s : String) : Option (Nat × Nat) :=
  match s.toList.dropWhile (· != ':') with
  | [] => none
  | _ :: column => do
    let line ← number? (s.toList.takeWhile (· != ':'))
    let column ← number? column
    return (line, column)

def dialect? : String → Option Dialect
  | "xml" | "xaml" => some .xml
  | "html" => some .html
  | _ => none

/-- A file name, which is not empty. -/
def fileName? (s : String) : Option String := if s.isEmpty then none else some s

/-- Takes in the name of the input, of which there is at most one. -/
def addInput (g : Given) (s : String) : Except UsageError Given :=
  if g.input.isSome then .error (.extra s)
  else if s.isEmpty then .error (.invalidValue "[INPUT]" s)
  else .ok { g with input := some s }

/-- Puts a value where there was none. -/
def put {α : Type} (f : Field) (old : Option α) (value : Option α) (text : String)
    (set : α → Given) : Except UsageError Given :=
  match old, value with
  | some _, _ => .error (.repeated f.name)
  | none, none => .error (.invalidValue f.name text)
  | none, some v => .ok (set v)

/-- Takes in an option with its value. -/
def addField (g : Given) (f : Field) (s : String) : Except UsageError Given :=
  match f with
  | .offset => put f g.offset (number? s.toList) s fun v => { g with offset := some v }
  | .place => put f g.place (place? s) s fun v => { g with place := some v }
  | .dialect => put f g.dialect (dialect? s) s fun v => { g with dialect := some v }
  | .output => put f g.output (fileName? s) s fun v => { g with output := some v }

/-- What stands for the whole command line once it has been taken in. -/
def job (g : Given) : Except UsageError Job :=
  if g.listTags then
    if g = { listTags := true } then .ok .listTags
    else .error (.conflict "--list-tags" "other arguments")
  else if g.offset.isSome ∧ g.place.isSome then .error (.conflict "--offset" "--at")
  else if g.output.isSome ∧ g.inPlace then .error (.conflict "--output" "--in-place")
  else if g.inPlace ∧ g.input.isNone then .error .inPlaceWithoutInput
  else
    let caret := (g.offset.map Caret.offset).or (g.place.map fun (l, c) => Caret.place l c)
    .ok (.move
      { input := g.input, caret, dialect := g.dialect, check := g.check, output := g.output,
        inPlace := g.inPlace })

end Given

/-- Takes in the arguments from left to right; `ended` once no more options may come. -/
def scan (g : Given) (ended : Bool) : List String → Except UsageError Job
  | [] => g.job
  | a :: as =>
    if ended then do
      let g ← g.addInput a
      scan g true as
    else
      match Argument.ofString a with
      | .endOfOptions => scan g true as
      | .plain => do
        let g ← g.addInput a
        scan g false as
      | .unknown => .error (.unknown a)
      | .flag _ (some _) => .error (.unexpectedValue a)
      | .flag .help none => .ok .help
      | .flag .version none => .ok .version
      | .flag .check none =>
        if g.check then .error (.repeated a) else scan { g with check := true } false as
      | .flag .inPlace none =>
        if g.inPlace then .error (.repeated a) else scan { g with inPlace := true } false as
      | .flag .listTags none =>
        if g.listTags then .error (.repeated a) else scan { g with listTags := true } false as
      | .field f (some v) => do
        let g ← g.addField f v
        scan g false as
      | .field f none =>
        match as with
        | [] => .error (.missingValue f.name)
        | v :: as' =>
          if Argument.ofString v = .plain then do
            let g ← g.addField f v
            scan g false as'
          else .error (.missingValue f.name)

/-- What a command line asks for. -/
def Job.ofArguments (args : List String) : Except UsageError Job := scan {} false args

end TextHoist.Command
