/-
  The command as a program: real files and streams around `Options.respond`.
-/
import TextHoist.Command.Run

namespace TextHoist.Command

/-- Why a file could not be read or written. -/
def reason : IO.Error → String
  | .noFileOrDirectory .. => notFound
  | e => toString e

/-- Reads what a command works on. -/
def Options.readInput (o : Options) : IO Input :=
  match o.input with
  | some name => do
    try
      let content ← IO.FS.readBinFile name
      return .file name (.ok content.toList)
    catch e => return .file name (.error (reason e))
  | none => do
    let content ← (← IO.getStdin).readBinToEnd
    return .standard content.toList

/-- Writes what a response asks for. -/
def Response.perform (r : Response) : IO Result :=
  match r.write with
  | none => return r.result
  | some (name, text) => do
    try
      IO.FS.writeFile name text
      return r.result
    catch e => return (r.unwritten name (reason e)).result

def Result.print (r : Result) : IO UInt32 := do
  IO.print r.stdout
  IO.eprint r.stderr
  return r.exit.toUInt32

end TextHoist.Command

open TextHoist.Command in
def main (args : List String) : IO UInt32 := do
  match Job.ofArguments args with
  | .error _ => refused.print
  | .ok .help => Result.print { stdout := helpText }
  | .ok .version => Result.print { stdout := versionText }
  | .ok .listTags => Result.print { stdout := tagLines .builtin }
  | .ok (.move o) =>
    let input ← o.readInput
    let result ← (o.respond input).perform
    result.print
