import MiniLisp.Cli.Command

/-!
# The program

Reads the arguments, the files they name, the environment and the input, and does what
`MiniLisp.Cli.run` says.  In the interactive loop every line is answered before the next one is read.
There is no subscriber to trace events.
-/

namespace MiniLisp.Cli

/-- Why the system refuses to read a file. -/
def FileFault.ofSystem : IO.Error → FileFault
  | .inappropriateType _ 21 _ => .isDirectory
  | .inappropriateType .. => .notDirectory
  | .permissionDenied .. => .notAllowed
  | .invalidArgument .. => .nameTooLong
  | _ => .missing

/-- The bytes of a file of the system. -/
def systemFile (path : String) : IO (Except FileFault ByteArray) := do
  try
    return .ok (← IO.FS.readBinFile path)
  catch e =>
    return .error (.ofSystem e)

/-- The files and settings of the system that a command line can see, without its input. -/
def systemWorld (options : Options) : IO World := do
  let paths := options.stdlib.toList ++ options.script.toList
  let files ← paths.mapM fun path => return (path, ← systemFile path)
  let settings ← [Limits.evalVariable, Limits.readVariable].mapM fun name =>
    return (name, ← IO.getEnv name)
  return {
    file := fun path => (files.lookup path).getD (.error .missing)
    setting := fun name => (settings.lookup name).join
    input := .empty
    reader := .ofEdit id
    traced := fun _ => "" }

/-- Shows what was written to the sink since it held `shown`. -/
def showNew (shown : String) (σ : Store) : IO Unit := do
  let output ← IO.getStdout
  output.putStr (Session.newText shown σ.sink.text)
  output.flush

/-- Ends a run. -/
def finish : Except Failure Unit → IO UInt32
  | .ok () => return 0
  | .error failure => do
    (← IO.getStderr).putStrLn failure.message
    return 1

/-- The next line of the input, if there is one. -/
def nextLine : IO (Option Repl.Reading) := do
  try
    let line ← (← IO.getStdin).getLine
    return if line.isEmpty then none else some (.line line)
  catch e =>
    return some (.failed (toString e))

/-- Says farewell. -/
def leave (σ : Store) : IO (Except Failure Unit) := do
  showNew σ.sink.text (σ.printLine Repl.farewell)
  return .ok ()

/-- Answers the lines of the input until one of them stops the loop, one cannot be read or none is
left. -/
partial def answerInput (ip : Interpreter) (σ : Store) : IO (Except Failure Unit) := do
  match ← nextLine with
  | some (.line line) =>
    match Repl.answer ip σ (.ofLine line) with
    | some next =>
      showNew σ.sink.text next
      answerInput ip next
    | none => leave σ
  | some (.failed reason) => return .error (.unreadLine reason)
  | none => leave σ

/-- Loads the standard unit, then answers the lines of the input. -/
def interactWithUser (options : Options) : IO UInt32 := do
  let world ← systemWorld options
  let session := (host world).session
  let (result, σ) := loadStdlib world session.interpreter options session.store
  showNew "" σ
  match result with
  | .error failure => finish (.error failure)
  | .ok () =>
    let greeted := σ.printLines Repl.banner
    showNew σ.sink.text greeted
    finish (← answerInput session.interpreter greeted)

/-- Does what the arguments say. -/
def runArgs (args : List String) : IO UInt32 := do
  match Options.ofArgs args with
  | .ok ⟨stdlib, allForms, none⟩ => interactWithUser ⟨stdlib, allForms, none⟩
  | parsed =>
    let world ← systemWorld (parsed.toOption.getD Options.none)
    let outcome := run world args
    (← IO.getStdout).putStr outcome.stdout
    (← IO.getStderr).putStr outcome.stderr
    return outcome.code.toUInt32

end MiniLisp.Cli

/-- The command line program. -/
def main (args : List String) : IO UInt32 := MiniLisp.Cli.runArgs args
