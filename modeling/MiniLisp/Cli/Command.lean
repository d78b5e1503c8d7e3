import MiniLisp.Cli.Options
import MiniLisp.Cli.Repl
import MiniLisp.Session.Setup

/-!
# The command line

The program loads the standard unit or a replacement for it, then either loads a script and prints
its value or reads lines interactively.  The outcome is a function of the arguments and of what the
system provides: files, environment, input, a line reader and, if the environment asks for one, a
subscriber to the trace events of the run.
-/

namespace MiniLisp.Cli

/-! ## Files -/

/-- Why a file has no text. -/
inductive FileFault where
  | missing
  | notAllowed
  | notDirectory
  | isDirectory
  | nameTooLong
  | notText
deriving DecidableEq

/-- The words of the system for an unreadable file. -/
def FileFault.message : FileFault → String
  | missing => "No such file or directory (os error 2)"
  | notAllowed => "Permission denied (os error 13)"
  | notDirectory => "Not a directory (os error 20)"
  | isDirectory => "Is a directory (os error 21)"
  | nameTooLong => "File name too long (os error 36)"
  | notText => "stream did not contain valid UTF-8"

/-- The text that some bytes encode. -/
def fileText (bytes : ByteArray) : Except FileFault String :=
  match String.fromUTF8? bytes with
  | some text => .ok text
  | none => .error .notText

/-! ## Runs -/

/-- What the system provides to a run of the program. -/
structure World where
  /-- The bytes of the file at a path. -/
  file : String → Except FileFault ByteArray
  /-- The variables of the environment. -/
  setting : String → Option String
  /-- The bytes of the input. -/
  input : ByteArray
  /-- Takes the lines from the input. -/
  reader : Repl.LineReader
  /-- What a subscriber to the trace events writes to the error stream in a run with these arguments. -/
  traced : List String → String

/-- What a run of the program leaves behind. -/
structure Outcome where
  code : Nat
  stdout : String
  stderr : String
deriving DecidableEq

/-- Why a run of the program fails. -/
inductive Failure where
  | unreadable (path : String) (fault : FileFault)
  | stdlib (e : Error)
  | script (path : String) (e : Error)
  /-- The line reader cannot be set up. -/
  | noReader (reason : String)
  /-- The line reader cannot read a line. -/
  | unreadLine (reason : String)

/-- The message for a failed run. -/
def Failure.message : Failure → String
  | unreadable path fault => "cannot read " ++ path ++ ": " ++ fault.message
  | stdlib e => "stdlib: " ++ e.message
  | script path e => path ++ ": " ++ e.message
  | noReader reason => "could not initialize REPL: " ++ reason
  | unreadLine reason => "REPL error: " ++ reason

/-- A part of a run: it may fail, and keeps its effects on the store also when it does. -/
abbrev Command := ExceptT Failure (StateM Store)

/-- The host that the program is: limits from the environment, the bundle of mathematics, and a sink
that takes everything. -/
def host (world : World) : Host where
  limits := .ofEnvironment world.setting
  provision := .registered [("math", .math)]
  sink := .unlimited
  withPrelude := false

/-- The text of the file at a path. -/
def World.text (world : World) (path : String) : Except FileFault String :=
  world.file path >>= fileText

/-- Reads the text of a file. -/
def readFile (world : World) (path : String) : Command String := fun σ =>
  match world.text path with
  | .ok text => (.ok text, σ)
  | .error fault => (.error (.unreadable path fault), σ)

/-- Evaluates a unit in the root scope: all of its forms, or the first one. -/
def loadText (ip : Interpreter) (allForms : Bool) (text : String) : Action Value :=
  if allForms then ip.run text Store.rootFrame else ip.loadUnit text Store.rootFrame

/-- Performs an action, and wraps its error. -/
def attempt {α : Type} (wrap : Error → Failure) (action : Action α) : Command α := fun σ =>
  let (result, σ) := action σ
  (result.mapError wrap, σ)

/-- Loads the standard unit or the file in its place. -/
def loadStdlib (world : World) (ip : Interpreter) (options : Options) : Command Unit := do
  let text ← match options.stdlib with
    | some path => readFile world path
    | none => pure prelude
  let _ ← attempt .stdlib (loadText ip options.allForms text)

/-- Loads a script and prints its value, unless that is unspecified. -/
def runScript (world : World) (ip : Interpreter) (options : Options) (path : String) :
    Command Unit := do
  let text ← readFile world path
  match ← attempt (.script path) (loadText ip options.allForms text) with
  | .unspecified => pure ()
  | v => modify (·.printLine v.text)

/-- Greets, sets the line reader up on the input and answers what it reads. -/
def runInput (world : World) (ip : Interpreter) : Command Unit := fun σ =>
  let σ := σ.printLines Repl.banner
  match world.reader.readings world.input with
  | .error reason => (.error (.noReader reason), σ)
  | .ok readings =>
    let (result, σ) := Repl.answerAll ip σ readings
    (result.mapError .unreadLine, σ)

/-- What follows an accepted command line. -/
def perform (world : World) (ip : Interpreter) (options : Options) : Command Unit := do
  loadStdlib world ip options
  match options.script with
  | some path => runScript world ip options path
  | none => runInput world ip

/-- The variable that asks for a subscriber to trace events. -/
def traceVariable : String := "RUST_LOG"

/-- What is written to the error stream about trace events. -/
def diagnostics (world : World) (args : List String) : String :=
  if (world.setting traceVariable).isSome then world.traced args else ""

/-- A run of the program.  Its own message is the last thing on the error stream. -/
def run (world : World) (args : List String) : Outcome :=
  match Options.ofArgs args with
  | .error fault => ⟨2, "", diagnostics world args ++ fault.message ++ "\n" ++ usage ++ "\n"⟩
  | .ok options =>
    let session := (host world).session
    match perform world session.interpreter options session.store with
    | (.ok (), σ) => ⟨0, σ.sink.text, diagnostics world args⟩
    | (.error failure, σ) => ⟨1, σ.sink.text, diagnostics world args ++ failure.message ++ "\n"⟩

end MiniLisp.Cli
