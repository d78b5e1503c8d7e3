/-!
# Options of the command line

Arguments are read from left to right.  The argument behind `--stdlib` is a path whatever it looks
like; the last one counts.  At most one other argument may name a script.
-/

namespace MiniLisp.Cli

/-- What the command line asks for. -/
structure Options where
  /-- The file to load instead of the standard unit. -/
  stdlib : Option String
  /-- Evaluate all forms of a unit, not only the first one? -/
  allForms : Bool
  script : Option String
deriving DecidableEq

/-- Why a command line is refused. -/
inductive UsageFault where
  | helpAsked
  | pathMissing
  | unknownOption (option : String)
  | secondScript
deriving DecidableEq

/-- How the command line is used. -/
def usage : String := "usage: jive [--stdlib PATH] [--all-forms] [SCRIPT]"

/-- The message for a refused command line. -/
def UsageFault.message : UsageFault → String
  | helpAsked => usage
  | pathMissing => "--stdlib needs a path"
  | unknownOption option => "unknown option " ++ option
  | secondScript => "only one script may be given"

namespace Options

/-- No arguments were given. -/
def none : Options := ⟨.none, false, .none⟩

/-- Does an argument look like an option? -/
def isOption (arg : String) : Bool :=
  match arg.toList with
  | '-' :: '-' :: _ => true
  | _ => false

/-- Reads the remaining arguments, with `options` read so far. -/
def readFrom (options : Options) : List String → Except UsageFault Options
  | [] => .ok options
  | arg :: rest =>
    if arg = "--stdlib" then
      match rest with
      | [] => .error .pathMissing
      | path :: rest => readFrom { options with stdlib := some path } rest
    else if arg = "--all-forms" then readFrom { options with allForms := true } rest
    else if arg = "-h" ∨ arg = "--help" then .error .helpAsked
    else if isOption arg then .error (.unknownOption arg)
    else if options.script.isSome then .error .secondScript
    else readFrom { options with script := some arg } rest

/-- Reads the arguments of a command line. -/
def ofArgs (args : List String) : Except UsageFault Options := readFrom none args

end Options

end MiniLisp.Cli
