import MiniLisp.Cli.LineReader
import MiniLisp.Prelude
import MiniLisp.Primitive.Root
import MiniLisp.Text.Blank

/-!
# The interactive loop

Without a script the program takes its input line by line.  A line is a command, or a program text
that is run in the root scope; either way what it prints goes to the same sink as the output of
programs.  Errors of programs are printed and the loop goes on; only `:quit`, `:exit`, the end of the
input and a line that cannot be read stop it.
-/

namespace MiniLisp

/-- Writes text to the sink of a store, as far as the sink takes it. -/
def Store.print (σ : Store) (text : String) : Store :=
  { σ with sink := σ.sink.put text }

/-- Writes a line. -/
def Store.printLine (σ : Store) (line : String) : Store := σ.print (line ++ "\n")

/-- Writes several lines. -/
def Store.printLines (σ : Store) (lines : List String) : Store := lines.foldl printLine σ

namespace Repl

/-- Printed before the first line is read. -/
def banner : List String :=
  ["Jive interpreter",
    "Enter expressions like: (+ 1 2)",
    "Type :help for more commands, or Ctrl+C to exit.",
    ""]

/-- Printed at the end. -/
def farewell : String := "Goodbye!"

/-- The answer to `:help`. -/
def help : List String :=
  ["Commands:",
    "  :help      - Show this help message",
    "  :env       - Show current bindings",
    "  :quit      - Exit the interpreter",
    "  Ctrl+C     - Exit the interpreter",
    "",
    "Special forms: quote, if, set!, define, lambda, begin",
    "Bundle import: (`math (sqrt 2))",
    "",
    "Examples:",
    "  (define square (lambda (x) (* x x)))",
    "  (square 12)",
    "  (cons 1 (quote (2 3)))"]

/-! ## Bindings in a table -/

/-- How many names stand on one line of the table. -/
def columns : Nat := 6

/-- A name with two spaces before it, filled up to ten characters. -/
def column (name : String) : String :=
  "  " ++ name ++ String.ofList (List.replicate (10 - name.length) ' ')

/-- The names in lines of `columns`, of which `used` are taken on the first line. -/
def table (used : Nat) : List String → String
  | [] => if used = 0 then "" else "\n"
  | name :: names =>
    if used + 1 = columns then column name ++ "\n" ++ table 0 names
    else column name ++ table (used + 1) names

/-- Primitives are listed by name only. -/
def isPrimitive : Value → Bool
  | .primitive _ => true
  | _ => false

/-- The answer to `:env`. -/
def environment (bindings : List (String × Value)) : String :=
  let (primitives, values) := bindings.partition fun entry => isPrimitive entry.2
  "Primitives (" ++ toString primitives.length ++ "):\n" ++ table 0 (primitives.map (·.1)) ++ "\n" ++
    "Values (" ++ toString values.length ++ "):\n" ++
    String.join (values.map fun entry => "  " ++ entry.1 ++ " = " ++ entry.2.text ++ "\n")

/-! ## Lines -/

/-- What a line asks for. -/
inductive Request where
  | nothing
  | help
  | environment
  | stop
  | program (text : String)
deriving DecidableEq

/-- What a line asks for, without the blanks at its ends. -/
def Request.ofLine (line : String) : Request :=
  let text := Text.trim line
  if text = "" then nothing
  else if text = ":help" then help
  else if text = ":env" then environment
  else if text = ":quit" ∨ text = ":exit" then stop
  else program text

/-- Prints the result of a program text. -/
def printResult (result : Except Error Value) (σ : Store) : Store :=
  match result with
  | .ok .unspecified => σ
  | .ok v => σ.printLine v.text
  | .error e => σ.printLine ("Error: " ++ e.message)

/-- Runs a program text in the root scope and prints its result. -/
def runLine (ip : Interpreter) (text : String) (σ : Store) : Store :=
  let (result, σ) := ip.run text Store.rootFrame σ
  printResult result σ

/-- Answers a request, or stops. -/
def answer (ip : Interpreter) (σ : Store) : Request → Option Store
  | .nothing => some σ
  | .help => some (σ.printLines help)
  | .environment => some (σ.print (environment (σ.allBindings Store.rootFrame).entries))
  | .stop => none
  | .program text => some (runLine ip text σ)

/-- Answers lines until one of them stops the loop or none is left, which ends with the farewell, or until
one cannot be read, for the reason given. -/
def answerAll (ip : Interpreter) (σ : Store) : List Reading → Except String Unit × Store
  | [] => (.ok (), σ.printLine farewell)
  | .failed reason :: _ => (.error reason, σ)
  | .line text :: readings =>
    match answer ip σ (.ofLine text) with
    | some σ => answerAll ip σ readings
    | none => (.ok (), σ.printLine farewell)

end Repl

end MiniLisp
