import MiniLisp.Eval
import MiniLisp.Expr.Analysis

/-!
# Running program texts

A text is read as a whole before any of it is analysed, and analysed as a whole before any of it is
evaluated.  Loading a unit evaluates the first form only, and leaves the others unanalysed.
-/

namespace MiniLisp.Interpreter

/-- The forms of a program text. -/
def read (ip : Interpreter) (text : String) : Except Error (List Datum) :=
  match Datum.read ip.limits.read text with
  | .ok forms => .ok forms
  | .error fault => .error (.ofReadFault text fault)

/-- The expressions of a program text. -/
def analyze (ip : Interpreter) (text : String) : Except Error (List Expr) := do
  Expr.ofData (← ip.read text)

/-- Evaluates expressions in order; the value is that of the last one. -/
def evaluateAll (ip : Interpreter) (es : List Expr) (scope : FrameId) : Action Value :=
  es.foldlM (fun _ e => ip.evaluate e scope) .unspecified

/-- Evaluates all forms of a text. -/
def run (ip : Interpreter) (text : String) (scope : FrameId) : Action Value := do
  ip.evaluateAll (← Action.ofExcept (ip.analyze text)) scope

/-- Evaluates the first form of a text. -/
def loadUnit (ip : Interpreter) (text : String) (scope : FrameId) : Action Value := do
  match ← Action.ofExcept (ip.read text) with
  | [] => return .unspecified
  | first :: _ => ip.evaluate (← Action.ofExcept (Expr.ofDatum first)) scope

end MiniLisp.Interpreter
