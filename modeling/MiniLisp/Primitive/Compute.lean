import MiniLisp.Error.Basic
import MiniLisp.Number.Floor
import MiniLisp.Number.Remainder
import MiniLisp.Value.ListView

/-!
# What primitives compute

All operations but output are functions of their arguments.  Arithmetic folds its arguments from the
left; addition starts from zero and joins its arguments when all of them are strings.  An operation
is called with an accepted number of arguments; for any other it answers with its arity.
-/

namespace MiniLisp

namespace Operation

/-- The name under which an operation is bound, and by which its messages call it. -/
def name : Operation → String
  | equal => "="
  | less => "<"
  | greater => ">"
  | add => "+"
  | subtract => "-"
  | multiply => "*"
  | divide => "/"
  | remainder => "%"
  | cons => "cons"
  | car => "car"
  | cdr => "cdr"
  | log => "log"
  | sqrt => "sqrt"
  | floor => "floor"
  | collect => "collect"

/-- The number of arguments that an operation takes. -/
def arity : Operation → Arity
  | equal | less | greater => .exact 2
  | add | subtract | multiply => .atLeast 1
  | divide | remainder => .exact 2
  | cons => .exact 2
  | car | cdr | log | sqrt | floor => .exact 1
  | collect => .any

/-! ## Arguments -/

/-- The number that an argument is. -/
def number (op : Operation) : Value → Except Error Float
  | .num x => .ok x
  | v => .error (.notNumber op.name v)

/-- The numbers that the arguments are, or the error for the first one that is none. -/
def numbers (op : Operation) : List Value → Except Error (List Float)
  | [] => .ok []
  | v :: vs => do
    let x ← op.number v
    let xs ← op.numbers vs
    return x :: xs

/-- The texts of the arguments, if all of them are strings. -/
def texts? : List Value → Option (List String)
  | [] => some []
  | .str text :: vs => (texts? vs).map (text :: ·)
  | _ :: _ => none

/-- The answer to an unexpected number of arguments. -/
def badCount (op : Operation) (args : List Value) : Except Error Value :=
  .error (.arityMismatch op.name op.arity args.length)

/-! ## Results -/

/-- Joins strings, or adds up numbers from zero on. -/
def sum (args : List Value) : Except Error Value :=
  match texts? args with
  | some texts => .ok (.str (String.join texts))
  | none => (add.numbers args).map fun xs => .num (xs.foldl (· + ·) 0)

/-- Folds numbers from the left, beginning with the first one. -/
def reduce (op : Operation) (f : Float → Float → Float) (args : List Value) : Except Error Value := do
  match ← op.numbers args with
  | [] => op.badCount args
  | x :: xs => return .num (xs.foldl f x)

/-- Compares two numbers or two strings; no other pair has an order. -/
def compare (op : Operation) (numbers : Float → Float → Bool) (texts : String → String → Bool) :
    List Value → Except Error Value
  | [.num x, .num y] => .ok (.bool (numbers x y))
  | [.str s, .str t] => .ok (.bool (texts s t))
  | [v, w] => .error (.notOrdered op.name v w)
  | args => op.badCount args

/-- Applies a function to a number. -/
def onNumber (op : Operation) (f : Float → Float) : List Value → Except Error Value
  | [v] => (op.number v).map fun x => .num (f x)
  | args => op.badCount args

/-- The result of an operation other than output, which is left to `Primitive.call`. -/
def compute : Operation → List Value → Except Error Value
  | equal, [v, w] => .ok (.bool (v == w))
  | less, args => less.compare (fun x y => decide (x < y)) (fun s t => decide (s < t)) args
  | greater, args => greater.compare (fun x y => decide (y < x)) (fun s t => decide (t < s)) args
  | add, args => sum args
  | subtract, args => subtract.reduce (· - ·) args
  | multiply, args => multiply.reduce (· * ·) args
  | divide, args => divide.reduce (· / ·) args
  | remainder, args => remainder.reduce Number.remainder args
  | cons, [v, w] => .ok (v.cons w)
  | car, [v] => .ok v.car
  | cdr, [v] => .ok v.cdr
  | sqrt, args => sqrt.onNumber Float.sqrt args
  | floor, args => floor.onNumber Number.floor args
  | collect, args => .ok (.list args)
  | op, args => op.badCount args

end Operation

end MiniLisp
