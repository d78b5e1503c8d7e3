import MiniLisp.Datum.Printer
import MiniLisp.Datum.Reader
import MiniLisp.Error.Snippet
import MiniLisp.Expr.SpecialForm
import MiniLisp.Value.Printer

/-!
# Errors

Every way in which reading, analysing or evaluating a program can fail is one constructor that holds
the cause.  All wording is in `Error.kind` and `Error.detail`.
-/

namespace MiniLisp

/-- How the parentheses of a text are out of balance. -/
inductive Imbalance where
  | unclosed
  | unexpectedClose
deriving DecidableEq

/-- The words for an imbalance. -/
def Imbalance.text : Imbalance → String
  | unclosed => "unexpected end of input inside a list"
  | unexpectedClose => "unexpected ')'"

/-- The causes of failure. -/
inductive Error where
  /-- The text is out of balance at a byte offset; `context` is an excerpt around it. -/
  | unbalanced (imbalance : Imbalance) (offset : Nat) (context : String)
  /-- No frame of the scope binds the name. -/
  | nameNotFound (name : String)
  /-- The value in front of an application cannot be applied. -/
  | notCallable (value : Value)
  /-- A form or primitive got a number of arguments that it does not accept. -/
  | arityMismatch (callee : String) (expected : Arity) (got : Nat)
  /-- Lists of the text, or expressions under evaluation, nest deeper than the limit. -/
  | tooDeep (limit : Nat)
  /-- The target of a binding form is not a symbol. -/
  | targetNotSymbol (form : String) (target : Datum)
  /-- The parameter part of a function is not a list. -/
  | parametersNotList (parameters : Datum)
  /-- A parameter is not a symbol. -/
  | parameterNotSymbol (parameter : Datum)
  /-- A parameter name stands twice. -/
  | duplicateParameter (name : String)
  /-- A form cannot take its operands apart. -/
  | unexpectedOperands (form : SpecialForm) (got : Nat)
  /-- An argument of an arithmetic primitive is not a number. -/
  | notNumber (callee : String) (argument : Value)
  /-- The arguments of a comparison are neither two numbers nor two strings. -/
  | notOrdered (callee : String) (left right : Value)
  /-- The host provides no bundle of this name. -/
  | bundleNotFound (name : String)
  /-- The output sink refused a write. -/
  | outputFailed (reason : String)

namespace Error

/-- The class of an error, which starts its message. -/
def kind : Error → String
  | unbalanced .. => "UnbalancedInput"
  | nameNotFound .. => "NameNotFound"
  | notCallable .. => "NotCallable"
  | arityMismatch .. => "ArityMismatch"
  | tooDeep .. => "RecursionLimitExceeded"
  | targetNotSymbol .. | parametersNotList .. | parameterNotSymbol .. | duplicateParameter ..
  | unexpectedOperands .. => "MalformedForm"
  | notNumber .. | notOrdered .. => "TypeMismatch"
  | bundleNotFound .. => "BundleNotFound"
  | outputFailed .. => "OutputFailed"

/-- What went wrong, in words. -/
def detail : Error → String
  | unbalanced imbalance offset context =>
    imbalance.text ++ " at offset " ++ toString offset ++ "\nContext: " ++ context
  | nameNotFound name => name
  | notCallable value => "cannot apply " ++ value.text
  | arityMismatch callee expected got =>
    callee ++ " expected " ++ expected.text ++ " arguments, got " ++ toString got
  | tooDeep limit => "nesting deeper than " ++ toString limit
  | targetNotSymbol form target => form ++ ": expected a symbol, got " ++ target.text
  | parametersNotList parameters => "lambda: parameters must be a list, got " ++ parameters.text
  | parameterNotSymbol parameter => "lambda: parameter must be a symbol, got " ++ parameter.text
  | duplicateParameter name => "lambda: duplicate parameter name: " ++ name
  | unexpectedOperands form got => form.word ++ ": unexpected " ++ toString got ++ " arguments"
  | notNumber callee argument =>
    callee ++ ": expected number, got " ++ argument.typeName ++ " " ++ argument.text
  | notOrdered callee left right =>
    callee ++ ": cannot order " ++ left.typeName ++ " and " ++ right.typeName
  | bundleNotFound name => name
  | outputFailed reason => reason

/-- The message shown for an error. -/
def message (e : Error) : String := e.kind ++ ": " ++ e.detail

/-- An imbalance of a text at a byte offset, with the excerpt around it. -/
def unbalancedAt (imbalance : Imbalance) (text : String) (offset : Nat) : Error :=
  unbalanced imbalance offset (String.ofList (Snippet.around text.toList offset))

/-- The error for a text that the reader refused. -/
def ofReadFault (text : String) : Datum.ReadFault → Error
  | .tooDeep limit => tooDeep limit
  | .unclosed offset => unbalancedAt .unclosed text offset
  | .unexpectedClose offset => unbalancedAt .unexpectedClose text offset

end Error

/-- Checks a number of arguments on behalf of `callee`. -/
def Arity.check (arity : Arity) (callee : String) (count : Nat) : Except Error Unit :=
  if arity.accepts count then .ok () else .error (.arityMismatch callee arity count)

theorem Arity.check_eq_ok_iff {arity : Arity} {callee : String} {count : Nat} :
    arity.check callee count = .ok () ↔ arity.accepts count = true := by
  unfold check
  split <;> simp [*]

theorem Arity.check_eq_error_iff {arity : Arity} {callee : String} {count : Nat} {e : Error} :
    arity.check callee count = .error e ↔
      ¬ arity.accepts count = true ∧ e = .arityMismatch callee arity count := by
  unfold check
  split <;> simp [*, eq_comm]

end MiniLisp
