import MiniLisp.Error.Basic
import MiniLisp.Expr.Basic
import MiniLisp.Expr.SpecialForm

/-!
# From data to expressions

Analysis decides once which form every list is.  A form is checked before its operands are analysed:
first the number of operands, then the names it binds.  So a malformed form is an error even where
evaluation would never come, and of several faults the first one from the left is reported, with an
outer form before the forms inside it.
-/

namespace MiniLisp

/-- The name that a binding form binds. -/
def Datum.targetName (form : SpecialForm) : Datum → Except Error String
  | .sym name => .ok name
  | target => .error (.targetNotSymbol form.keyword target)

/-- The names in a parameter list, none of which may be among the names before them. -/
def Datum.parameterNames (before : List String) : List Datum → Except Error (List String)
  | [] => .ok []
  | .sym name :: rest =>
    if name ∈ before then .error (.duplicateParameter name)
    else (parameterNames (name :: before) rest).map (name :: ·)
  | parameter :: _ => .error (.parameterNotSymbol parameter)

/-- The parameters of a function: a list of distinct symbols. -/
def Datum.parameters : Datum → Except Error (List String)
  | .list items => parameterNames [] items
  | datum => .error (.parametersNotList datum)

namespace Expr

mutual

/-- The expression that a tree of program text stands for. -/
def ofDatum : Datum → Except Error Expr
  | .num x => .ok (literal (.num x))
  | .str text => .ok (literal (.str text))
  | .sym n => .ok (name n)
  | .list [] => .ok (application (literal (.list [])) [])
  | .list (.sym symbol :: operands) =>
    match Head.ofSymbol symbol with
    | .special form =>
      match form.arity.check form.keyword operands.length with
      | .ok () =>
        match form, operands with
        | .quote, [datum] => .ok (quote (.ofDatum datum))
        | .conditional, [test, yes] => do
          return ifThen (← ofDatum test) (← ofDatum yes)
        | .conditional, [test, yes, no] => do
          return ifElse (← ofDatum test) (← ofDatum yes) (← ofDatum no)
        | .assignment, [target, value] => do
          return assign (← target.targetName .assignment) (← ofDatum value)
        | .definition, [target, value] => do
          return define (← target.targetName .definition) (← ofDatum value)
        | .lambda, [parameters, body] => do
          return lambda (← parameters.parameters) (← ofDatum body)
        | .sequence, steps => do
          return sequence (← ofData steps)
        -- no accepted number of operands comes to this row
        | form, operands => .error (.unexpectedOperands form operands.length)
      | .error e => .error e
    | .bundle bundle =>
      match operands with
      | [body] => do
        return withBundle bundle (← ofDatum body)
      | operands => .error (.arityMismatch symbol importArity operands.length)
    | .ordinary => do
      return application (name symbol) (← ofData operands)
  | .list (head :: operands) => do
    return application (← ofDatum head) (← ofData operands)

/-- The expressions for some trees, in order, or the first error among them. -/
def ofData : List Datum → Except Error (List Expr)
  | [] => .ok []
  | d :: ds => do
    return (← ofDatum d) :: (← ofData ds)

end

end Expr

end MiniLisp
