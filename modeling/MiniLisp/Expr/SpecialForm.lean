import MiniLisp.Arity

/-!
# Special forms

A list whose head is the keyword of a special form is that form, whatever the keyword is bound to.
A head that starts with a backtick and goes on names a bundle to import.
-/

namespace MiniLisp

/-- The forms that do not evaluate all of their operands. -/
inductive SpecialForm where
  | quote
  | conditional
  | assignment
  | definition
  | lambda
  | sequence
deriving DecidableEq

namespace SpecialForm

/-- All special forms. -/
def all : List SpecialForm := [quote, conditional, assignment, definition, lambda, sequence]

/-- The head symbol of a form. -/
def keyword : SpecialForm → String
  | quote => "quote"
  | conditional => "if"
  | assignment => "set!"
  | definition => "define"
  | lambda => "lambda"
  | sequence => "begin"

/-- The word for a form in a message about operands that it cannot take apart. -/
def word : SpecialForm → String
  | assignment => "set"
  | form => form.keyword

/-- The number of operands behind the head symbol. -/
def arity : SpecialForm → Arity
  | quote => .exact 1
  | conditional => .range 2 3
  | assignment => .exact 2
  | definition => .exact 2
  | lambda => .exact 2
  | sequence => .any

/-- The form with the given head symbol. -/
def ofKeyword? (name : String) : Option SpecialForm :=
  all.find? (·.keyword == name)

/-- Every form is found under its keyword. -/
@[simp] theorem ofKeyword?_keyword (form : SpecialForm) : ofKeyword? form.keyword = some form := by
  cases form <;> decide

end SpecialForm

/-- The character in front of the name of a bundle to import, a backtick. -/
def bundleMark : Char := '\x60'

/-- The accepted number of operands of an import. -/
def importArity : Arity := .exact 1

/-- What the head symbol of a list makes of the list. -/
inductive Head where
  | special (form : SpecialForm)
  | bundle (name : String)
  /-- The list is an application. -/
  | ordinary

/-- The name behind the bundle mark; the mark alone is an ordinary symbol. -/
def bundleName? (symbol : String) : Option String :=
  match symbol.toList with
  | mark :: name => if mark = bundleMark ∧ name ≠ [] then some (String.ofList name) else none
  | [] => none

/-- What a symbol in front of a list means. -/
def Head.ofSymbol (symbol : String) : Head :=
  match SpecialForm.ofKeyword? symbol with
  | some form => .special form
  | none =>
    match bundleName? symbol with
    | some name => .bundle name
    | none => .ordinary

end MiniLisp
