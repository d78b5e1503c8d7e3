import MiniLisp.Value.Basic

/-!
# Expressions

What evaluation works on: every list of the program text has been recognised as one form.  Literals
and quoted data are values already, so an expression can also be built around values of the host.
-/

namespace MiniLisp

/-- An analysed expression. -/
inductive Expr where
  /-- A number or string of the program text. -/
  | literal (value : Value)
  /-- A name, looked up when it is evaluated. -/
  | name (n : String)
  /-- Data that evaluates to itself. -/
  | quote (value : Value)
  /-- A choice without a second branch. -/
  | ifThen (test yes : Expr)
  | ifElse (test yes no : Expr)
  /-- Changes the nearest binding of a name. -/
  | assign (target : String) (value : Expr)
  /-- Binds a name in the innermost frame. -/
  | define (target : String) (value : Expr)
  | lambda (parameters : List String) (body : Expr)
  | sequence (steps : List Expr)
  /-- Evaluates its body in a frame of its own that holds a bundle's bindings. -/
  | withBundle (bundle : String) (body : Expr)
  | application (callee : Expr) (arguments : List Expr)
deriving Inhabited

namespace Expr

mutual

/-- Equality of expressions, with values compared as by the language. -/
def beq : Expr → Expr → Bool
  | literal v, literal w => v == w
  | name m, name n => m == n
  | quote v, quote w => v == w
  | ifThen t y, ifThen t' y' => t.beq t' && y.beq y'
  | ifElse t y n, ifElse t' y' n' => t.beq t' && y.beq y' && n.beq n'
  | assign m e, assign n f => m == n && e.beq f
  | define m e, define n f => m == n && e.beq f
  | lambda ps e, lambda qs f => ps == qs && e.beq f
  | sequence es, sequence fs => beqAll es fs
  | withBundle b e, withBundle c f => b == c && e.beq f
  | application e es, application f fs => e.beq f && beqAll es fs
  | _, _ => false

/-- Lists of expressions are equal when they have the same length and equal expressions at each
place. -/
def beqAll : List Expr → List Expr → Bool
  | [], [] => true
  | e :: es, f :: fs => e.beq f && beqAll es fs
  | _, _ => false

end

instance : BEq Expr := ⟨beq⟩

end Expr

end MiniLisp
