import MiniLisp.Value.Basic
import MiniLisp.Number.Text

/-!
# Values under inspection

A host can look at a value with its kind spelled out: `List(Number(1), Symbol(x))`.  Strings are
shown between double quotes with escapes for quotes, backslashes and control characters.
-/

namespace MiniLisp

namespace Text

/-- A digit of a hexadecimal number. -/
def hexDigits (n : Nat) : List Char := Nat.toDigits 16 n

/-- A character as it is shown between double quotes. -/
def escapeChar (c : Char) : List Char :=
  if c = '"' then ['\\', '"']
  else if c = '\\' then ['\\', '\\']
  else if c = '\n' then ['\\', 'n']
  else if c = '\r' then ['\\', 'r']
  else if c = '\t' then ['\\', 't']
  else if c.toNat = 0 then ['\\', '0']
  else if c.toNat < 0x20 ∨ c.toNat = 0x7F then
    ['\\', 'u', '\x7b'] ++ hexDigits c.toNat ++ ['\x7d']
  else [c]

/-- A text between double quotes. -/
def escape (text : String) : String :=
  "\"" ++ String.ofList (text.toList.flatMap escapeChar) ++ "\""

/-- Texts between double quotes, as a list in brackets. -/
def escapeAll (texts : List String) : String :=
  "[" ++ String.intercalate ", " (texts.map escape) ++ "]"

end Text

namespace Value

mutual

/-- The text `out` followed by the inspected value.  Closures show their parameters. -/
def inspectOnto (parametersOf : ClosureId → List String) (out : String) : Value → String
  | num x => out ++ "Number(" ++ Number.text x ++ ")"
  | str text => out ++ "String(" ++ Text.escape text ++ ")"
  | sym name => out ++ "Symbol(" ++ name ++ ")"
  | bool b => out ++ "Bool(" ++ (if b then "true" else "false") ++ ")"
  | list [] => out ++ "List()"
  | list (v :: vs) =>
    inspectRest parametersOf (inspectOnto parametersOf (out ++ "List(") v) vs ++ ")"
  | closure id => out ++ "Closure(params=" ++ Text.escapeAll (parametersOf id) ++ ")"
  | primitive p => out ++ "Primitive(" ++ p.name ++ ")"
  | nil => out ++ "Nil"
  | unspecified => out ++ "Unspecified"

/-- The text `out` followed by the items of a list after the first one. -/
def inspectRest (parametersOf : ClosureId → List String) (out : String) : List Value → String
  | [] => out
  | v :: vs => inspectRest parametersOf (inspectOnto parametersOf (out ++ ", ") v) vs

end

/-- A value with its kind spelled out. -/
def inspect (parametersOf : ClosureId → List String) (v : Value) : String :=
  v.inspectOnto parametersOf ""

end Value

end MiniLisp
