import MiniLisp.Number.Literal
import MiniLisp.Text.Blank

/-!
# Depth limits

Reading and evaluation each have a limit on how deep they nest.  The environment may set either one;
a setting that is not a positive number of 64 bits is ignored, so both limits are always positive.
-/

namespace MiniLisp

/-- The greatest nesting of evaluation and of lists in a text. -/
structure Limits where
  eval : Nat
  read : Nat
deriving DecidableEq

namespace Limits

/-- The limits that hold where the environment sets none. -/
def standard : Limits := ⟨10000, 1000⟩

/-- The variable that sets the limit of evaluation. -/
def evalVariable : String := "JIVE_MAX_EVAL_DEPTH"

/-- The variable that sets the limit of reading. -/
def readVariable : String := "JIVE_MAX_PARSE_DEPTH"

/-- The value of a non-empty string of ASCII digits. -/
def natural? (digits : List Char) : Option Nat :=
  if digits ≠ [] ∧ digits.all Char.isDigit then
    some (Number.digitsValue digits)
  else none

/-- Digits behind an optional plus sign. -/
def signed? : List Char → Option Nat
  | '+' :: digits => natural? digits
  | digits => natural? digits

/-- A limit is written in decimal, may have a plus sign and blanks around it, and is a positive
number below `2 ^ 64`. -/
def ofSetting? (setting : String) : Option Nat :=
  match signed? (Text.trimChars setting.toList) with
  | some n => if 0 < n ∧ n < Number.twoPow 64 then some n else none
  | none => none

/-- The limits under the variables of an environment. -/
def ofEnvironment (setting? : String → Option String) : Limits where
  eval := ((setting? evalVariable).bind ofSetting?).getD standard.eval
  read := ((setting? readVariable).bind ofSetting?).getD standard.read

end Limits

end MiniLisp
