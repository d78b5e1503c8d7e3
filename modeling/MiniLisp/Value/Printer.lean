import MiniLisp.Value.Basic
import MiniLisp.Number.Text

/-!
# The written form of values

The written form is made of pieces that are handed out one after the other: joined they are the text
of the value, and an output sink that may fail takes them one at a time.  Strings are always written
between double quotes.
-/

namespace MiniLisp.Value

variable {α : Type}

mutual

/-- Hands the pieces of the written form to `emit`, from left to right. -/
def spell (emit : α → String → α) (out : α) : Value → α
  | num x => emit out (Number.text x)
  | str text => emit (emit (emit out "\"") text) "\""
  | sym name => emit out name
  | bool b => emit out (if b then "True" else "False")
  | list [] => emit (emit out "(") ")"
  | list (v :: vs) => emit (spellRest emit (spell emit (emit out "(") v) vs) ")"
  | closure _ => emit out "#<closure>"
  | primitive p => emit (emit (emit out "#<primitive:") p.name) ">"
  | nil => emit out "Nil"
  | unspecified => emit out "#<unspecified>"

/-- Hands out the items of a list after the first one, each behind a space. -/
def spellRest (emit : α → String → α) (out : α) : List Value → α
  | [] => out
  | v :: vs => spellRest emit (spell emit (emit out " ") v) vs

end

/-- The written form of a value. -/
def text (v : Value) : String := v.spell (· ++ ·) ""

end MiniLisp.Value
