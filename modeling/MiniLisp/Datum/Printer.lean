import MiniLisp.Datum.Basic
import MiniLisp.Number.Text

/-!
# The written form of data

A list is written with one space between its items.  No character can be escaped inside a string,
so a string is written between double quotes unless it holds one, and then between single quotes.
-/

namespace MiniLisp.Datum

/-- A string between quotes that it does not hold, if there are such quotes. -/
def quoteText (text : String) : String :=
  if text.toList.contains '"' then "'" ++ text ++ "'" else "\"" ++ text ++ "\""

mutual

/-- The text `out` followed by the written form. -/
def writeOnto (out : String) : Datum → String
  | num x => out ++ Number.text x
  | str text => out ++ quoteText text
  | sym name => out ++ name
  | list [] => out ++ "()"
  | list (d :: ds) => writeRest (writeOnto (out ++ "(") d) ds ++ ")"

/-- The text `out` followed by the written forms of the items after the first one. -/
def writeRest (out : String) : List Datum → String
  | [] => out
  | d :: ds => writeRest (writeOnto (out ++ " ") d) ds

end

/-- The written form of a tree. -/
def text (d : Datum) : String := d.writeOnto ""

/-! ## Writing without an accumulator -/

mutual

theorem writeOnto_eq_append (out : String) : (d : Datum) → d.writeOnto out = out ++ d.text
  | num x => by simp [text, writeOnto]
  | str s => by simp [text, writeOnto]
  | sym n => by simp [text, writeOnto]
  | list [] => by simp [text, writeOnto]
  | list (d :: ds) => by
    simp only [text, writeOnto]
    rw [writeRest_eq_append, writeRest_eq_append (writeOnto ("" ++ "(") d),
      writeOnto_eq_append (out ++ "("), writeOnto_eq_append ("" ++ "(")]
    simp [String.append_assoc]

theorem writeRest_eq_append (out : String) :
    (ds : List Datum) → writeRest out ds = out ++ writeRest "" ds
  | [] => by simp [writeRest]
  | d :: ds => by
    simp only [writeRest]
    rw [writeRest_eq_append (writeOnto (out ++ " ") d),
      writeRest_eq_append (writeOnto ("" ++ " ") d), writeOnto_eq_append (out ++ " "),
      writeOnto_eq_append ("" ++ " ")]
    simp [String.append_assoc]

end

end MiniLisp.Datum
