import MiniLisp.Datum.Basic
import MiniLisp.Number.Literal

/-!
# Words of a program text

A word is a run of characters that are neither parentheses nor separators.  It is a number if the
whole of it is a number token, else a string if it has the same quote at both ends, else a symbol.
-/

namespace MiniLisp.Datum

/-- The characters between words: space, tab, line feed and carriage return. -/
def isSeparator (c : Char) : Bool :=
  c == ' ' || c == '\t' || c == '\n' || c == '\r'

/-- The characters that end a word. -/
def isDelimiter (c : Char) : Bool :=
  c == '(' || c == ')' || isSeparator c

/-- Either quote opens a string, and the same one closes it. -/
def isQuote (c : Char) : Bool :=
  c == '"' || c == '\''

/-- The characters between equal quotes at the two ends of a word, unchanged. -/
def unquote? : List Char → Option (List Char)
  | [] => none
  | quote :: rest =>
    if isQuote quote ∧ rest.getLast? = some quote then some rest.dropLast else none

/-- The atom that a word stands for. -/
def ofWord (word : List Char) : Datum :=
  match Number.ofToken? word with
  | some x => num x
  | none =>
    match unquote? word with
    | some inner => str (String.ofList inner)
    | none => sym (String.ofList word)

end MiniLisp.Datum
