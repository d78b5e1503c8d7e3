/-!
# Line readers

The interactive loop takes its lines from a line reader.  The reader belongs to the system: it may edit a
line before it gives it away, and it may fail.  So it is a parameter of the program, and
`LineReader.Gives` is what the loop relies on where a text comes from a file or a pipe.
-/

namespace MiniLisp.Repl

/-- What a line reader answers when it is asked for a line. -/
inductive Reading where
  | line (text : String)
  /-- No line can be read, for the reason given. -/
  | failed (reason : String)

/-- A line reader.  It is set up on the bytes of the input or refuses to be, for the reason given; then it
answers one reading after the other, until the input ends or is interrupted. -/
structure LineReader where
  readings : ByteArray → Except String (List Reading)

/-! ## Lines of a text -/

/-- A line without a carriage return at its end; the characters are given last one first. -/
def dropReturn : List Char → List Char
  | '\r' :: line => line
  | line => line

/-- The lines of a text behind the beginning of a line, which is given last character first. -/
def linesFrom (beginning : List Char) : List Char → List String
  | [] => if beginning = [] then [] else [String.ofList beginning.reverse]
  | c :: rest =>
    if c = '\n' then String.ofList (dropReturn beginning).reverse :: linesFrom [] rest
    else linesFrom (c :: beginning) rest

/-- The lines of a text without their ends: a line feed, maybe with a carriage return before it.  What
stands behind the last line feed is a line unless it is empty. -/
def lines (text : String) : List String := linesFrom [] text.toList

/-- The reader gives the lines of a text in order, each of them edited.  Only a line with backspaces in
it may become another one. -/
structure LineReader.Gives (reader : LineReader) (edit : String → String) (text : String) : Prop where
  readings : reader.readings text.toUTF8 = .ok ((lines text).map fun line => .line (edit line))
  plain : ∀ line ∈ lines text, '\x08' ∉ line.toList → edit line = line

/-- The reader of a program that edits each line of a text on its own, and that cannot read what is not
a text. -/
def LineReader.ofEdit (edit : String → String) : LineReader where
  readings input :=
    match String.fromUTF8? input with
    | some text => .ok ((lines text).map fun line => .line (edit line))
    | none => .ok [.failed "stream did not contain valid UTF-8"]

end MiniLisp.Repl
