import MiniLisp.Value.Printer

/-!
# Output

Output goes to a sink, which keeps the text written to it.  A sink may fail: it then takes the
beginning of a piece, which can end inside a character, and refuses everything from there on.  A value
is written piece by piece, so a failure can leave the beginning of a line behind.
-/

namespace MiniLisp

/-- An output sink: what was written to it, and how much more it takes. -/
structure Sink where
  text : String
  /-- How many bytes of a piece the sink takes after this text. -/
  takes : (written piece : String) → Nat
  /-- After a failure, the bytes taken of a character that did not fit as a whole. -/
  broken : Option (List UInt8)

namespace Sink

/-- A sink that takes everything. -/
def everything (_written piece : String) : Nat := piece.utf8ByteSize

/-- An empty sink that takes everything. -/
def unlimited : Sink := ⟨"", everything, none⟩

/-- What a failing sink answers. -/
def refusal : String := "sink full"

/-- What the sink holds, byte by byte. -/
def bytes (sink : Sink) : List UInt8 :=
  sink.text.toList.flatMap String.utf8EncodeChar ++ sink.broken.getD []

/-- The characters that fit into `room` bytes as a whole, and what fits of the bytes of the next
one. -/
def cut (room : Nat) : List Char → List Char × List UInt8
  | [] => ([], [])
  | c :: cs =>
    if c.utf8Size ≤ room then
      let (whole, torn) := cut (room - c.utf8Size) cs
      (c :: whole, torn)
    else ([], (String.utf8EncodeChar c).take room)

/-- Writes a piece.  A sink that does not take all of it fails, and a sink that has failed stays as it
is. -/
def put (sink : Sink) (piece : String) : Sink :=
  match sink.broken with
  | some _ => sink
  | none =>
    let room := sink.takes sink.text piece
    if piece.utf8ByteSize ≤ room then { sink with text := sink.text ++ piece }
    else
      let (whole, torn) := cut room piece.toList
      { sink with text := sink.text ++ String.ofList whole, broken := some torn }

/-- Writes a value on a line of its own: a string bare, any other value in its written form. -/
def writeLine (sink : Sink) (v : Value) : Sink :=
  let sink := match v with
    | .str text => sink.put text
    | v => v.spell put sink
  sink.put "\n"

end Sink

end MiniLisp
