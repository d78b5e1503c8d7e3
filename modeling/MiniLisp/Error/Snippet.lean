/-!
# Excerpts of a text

A message about an unreadable text shows the part of the text around a byte offset.  The excerpt
starts at the last character boundary that is at least twenty bytes before the offset, or at the
beginning of the text, and holds at most one hundred characters.
-/

namespace MiniLisp.Snippet

/-- How many bytes before the offset the excerpt should start. -/
def lead : Nat := 20

/-- How many characters the excerpt holds at most. -/
def size : Nat := 100

/-- What is written where the text goes on beyond the excerpt. -/
def ellipsis : List Char := ['[', '.', '.', '.', ']']

/-- Splits a text at its greatest character boundary that is at most `bytes`. -/
def splitAtByte (bytes : Nat) : List Char → List Char × List Char
  | [] => ([], [])
  | c :: cs =>
    if c.utf8Size ≤ bytes then
      let (before, behind) := splitAtByte (bytes - c.utf8Size) cs
      (c :: before, behind)
    else ([], c :: cs)

/-- Writes a character on one line: a line feed as two characters, a carriage return not at all. -/
def onOneLine (c : Char) : List Char :=
  if c = '\n' then ['\\', 'n'] else if c = '\r' then [] else [c]

/-- The excerpt of a text around a byte offset, which may lie inside a character or past the end. -/
def around (text : List Char) (offset : Nat) : List Char :=
  let (before, behind) := splitAtByte (offset - lead) text
  let front := if before = [] then [] else ellipsis
  let back := if behind.length ≤ size then [] else ellipsis
  (front ++ behind.take size ++ back).flatMap onOneLine

/-- Splitting loses nothing. -/
theorem splitAtByte_append (bytes : Nat) (text : List Char) :
    (splitAtByte bytes text).1 ++ (splitAtByte bytes text).2 = text := by
  induction text generalizing bytes with
  | nil => rfl
  | cons c cs ih =>
    unfold splitAtByte
    split
    · simpa using ih (bytes - c.utf8Size)
    · rfl

end MiniLisp.Snippet
