import MiniLisp.Datum.Word

/-!
# Reading a program text

The reader descends into the text: a datum is a list or an atom, and a list holds as many data as can
be read after its opening parenthesis.  Where no datum starts, the items so far are all there are; a
fault inside a list ends the reading of the whole text.  Every reader gives back the rest of the text
behind what it read, and the length of that rest tells where in the text a fault lies.
-/

namespace MiniLisp.Datum

/-- Why a text cannot be read; offsets count bytes. -/
inductive ReadFault where
  /-- More than `limit` lists are open at once. -/
  | tooDeep (limit : Nat)
  /-- A list is open at the end of the text. -/
  | unclosed (offset : Nat)
  /-- The closing parenthesis at `offset` closes no list. -/
  | unexpectedClose (offset : Nat)
deriving DecidableEq

/-! ## Pieces of a text -/

/-- The number of bytes of some characters. -/
def byteLength (text : List Char) : Nat := (String.ofList text).utf8ByteSize

/-- A text without the separators in front of it. -/
def skipSeparators (text : List Char) : List Char := text.dropWhile isSeparator

theorem length_skipSeparators_le (text : List Char) :
    (skipSeparators text).length ≤ text.length :=
  (List.dropWhile_sublist isSeparator).length_le

/-- A datum that was read from the front of a text, and the text behind it. -/
structure Front (text : List Char) where
  datum : Datum
  rest : List Char
  shorter : rest.length < text.length

/-- The data that were read from the front of a text, newest first, and the text behind them. -/
structure Items (text : List Char) where
  newestFirst : List Datum
  rest : List Char
  notLonger : rest.length ≤ text.length

/-- A fault inside a list. -/
inductive Halt where
  | tooDeep
  /-- Neither an item nor a closing parenthesis follows; `rest` is what follows. -/
  | unclosed (rest : List Char)

/-! ## Reading -/

/-- The atom at the front of a text, if a word starts there. -/
def readWord (text : List Char) : Option (Front text) :=
  match text with
  | [] => none
  | c :: cs =>
    if isDelimiter c then none
    else some ⟨ofWord (c :: cs.takeWhile (!isDelimiter ·)), cs.dropWhile (!isDelimiter ·),
      Nat.lt_succ_of_le (List.dropWhile_sublist _).length_le⟩

mutual

/-- The datum at the front of a text inside `depth` open lists, if one starts there. -/
def readDatum (limit depth : Nat) (text : List Char) : Except Halt (Option (Front text)) :=
  match text with
  | '(' :: inside =>
    if limit ≤ depth then .error .tooDeep
    else
      match readItems limit (depth + 1) inside inside (Nat.le_refl _) [] with
      | .error halt => .error halt
      | .ok items =>
        match hskipped : skipSeparators items.rest with
        | ')' :: rest =>
          .ok (some ⟨list items.newestFirst.reverse, rest, by
            have hbehind := length_skipSeparators_le items.rest
            have hitems := items.notLonger
            simp only [hskipped, List.length_cons] at hbehind ⊢
            omega⟩)
        | rest => .error (.unclosed rest)
  | text => .ok (readWord text)
termination_by (text.length, 0)

/-- As many data as there are at the front of `text`, which is an end of `whole`; `before` holds the
data in front of it. -/
def readItems (limit depth : Nat) (whole text : List Char) (hwithin : text.length ≤ whole.length)
    (before : List Datum) : Except Halt (Items whole) :=
  match readDatum limit depth (skipSeparators text) with
  | .error halt => .error halt
  | .ok none => .ok ⟨before, text, hwithin⟩
  | .ok (some front) =>
    have hshorter : front.rest.length < text.length :=
      Nat.lt_of_lt_of_le front.shorter (length_skipSeparators_le text)
    readItems limit depth whole front.rest (Nat.le_trans (Nat.le_of_lt hshorter) hwithin)
      (front.datum :: before)
termination_by (text.length, 1)
decreasing_by
  · rcases Nat.lt_or_eq_of_le (length_skipSeparators_le text) with hshorter | hsame
    · exact Prod.Lex.left _ _ hshorter
    · rw [hsame]
      exact Prod.Lex.right _ Nat.zero_lt_one
  · exact Prod.Lex.left _ _ hshorter

end

/-- The forms of a text given as its characters. -/
def readChars (limit : Nat) (text : List Char) : Except ReadFault (List Datum) :=
  match readItems limit 0 text text (Nat.le_refl _) [] with
  | .error .tooDeep => .error (.tooDeep limit)
  | .error (.unclosed rest) => .error (.unclosed (byteLength text - byteLength rest))
  | .ok items =>
    match skipSeparators items.rest with
    | [] => .ok items.newestFirst.reverse
    | rest => .error (.unexpectedClose (byteLength text - byteLength rest))

/-- The forms of a program text in which at most `limit` lists are open at once. -/
def read (limit : Nat) (text : String) : Except ReadFault (List Datum) :=
  readChars limit text.toList

end MiniLisp.Datum
