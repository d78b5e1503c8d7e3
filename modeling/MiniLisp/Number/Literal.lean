import MiniLisp.Number.Dyadic

/-!
# Number tokens

A number token is `[+-]? (D+ (. D*)? | . D+) ([eE] [+-]? D+)?` with `D` an ASCII digit.  A token of
that form stands for an exact decimal fraction, which is rounded once to the nearest double.
-/

namespace MiniLisp.Number

/-- An exact decimal fraction `± digits · 10 ^ scale`, its digits as written. -/
structure Literal where
  negative : Bool
  digits : List Char
  scale : Int
deriving DecidableEq

/-- The value of a string of decimal digits. -/
def digitsValue (digits : List Char) : Nat :=
  digits.foldl (fun value c => 10 * value + (c.toNat - '0'.toNat)) 0

/-- Splits off an optional sign; the first part says whether it is a minus sign. -/
def splitSign : List Char → Bool × List Char
  | '-' :: rest => (true, rest)
  | '+' :: rest => (false, rest)
  | rest => (false, rest)

/-- Splits off an optional point with the digits behind it. -/
def splitFraction : List Char → List Char × List Char
  | '.' :: rest => (rest.takeWhile Char.isDigit, rest.dropWhile Char.isDigit)
  | rest => ([], rest)

/-- The exponent that makes up the rest of a token: nothing, or `e` with a whole number. -/
def exponent? : List Char → Option Int
  | [] => some 0
  | c :: rest =>
    let (negative, digits) := splitSign rest
    if (c = 'e' ∨ c = 'E') ∧ digits ≠ [] ∧ digits.all Char.isDigit then
      some (if negative then -(digitsValue digits : Int) else digitsValue digits)
    else none

/-- Reads a whole token as a number token. -/
def Literal.ofChars? (token : List Char) : Option Literal :=
  let (negative, body) := splitSign token
  let whole := body.takeWhile Char.isDigit
  let (fraction, rest) := splitFraction (body.dropWhile Char.isDigit)
  if whole = [] ∧ fraction = [] then none
  else (exponent? rest).map fun e => ⟨negative, whole ++ fraction, e - fraction.length⟩

/-- The nearest double.  With `n` digits after the leading zeros the magnitude lies between
`10 ^ (n + scale - 1)` and `10 ^ (n + scale)`, so far outside the doubles' range the answer is
infinity or zero whatever the digits are, and no huge power is computed. -/
def Literal.toFloat (literal : Literal) : Float :=
  let significant := literal.digits.dropWhile (· = '0')
  let top : Int := significant.length + literal.scale
  let value := digitsValue significant
  if value = 0 ∨ top < -330 then ofMagnitude literal.negative 0
  else if 310 < top then ofMagnitude literal.negative infinityBits
  else if 0 ≤ literal.scale then ofRatio literal.negative (value * tenPow literal.scale.toNat) 1
  else ofRatio literal.negative value (tenPow (-literal.scale).toNat)

/-- The number that a token denotes, or `none` if it is not a number token. -/
def ofToken? (token : List Char) : Option Float :=
  (Literal.ofChars? token).map Literal.toFloat

end MiniLisp.Number
