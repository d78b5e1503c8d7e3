import MiniLisp.Number.Shortest

/-!
# The written form of a number

A finite number is written with its shortest digits in positional notation: no exponent, a point
only before a fraction, a zero before a leading point, and a minus sign also on negative zero.  The
three other readings are written `inf`, `-inf` and `NaN`.
-/

namespace MiniLisp.Number

/-- Positional notation of a decimal: the digits followed by zeros, or with a point among or before
them. -/
def Decimal.plain (d : Decimal) : List Char :=
  let digits := Nat.toDigits 10 d.digits
  if 0 ≤ d.exponent then digits ++ List.replicate d.exponent.toNat '0'
  else
    let places := (-d.exponent).toNat
    if places < digits.length then
      digits.take (digits.length - places) ++ '.' :: digits.drop (digits.length - places)
    else '0' :: '.' :: (List.replicate (places - digits.length) '0' ++ digits)

/-- Positional notation of a magnitude. -/
def Dyadic.plain (v : Dyadic) : List Char :=
  if v.significand = 0 then ['0'] else v.shortest.plain

/-- The written form as a list of characters. -/
def Reading.chars : Reading → List Char
  | .notANumber => ['N', 'a', 'N']
  | .infinite negative => (if negative then ['-'] else []) ++ ['i', 'n', 'f']
  | .finite negative v => (if negative then ['-'] else []) ++ v.plain

/-- The written form of a number. -/
def text (x : Float) : String :=
  String.ofList (read x).chars

end MiniLisp.Number
