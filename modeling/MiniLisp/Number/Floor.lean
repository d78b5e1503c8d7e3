import MiniLisp.Number.Dyadic

/-!
# The greatest whole number below

Rounding down goes away from zero for negative numbers.  Numbers without a fraction, infinities
among them, stay as they are.
-/

namespace MiniLisp.Number

/-- A magnitude `m / 2 ^ k` rounded to a whole number: down, or up below a minus sign. -/
def floorMagnitude (negative : Bool) (m k : Nat) : Nat :=
  let whole := m / twoPow k
  if negative ∧ m % twoPow k ≠ 0 then whole + 1 else whole

/-- The greatest whole number that is not above `x`; zero keeps its sign. -/
def floor (x : Float) : Float :=
  match read x with
  | .finite negative v =>
    if 0 ≤ v.exponent then x
    else ofRatio negative (floorMagnitude negative v.significand (-v.exponent).toNat) 1
  | _ => x

end MiniLisp.Number
