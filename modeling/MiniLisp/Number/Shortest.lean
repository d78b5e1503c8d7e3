import MiniLisp.Number.Dyadic

/-!
# The shortest decimal of a double

Every positive double is the nearest double to all decimals of an interval around it.  The coarsest
grid of multiples of a power of ten that has a point in this interval gives the decimals with the
fewest digits; of its points the one nearest to the double is taken, and the larger of two that are
equally near.
-/

namespace MiniLisp.Number

/-- The decimal `digits · 10 ^ exponent`. -/
structure Decimal where
  digits : Nat
  exponent : Int
deriving DecidableEq

/-- A fraction `num / den` in units of `10 ^ j`. -/
def inTens (num den : Nat) (j : Int) : Nat × Nat :=
  if 0 ≤ j then (num, den * tenPow j.toNat) else (num * tenPow (-j).toNat, den)

namespace Dyadic

/-- The fraction `count · 2 ^ (exponent - 2)`, a multiple of a quarter of the last place. -/
def quarters (v : Dyadic) (count : Nat) : Nat × Nat :=
  let e := v.exponent - 2
  if 0 ≤ e then (count * twoPow e.toNat, 1) else (count, twoPow (-e).toNat)

/-- How far below `v` the interval reaches, in quarters of the last place: half of the distance to
the next double, which is smaller below a power of two. -/
def reachBelow (v : Dyadic) : Nat :=
  if v.significand = hiddenBit then 1 else 2

/-- Does the double `v` stand for the decimal `digits · 10 ^ j`?  A decimal half way between two
doubles belongs to the one with the even significand. -/
def covers (v : Dyadic) (digits : Nat) (j : Int) : Bool :=
  let (low, den) := v.quarters (4 * v.significand - v.reachBelow)
  let (high, _) := v.quarters (4 * v.significand + 2)
  let (low, unit) := inTens low den j
  let (high, _) := inTens high den j
  let point := digits * unit
  if v.significand % 2 = 0 then low ≤ point && point ≤ high
  else low < point && point < high

/-- The point of the grid `10 ^ j` that stands for `v`, if there is one. -/
def onGrid? (v : Dyadic) (j : Int) : Option Nat :=
  let (num, den) := v.quarters (4 * v.significand)
  let (num, unit) := inTens num den j
  let below := num / unit
  match v.covers below j, v.covers (below + 1) j with
  | true, true => some (if 2 * (num % unit) < unit then below else below + 1)
  | true, false => some below
  | false, true => some (below + 1)
  | false, false => none

/-- `v` is a whole multiple of this power of ten. -/
def finestExponent (v : Dyadic) : Int := min v.exponent 0

/-- An exponent that `10 ^ _` of every decimal of `v` stays below: `0.30103` is more than the
logarithm of two. -/
def coarsestExponent (v : Dyadic) : Int :=
  ((v.significand.log2 : Int) + v.exponent + 2) * 30103 / 100000 + 1

/-- The first hit on the grids from `finestExponent + k` down to `finestExponent`, where `v` itself
is a grid point. -/
def searchGrids (v : Dyadic) : Nat → Decimal
  | 0 =>
    let (num, den) := v.quarters (4 * v.significand)
    let (num, unit) := inTens num den v.finestExponent
    ⟨num / unit, v.finestExponent⟩
  | k + 1 =>
    match v.onGrid? (v.finestExponent + (k + 1 : Nat)) with
    | some digits => ⟨digits, v.finestExponent + (k + 1 : Nat)⟩
    | none => v.searchGrids k

/-- The decimal with the fewest digits that reads back as `v`. -/
def shortest (v : Dyadic) : Decimal :=
  v.searchGrids (v.coarsestExponent - v.finestExponent).toNat

end Dyadic

end MiniLisp.Number
