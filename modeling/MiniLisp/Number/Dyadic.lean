/-!
# Double precision numbers as fractions

The language's numbers are IEEE doubles.  This module opens one into its sign and the exact
magnitude `m · 2 ^ q`, and rounds an exact fraction to the nearest double.  Everything between the
two is arithmetic on natural numbers, so reading, printing and the remainder need no rounding of
their own.
-/

namespace MiniLisp.Number

/-- A power of two. -/
def twoPow (k : Nat) : Nat := Nat.pow 2 k

/-- A power of ten. -/
def tenPow (k : Nat) : Nat := Nat.pow 10 k

/-- The magnitude `significand · 2 ^ exponent`. -/
structure Dyadic where
  significand : Nat
  exponent : Int
deriving DecidableEq

/-- What a double stands for. -/
inductive Reading where
  | notANumber
  | infinite (negative : Bool)
  | finite (negative : Bool) (magnitude : Dyadic)
deriving DecidableEq

/-- The significand that a normal number leaves out: `2 ^ 52`. -/
def hiddenBit : Nat := twoPow 52

/-- The exponent of the smallest positive double. -/
def leastExponent : Int := -1074

/-- The bit pattern of infinity, above those of all finite magnitudes. -/
def infinityBits : Nat := 2047 * twoPow 52

/-- Opens a double: its fields are a sign bit, eleven bits of exponent and 52 bits of fraction. -/
def read (x : Float) : Reading :=
  let bits := x.toBits.toNat
  let negative := twoPow 63 ≤ bits
  let biased : Nat := bits / twoPow 52 % twoPow 11
  let fraction : Nat := bits % twoPow 52
  if biased = 2047 then
    if fraction = 0 then .infinite negative else .notANumber
  else if biased = 0 then .finite negative ⟨fraction, leastExponent⟩
  else .finite negative ⟨hiddenBit + fraction, (biased : Int) - 1075⟩

/-- The whole number nearest to `num / den`; a half goes to the even neighbour. -/
def roundHalfEven (num den : Nat) : Nat :=
  let quotient := num / den
  let twice := 2 * (num % den)
  if twice < den then quotient
  else if den < twice then quotient + 1
  else quotient + quotient % 2

/-- The fraction `num / den` divided by `2 ^ e`. -/
def scaleDown (num den : Nat) (e : Int) : Nat × Nat :=
  if 0 ≤ e then (num, den * twoPow e.toNat) else (num * twoPow (-e).toNat, den)

/-- The whole number `k` with `2 ^ k ≤ num / den < 2 ^ (k + 1)`, for positive `num` and `den`. -/
def floorLog2 (num den : Nat) : Int :=
  let k : Int := (num.log2 : Int) - den.log2
  let (n, d) := scaleDown num den k
  if n < d then k - 1 else k

/-- The bit pattern of the double nearest to `num / den`, both positive.  The significand is taken
in units of the last place; since a carry out of it raises the exponent field, rounding up to the
next power of two needs no case of its own. -/
def nearestBits (num den : Nat) : Nat :=
  let e := max (floorLog2 num den - 52) leastExponent
  let (n, d) := scaleDown num den e
  let bits := (e - leastExponent).toNat * twoPow 52 + roundHalfEven n d
  min bits infinityBits

/-- A double from its sign and the bit pattern of its magnitude. -/
def ofMagnitude (negative : Bool) (bits : Nat) : Float :=
  Float.ofBits (UInt64.ofNat (if negative then twoPow 63 + bits else bits))

/-- The double nearest to `± num / den`; zero keeps its sign. -/
def ofRatio (negative : Bool) (num den : Nat) : Float :=
  ofMagnitude negative (if num = 0 then 0 else nearestBits num den)

end MiniLisp.Number
