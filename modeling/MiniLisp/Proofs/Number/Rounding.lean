import Mathlib.Algebra.Order.Field.Power
import Mathlib.Tactic.FieldSimp
import Mathlib.Tactic.Linarith
import Mathlib.Tactic.Positivity
import MiniLisp.Number.Shortest

/-!
# Rounding to the nearest double

A double `m · 2 ^ q` stands for the fractions from half way down to the next smaller double to half way
up to the next larger one; the half ways belong to it if `m` is even (`Dyadic.Near`).  A fraction that a
double stands for is rounded to this double (`nearestBits_eq`), and the bit pattern of a double is made of
its sign and its reading (`fields_of_read`).
-/

namespace MiniLisp.Number

variable {num den : Nat} {m : Nat} {x : Float} {negative : Bool} {v : Dyadic} {r : ℚ}

@[simp] theorem cast_twoPow (k : Nat) : ((twoPow k : Nat) : ℚ) = 2 ^ k := by
  have hpow : twoPow k = 2 ^ k := rfl
  simp [hpow]

theorem twoPow_11 : twoPow 11 = 2048 := rfl

theorem twoPow_52 : twoPow 52 = 4503599627370496 := rfl

theorem twoPow_63 : twoPow 63 = 9223372036854775808 := rfl

theorem twoPow_pos (k : Nat) : 0 < twoPow k := Nat.two_pow_pos k

/-! ## Scaling -/

theorem zpow_of_nonneg (b : ℚ) {e : Int} (he : 0 ≤ e) : b ^ e = b ^ e.toNat := by
  rw [← zpow_natCast, Int.toNat_of_nonneg he]

theorem zpow_of_neg (b : ℚ) {e : Int} (he : ¬ 0 ≤ e) : b ^ e = (b ^ (-e).toNat)⁻¹ := by
  rw [← zpow_natCast, Int.toNat_of_nonneg (by omega), zpow_neg, inv_inv]

theorem scaleDown_pos (hden : 0 < den) (e : Int) : 0 < (scaleDown num den e).2 := by
  unfold scaleDown
  split
  · exact Nat.mul_pos hden (twoPow_pos _)
  · exact hden

/-- Scaling down is division by a power of two. -/
theorem scaleDown_eq (num den : Nat) (e : Int) :
    ((scaleDown num den e).1 : ℚ) / (scaleDown num den e).2 = num / den / 2 ^ e := by
  unfold scaleDown
  split
  · rename_i he
    simp [zpow_of_nonneg 2 he, div_div]
  · rename_i he
    simp [zpow_of_neg 2 he, mul_div_right_comm]

/-- The logarithm of a fraction of whole numbers lies between those of its parts. -/
theorem log2_bounds (hnum : 0 < num) (hden : 0 < den) :
    (2 : ℚ) ^ ((num.log2 : Int) - den.log2 - 1) ≤ num / den ∧
      (num / den : ℚ) < 2 ^ ((num.log2 : Int) - den.log2 + 1) := by
  have htwo : (2 : ℚ) ≠ 0 := by norm_num
  have hden' : (0 : ℚ) < den := by exact_mod_cast hden
  -- each logarithm is off by less than one, and the two errors add up
  constructor
  · have hbelow : (2 : ℚ) ^ (num.log2 : Int) ≤ num := by
      rw [zpow_natCast]
      exact_mod_cast Nat.log2_self_le (Nat.ne_of_gt hnum)
    have habove : (den : ℚ) ≤ 2 ^ ((den.log2 : Int) + 1) := by
      exact_mod_cast Nat.le_of_lt Nat.lt_log2_self
    rw [le_div_iff₀ hden']
    calc (2 : ℚ) ^ ((num.log2 : Int) - den.log2 - 1) * den
        ≤ 2 ^ ((num.log2 : Int) - den.log2 - 1) * 2 ^ ((den.log2 : Int) + 1) := by gcongr
      _ = 2 ^ (num.log2 : Int) := by
        rw [← zpow_add₀ htwo]
        congr 1
        omega
      _ ≤ num := hbelow
  · have hbelow : (2 : ℚ) ^ (den.log2 : Int) ≤ den := by
      rw [zpow_natCast]
      exact_mod_cast Nat.log2_self_le (Nat.ne_of_gt hden)
    have habove : (num : ℚ) < 2 ^ ((num.log2 : Int) + 1) := by
      exact_mod_cast Nat.lt_log2_self
    rw [div_lt_iff₀ hden']
    calc (num : ℚ) < 2 ^ ((num.log2 : Int) + 1) := habove
      _ = 2 ^ ((num.log2 : Int) - den.log2 + 1) * 2 ^ (den.log2 : Int) := by
        rw [← zpow_add₀ htwo]
        congr 1
        omega
      _ ≤ 2 ^ ((num.log2 : Int) - den.log2 + 1) * den := by gcongr

/-- `floorLog2` is the exponent of the greatest power of two that is not above a fraction. -/
theorem floorLog2_spec (hnum : 0 < num) (hden : 0 < den) :
    (2 : ℚ) ^ floorLog2 num den ≤ num / den ∧ (num / den : ℚ) < 2 ^ (floorLog2 num den + 1) := by
  obtain ⟨hlow, hhigh⟩ := log2_bounds hnum hden
  have hscaled := scaleDown_eq num den ((num.log2 : Int) - den.log2)
  have hpos : (0 : ℚ) < (scaleDown num den ((num.log2 : Int) - den.log2)).2 := by
    exact_mod_cast scaleDown_pos hden ((num.log2 : Int) - den.log2)
  unfold floorLog2
  dsimp only
  split
  · rename_i hlt
    have hbelow : (num / den : ℚ) < 2 ^ ((num.log2 : Int) - den.log2) := by
      have hquotient : (num / den / 2 ^ ((num.log2 : Int) - den.log2) : ℚ) < 1 := by
        rw [← hscaled, div_lt_one hpos]
        exact_mod_cast hlt
      rwa [div_lt_one (by positivity)] at hquotient
    refine ⟨hlow, ?_⟩
    rwa [sub_add_cancel]
  · rename_i hle
    refine ⟨?_, hhigh⟩
    have hquotient : (1 : ℚ) ≤ num / den / 2 ^ ((num.log2 : Int) - den.log2) := by
      rw [← hscaled, one_le_div hpos]
      exact_mod_cast Nat.le_of_not_lt hle
    rwa [one_le_div (by positivity)] at hquotient

/-! ## Whole numbers -/

/-- A fraction at most a half away from a whole number is rounded to it; a half away only if the whole
number is even. -/
theorem roundHalfEven_eq (hden : 0 < den) (hlow : (2 * m - 1 : ℚ) ≤ 2 * (num / den))
    (hhigh : (2 * (num / den) : ℚ) ≤ 2 * m + 1)
    (hodd : m % 2 = 1 → (2 * m - 1 : ℚ) < 2 * (num / den) ∧ (2 * (num / den) : ℚ) < 2 * m + 1) :
    roundHalfEven num den = m := by
  have hden' : (0 : ℚ) < den := by exact_mod_cast hden
  have hcancel : (num / den : ℚ) * den = num := div_mul_cancel₀ _ (ne_of_gt hden')
  -- without the fractions all conditions are about natural numbers
  have hlow' : 2 * m * den ≤ 2 * num + den := by
    have h : (2 * m * den : ℚ) ≤ 2 * num + den := by nlinarith
    exact_mod_cast h
  have hhigh' : 2 * num ≤ 2 * m * den + den := by
    have h : (2 * num : ℚ) ≤ 2 * m * den + den := by nlinarith
    exact_mod_cast h
  have hodd' : m % 2 = 1 → 2 * m * den < 2 * num + den ∧ 2 * num < 2 * m * den + den := by
    intro hm
    obtain ⟨hl, hh⟩ := hodd hm
    have hl' : (2 * m * den : ℚ) < 2 * num + den := by nlinarith
    have hh' : (2 * num : ℚ) < 2 * m * den + den := by nlinarith
    exact ⟨by exact_mod_cast hl', by exact_mod_cast hh'⟩
  have hdivision : den * (num / den) + num % den = num := Nat.div_add_mod num den
  have hrest : num % den < den := Nat.mod_lt num hden
  unfold roundHalfEven
  dsimp only
  generalize num / den = quotient at hdivision ⊢
  generalize num % den = rest at hdivision hrest ⊢
  -- as the rest is less than `den`, only the quotient and its successor are near enough
  have hquotient : m = quotient ∨ m = quotient + 1 := by
    have hle : m < quotient + 2 := by nlinarith
    have hge : quotient < m + 1 := by nlinarith
    omega
  rcases hquotient with rfl | rfl
  · have hrest' : 2 * rest ≤ den := by nlinarith
    by_cases hhalf : 2 * rest < den
    · rw [if_pos hhalf]
    -- half way between two numbers `m` has to be the even one
    · have heven : m % 2 = 0 := by
        by_contra hm
        have := (hodd' (by omega)).2
        nlinarith
      rw [if_neg hhalf, if_neg (by omega), heven, Nat.add_zero]
  · have hrest' : den ≤ 2 * rest := by nlinarith
    by_cases hhalf : den < 2 * rest
    · rw [if_neg (by omega), if_pos hhalf]
    · have heven : (quotient + 1) % 2 = 0 := by
        by_contra hm
        have := (hodd' (by omega)).1
        nlinarith
      rw [if_neg (by omega), if_neg hhalf]
      omega

/-! ## Doubles -/

namespace Dyadic

/-- The significand and the exponent of a positive or zero double: only the least exponent goes with
significands below the hidden bit. -/
structure Canonical (v : Dyadic) : Prop where
  significand : v.significand < 2 * hiddenBit
  least : leastExponent ≤ v.exponent
  greatest : v.exponent ≤ 971
  normal : v.exponent = leastExponent ∨ hiddenBit ≤ v.significand

/-- The double stands for the fraction. -/
structure Near (v : Dyadic) (r : ℚ) : Prop where
  low : (4 * v.significand - v.reachBelow : ℚ) ≤ 4 * (r / 2 ^ v.exponent)
  high : 4 * (r / 2 ^ v.exponent) ≤ (4 * v.significand + 2 : ℚ)
  odd : v.significand % 2 = 1 → (4 * v.significand - v.reachBelow : ℚ) < 4 * (r / 2 ^ v.exponent) ∧
    4 * (r / 2 ^ v.exponent) < (4 * v.significand + 2 : ℚ)

/-- The bit pattern of a double. -/
def bits (v : Dyadic) : Nat := (v.exponent - leastExponent).toNat * twoPow 52 + v.significand

theorem reachBelow_le (v : Dyadic) : v.reachBelow ≤ 2 := by
  unfold reachBelow
  split <;> omega

theorem bits_lt (h : v.Canonical) : v.bits < infinityBits := by
  have hsignificand := h.significand
  have hleast := h.least
  have hgreatest := h.greatest
  simp only [hiddenBit, leastExponent, bits, infinityBits, twoPow_52] at *
  omega

end Dyadic

/-- The unit in which a fraction is rounded is that of the double that stands for it, except right below
a power of two, where it may be half of it. -/
theorem unit_of_near (h : v.Canonical) (hr : v.Near r) {k : Int} (hlow : (2 : ℚ) ^ k ≤ r)
    (hhigh : r < 2 ^ (k + 1)) :
    max (k - 52) leastExponent = v.exponent ∨
      max (k - 52) leastExponent = v.exponent - 1 ∧ v.significand = hiddenBit ∧
        r / 2 ^ v.exponent < 2 ^ (52 : Int) := by
  have htwo : (1 : ℚ) < 2 := by norm_num
  have hscale : (0 : ℚ) < 2 ^ v.exponent := by positivity
  have hbit : hiddenBit = 4503599627370496 := rfl
  have hnearHigh := hr.high
  have hnearLow := hr.low
  have hbelow : (v.reachBelow : ℚ) ≤ 2 := by exact_mod_cast v.reachBelow_le
  have hlow' : (2 : ℚ) ^ (k - v.exponent) ≤ r / 2 ^ v.exponent := by
    rw [zpow_sub₀ (by norm_num)]
    gcongr
  have hhigh' : r / 2 ^ v.exponent < (2 : ℚ) ^ (k + 1 - v.exponent) := by
    rw [zpow_sub₀ (by norm_num)]
    gcongr
  generalize r / 2 ^ v.exponent = s at *
  have hsignificand : (v.significand : ℚ) ≤ 2 * 4503599627370496 - 1 := by
    have hlt := h.significand
    rw [hbit] at hlt
    have hle : v.significand + 1 ≤ 2 * 4503599627370496 := hlt
    have hcast : (v.significand + 1 : ℚ) ≤ 2 * 4503599627370496 := by exact_mod_cast hle
    linarith
  -- below this bound 53 bits would allow a smaller exponent than that of `v`
  by_cases hs : (2 : ℚ) ^ (52 : Int) ≤ s
  · left
    have hupper : (2 : ℚ) ^ (k - v.exponent) < 2 ^ (53 : Int) := by
      refine lt_of_le_of_lt hlow' ?_
      norm_num
      linarith
    have hk : k - v.exponent < 53 := (zpow_lt_zpow_iff_right₀ htwo).mp hupper
    have hk' : 52 < k + 1 - v.exponent := (zpow_lt_zpow_iff_right₀ htwo).mp (lt_of_le_of_lt hs hhigh')
    have hleast := h.least
    simp only [leastExponent] at *
    omega
  · have hlt : s < (2 : ℚ) ^ (52 : Int) := lt_of_not_ge hs
    have hk : k - v.exponent < 52 := (zpow_lt_zpow_iff_right₀ htwo).mp (lt_of_le_of_lt hlow' hlt)
    -- the exponent cannot become less than the least one
    by_cases hleast : v.exponent = leastExponent
    · left
      simp only [leastExponent] at *
      omega
    · right
      have hnormal : hiddenBit ≤ v.significand := h.normal.resolve_left hleast
      -- only a power of two is near to numbers with a smaller exponent
      have hsame : v.significand = hiddenBit := by
        refine Nat.le_antisymm ?_ hnormal
        refine Nat.le_of_not_lt fun hgt => ?_
        have hcast : (4503599627370496 + 1 : ℚ) ≤ v.significand := by
          rw [hbit] at hgt
          exact_mod_cast hgt
        norm_num at hlt
        linarith
      have hclose : (2 : ℚ) ^ (51 : Int) < 2 ^ (k + 1 - v.exponent) := by
        refine lt_of_lt_of_le' hhigh' ?_
        rw [hsame, hbit] at hnearLow
        norm_num at hnearLow ⊢
        linarith
      have hk' : 51 < k + 1 - v.exponent := (zpow_lt_zpow_iff_right₀ htwo).mp hclose
      refine ⟨?_, hsame, hlt⟩
      have hleast' := h.least
      simp only [leastExponent] at *
      omega

/-- In the unit of the double that stands for it, a fraction is rounded to the significand. -/
theorem roundHalfEven_scaleDown (hden : 0 < den) (hr : v.Near (num / den)) :
    roundHalfEven (scaleDown num den v.exponent).1 (scaleDown num den v.exponent).2 =
      v.significand := by
  have hbelow : (v.reachBelow : ℚ) ≤ 2 := by exact_mod_cast v.reachBelow_le
  refine roundHalfEven_eq (scaleDown_pos hden _) ?_ ?_ ?_
  · rw [scaleDown_eq]
    linarith [hr.low]
  · rw [scaleDown_eq]
    linarith [hr.high]
  · intro hodd
    obtain ⟨hl, hh⟩ := hr.odd hodd
    rw [scaleDown_eq]
    constructor <;> linarith

/-- Right below a power of two, a fraction is rounded up to this power in half units. -/
theorem roundHalfEven_scaleDown_half (hden : 0 < den) (hr : v.Near (num / den))
    (hbit : v.significand = hiddenBit) (htop : (num / den / 2 ^ v.exponent : ℚ) < 2 ^ (52 : Int)) :
    roundHalfEven (scaleDown num den (v.exponent - 1)).1 (scaleDown num den (v.exponent - 1)).2 =
      2 * hiddenBit := by
  have hdouble : (num / den / 2 ^ (v.exponent - 1) : ℚ) = 2 * (num / den / 2 ^ v.exponent) := by
    rw [zpow_sub_one₀ (by norm_num)]
    field_simp
  have hnear := hr.low
  have hone : v.reachBelow = 1 := if_pos hbit
  have hvalue : hiddenBit = 4503599627370496 := rfl
  rw [hbit, hone, hvalue] at hnear
  norm_num at hnear htop
  refine roundHalfEven_eq (scaleDown_pos hden _) ?_ ?_ ?_
  · rw [scaleDown_eq, hdouble, hvalue]
    push_cast
    linarith
  · rw [scaleDown_eq, hdouble, hvalue]
    push_cast
    linarith
  · intro hodd
    exact absurd hodd (by decide)

/-- A fraction is rounded to the double that stands for it. -/
theorem nearestBits_eq (hnum : 0 < num) (hden : 0 < den) (h : v.Canonical)
    (hr : v.Near (num / den)) : nearestBits num den = v.bits := by
  have hlt := v.bits_lt h
  obtain ⟨hlow, hhigh⟩ := floorLog2_spec hnum hden
  have hpattern : (max (floorLog2 num den - 52) leastExponent - leastExponent).toNat * twoPow 52 +
      roundHalfEven (scaleDown num den (max (floorLog2 num den - 52) leastExponent)).1
        (scaleDown num den (max (floorLog2 num den - 52) leastExponent)).2 = v.bits := by
    rcases unit_of_near h hr hlow hhigh with hsame | ⟨hhalf, hbit, htop⟩
    · rw [hsame, roundHalfEven_scaleDown hden hr]
      rfl
    · -- the significand of the power of two carries over into the exponent
      rw [hhalf, roundHalfEven_scaleDown_half hden hr hbit htop, Dyadic.bits, hbit]
      have hnext : leastExponent ≤ v.exponent - 1 := hhalf ▸ le_max_right _ _
      simp only [hiddenBit, leastExponent, twoPow_52] at *
      omega
  unfold nearestBits
  dsimp only
  rw [hpattern]
  exact Nat.min_eq_left (Nat.le_of_lt hlt)

/-- A reading has the sign of the bit pattern and the bits below the sign. -/
theorem fields_of_read (h : read x = .finite negative v) :
    v.Canonical ∧ negative = decide (twoPow 63 ≤ x.toBits.toNat) ∧
      v.bits = x.toBits.toNat % twoPow 63 := by
  have hfraction : x.toBits.toNat % 4503599627370496 < 4503599627370496 := Nat.mod_lt _ (by decide)
  unfold read at h
  dsimp only at h
  split at h
  · split at h <;> cases h
  · split at h
    -- subnormal: no hidden bit, and the exponent is the least one
    · rename_i hzero
      cases h
      rw [twoPow_52, twoPow_11] at hzero
      refine ⟨⟨?_, Int.le_refl _, (by decide : (-1074 : Int) ≤ 971), .inl rfl⟩, rfl, ?_⟩
      · simp only [hiddenBit, twoPow_52]
        omega
      · simp only [Dyadic.bits, leastExponent, twoPow_63, twoPow_52]
        omega
    -- normal: the hidden bit is on top of the fraction
    · rename_i htop hzero
      cases h
      rw [twoPow_52, twoPow_11] at htop hzero
      refine ⟨⟨?_, ?_, ?_, .inr (Nat.le_add_right _ _)⟩, rfl, ?_⟩
      · simp only [hiddenBit, twoPow_52]
        omega
      · simp only [leastExponent, twoPow_52, twoPow_11]
        omega
      · simp only [twoPow_52, twoPow_11]
        omega
      · simp only [Dyadic.bits, leastExponent, hiddenBit, twoPow_63, twoPow_52, twoPow_11]
        omega

end MiniLisp.Number
