import Mathlib.Data.Nat.Cast.Field
import Mathlib.Tactic.Ring
import MiniLisp.Proofs.Number.Rounding

/-!
# Shortest decimals stand for their doubles

The search for the shortest decimal of a double stops only at decimals that the double stands for: on the
coarser grids because the decimal was compared with the ends of the interval (`near_of_covers`), on the
finest one because the double itself is a point of this grid.
-/

namespace MiniLisp.Number

variable {num den : Nat} {v : Dyadic} {digits : Nat} {j : Int}

@[simp] theorem cast_tenPow (k : Nat) : ((tenPow k : Nat) : ℚ) = 10 ^ k := by
  have hpow : tenPow k = 10 ^ k := rfl
  simp [hpow]

theorem tenPow_pos (k : Nat) : 0 < tenPow k := Nat.pow_pos (by decide)

/-! ## Units -/

theorem inTens_pos (hden : 0 < den) (j : Int) : 0 < (inTens num den j).2 := by
  unfold inTens
  split
  · exact Nat.mul_pos hden (tenPow_pos _)
  · exact hden

/-- A fraction in units of a power of ten is divided by this power. -/
theorem inTens_eq (num den : Nat) (j : Int) :
    ((inTens num den j).1 : ℚ) / (inTens num den j).2 = num / den / 10 ^ j := by
  unfold inTens
  split
  · rename_i hj
    simp [zpow_of_nonneg 10 hj, div_div]
  · rename_i hj
    simp [zpow_of_neg 10 hj, mul_div_right_comm]

/-- The unit of a fraction does not depend on its numerator. -/
theorem inTens_unit (num num' den : Nat) (j : Int) : (inTens num den j).2 = (inTens num' den j).2 := by
  unfold inTens
  split <;> rfl

/-- The decimal as a fraction. -/
def Decimal.value (d : Decimal) : ℚ := d.digits * 10 ^ d.exponent

namespace Dyadic

theorem quarters_pos (v : Dyadic) (count : Nat) : 0 < (v.quarters count).2 := by
  unfold quarters
  dsimp only
  split
  · exact Nat.one_pos
  · exact twoPow_pos _

theorem quarters_eq (v : Dyadic) (count : Nat) :
    ((v.quarters count).1 : ℚ) / (v.quarters count).2 = count / 4 * 2 ^ v.exponent := by
  have hfour : (2 : ℚ) ^ v.exponent = 4 * 2 ^ (v.exponent - 2) := by
    rw [zpow_sub₀ (by norm_num)]
    norm_num
    field_simp
  unfold quarters
  dsimp only
  split
  · rename_i he
    rw [hfour, zpow_of_nonneg 2 he]
    simp
    ring
  · rename_i he
    rw [hfour, zpow_of_neg 2 he]
    simp
    field_simp

/-- The denominator of quarters does not depend on their number. -/
theorem quarters_den (v : Dyadic) (count count' : Nat) :
    (v.quarters count).2 = (v.quarters count').2 := by
  unfold quarters
  dsimp only
  split <;> rfl

/-- Some quarters of the last place, on the grid of a power of ten. -/
def gridded (v : Dyadic) (count : Nat) (j : Int) : Nat × Nat :=
  inTens (v.quarters count).1 (v.quarters count).2 j

theorem gridded_pos (v : Dyadic) (count : Nat) (j : Int) : 0 < (v.gridded count j).2 :=
  inTens_pos (v.quarters_pos count) j

theorem gridded_unit (v : Dyadic) (count count' : Nat) (j : Int) :
    (v.gridded count j).2 = (v.gridded count' j).2 := by
  unfold gridded
  rw [v.quarters_den count count']
  exact inTens_unit _ _ _ _

/-- The scale of a grid: how many of its units make up a quarter of the last place. -/
def gridScale (v : Dyadic) (unit : Nat) (j : Int) : ℚ := unit * 2 ^ v.exponent / (4 * 10 ^ j)

theorem gridScale_pos {unit : Nat} (v : Dyadic) (hunit : 0 < unit) (j : Int) :
    0 < v.gridScale unit j := by
  have hunit' : (0 : ℚ) < unit := by exact_mod_cast hunit
  unfold gridScale
  positivity

theorem gridded_eq (v : Dyadic) (count : Nat) (j : Int) :
    ((v.gridded count j).1 : ℚ) = v.gridScale (v.gridded count j).2 j * count := by
  have hunit : (0 : ℚ) < (v.gridded count j).2 := by exact_mod_cast v.gridded_pos count j
  have hvalue : ((v.gridded count j).1 : ℚ) / (v.gridded count j).2 =
      count / 4 * 2 ^ v.exponent / 10 ^ j := by
    rw [gridded, inTens_eq, quarters_eq]
  rw [div_eq_iff (ne_of_gt hunit)] at hvalue
  rw [hvalue, gridScale]
  field_simp

/-- A decimal in units of its grid. -/
theorem point_eq (v : Dyadic) (unit digits : Nat) (j : Int) :
    ((digits * unit : Nat) : ℚ) =
      v.gridScale unit j * (4 * (digits * 10 ^ j / 2 ^ v.exponent)) := by
  rw [gridScale]
  push_cast
  field_simp

/-! ## Decimals that are found -/

/-- The comparison is made on the grid of the decimal. -/
theorem covers_eq (v : Dyadic) (digits : Nat) (j : Int) :
    v.covers digits j =
      let low := v.gridded (4 * v.significand - v.reachBelow) j
      let high := (v.gridded (4 * v.significand + 2) j).1
      if v.significand % 2 = 0 then low.1 ≤ digits * low.2 && digits * low.2 ≤ high
      else low.1 < digits * low.2 && digits * low.2 < high := by
  unfold covers gridded
  rw [v.quarters_den (4 * v.significand + 2) (4 * v.significand - v.reachBelow)]

/-- The decimals of a double, as they are found on a grid, belong to it. -/
theorem near_of_covers (hv : 0 < v.significand) (h : v.covers digits j = true) :
    v.Near (digits * 10 ^ j) := by
  -- subtraction of naturals is exact here, as the reach is at most two quarters
  have hreach : ((4 * v.significand - v.reachBelow : Nat) : ℚ) =
      4 * v.significand - v.reachBelow := by
    have hle : v.reachBelow ≤ 4 * v.significand := Nat.le_trans v.reachBelow_le (by omega)
    push_cast [Nat.cast_sub hle]
    rfl
  have hunit := v.gridded_pos (4 * v.significand - v.reachBelow) j
  have hlow := v.gridded_eq (4 * v.significand - v.reachBelow) j
  have hhigh := v.gridded_eq (4 * v.significand + 2) j
  rw [v.gridded_unit _ (4 * v.significand - v.reachBelow)] at hhigh
  have hpoint := v.point_eq (v.gridded (4 * v.significand - v.reachBelow) j).2 digits j
  have hscale := v.gridScale_pos hunit j
  rw [covers_eq] at h
  dsimp only at h
  rw [hreach] at hlow
  push_cast at hhigh
  -- an even significand covers the ends of its interval too
  split at h
  · rename_i heven
    rw [Bool.and_eq_true, decide_eq_true_eq, decide_eq_true_eq] at h
    rw [← Nat.cast_le (α := ℚ), ← Nat.cast_le (α := ℚ), hlow, hhigh, hpoint,
      mul_le_mul_iff_right₀ hscale, mul_le_mul_iff_right₀ hscale] at h
    exact ⟨h.1, h.2, fun hodd => by omega⟩
  · rw [Bool.and_eq_true, decide_eq_true_eq, decide_eq_true_eq] at h
    rw [← Nat.cast_lt (α := ℚ), ← Nat.cast_lt (α := ℚ), hlow, hhigh, hpoint,
      mul_lt_mul_iff_right₀ hscale, mul_lt_mul_iff_right₀ hscale] at h
    exact ⟨le_of_lt h.1, le_of_lt h.2, fun _ => h⟩

theorem covers_of_onGrid? (h : v.onGrid? j = some digits) : v.covers digits j = true := by
  unfold onGrid? at h
  dsimp only at h
  split at h
  · rename_i hbelow habove
    split at h
    · obtain rfl := Option.some.inj h
      exact hbelow
    · obtain rfl := Option.some.inj h
      exact habove
  · rename_i hbelow _
    obtain rfl := Option.some.inj h
    exact hbelow
  · rename_i _ habove
    obtain rfl := Option.some.inj h
    exact habove
  · cases h

/-- A double belongs to itself. -/
theorem near_self (v : Dyadic) : v.Near (v.significand * 2 ^ v.exponent) := by
  have htwo : (0 : ℚ) < 2 ^ v.exponent := by positivity
  have hvalue : (v.significand * 2 ^ v.exponent / 2 ^ v.exponent : ℚ) = v.significand :=
    mul_div_cancel_right₀ _ (ne_of_gt htwo)
  have hreach : (0 : ℚ) < v.reachBelow := by
    have hpos : 0 < v.reachBelow := by
      unfold reachBelow
      split <;> omega
    exact_mod_cast hpos
  refine ⟨?_, ?_, fun _ => ⟨?_, ?_⟩⟩
  all_goals
    rw [hvalue]
    linarith

/-- A double is a point of the finest grid. -/
theorem finest_dvd (v : Dyadic) :
    (v.gridded (4 * v.significand) v.finestExponent).2 ∣
      (v.gridded (4 * v.significand) v.finestExponent).1 := by
  unfold gridded quarters finestExponent inTens
  dsimp only
  -- integers need no digits after the point, and a fraction `1 / 2 ^ k` needs `k` of them
  by_cases hq : 0 ≤ v.exponent
  · have hfinest : min v.exponent 0 = 0 := Int.min_eq_right hq
    have hone : tenPow (0 : Int).toNat = 1 := rfl
    rw [hfinest, if_pos (Int.le_refl 0), hone, Nat.mul_one]
    split
    · exact Nat.one_dvd _
    · rename_i hsmall
      have hfour : twoPow (-(v.exponent - 2)).toNat ∣ 4 := by
        have hcases : v.exponent = 0 ∨ v.exponent = 1 := by omega
        rcases hcases with h | h <;> rw [h] <;> decide
      exact Nat.dvd_trans hfour (Nat.dvd_mul_right 4 v.significand)
  · have hfinest : min v.exponent 0 = v.exponent := Int.min_eq_left (by omega)
    rw [hfinest, if_neg hq, if_neg (by omega)]
    obtain ⟨k, hk⟩ : ∃ k : Nat, v.exponent = -(k : Int) := ⟨(-v.exponent).toNat, by omega⟩
    have hden : (-(v.exponent - 2)).toNat = k + 2 := by omega
    have hnum : (-v.exponent).toNat = k := by omega
    rw [hden, hnum]
    have hten : twoPow k ∣ tenPow k := pow_dvd_pow_of_dvd (by decide : 2 ∣ 10) k
    have hfour : twoPow (k + 2) = 4 * twoPow k := by
      show 2 ^ (k + 2) = 4 * 2 ^ k
      rw [Nat.pow_add, Nat.mul_comm]
    rw [hfour, Nat.mul_assoc]
    exact Nat.mul_dvd_mul_left 4 (Nat.dvd_trans hten (Nat.dvd_mul_left _ _))

theorem near_finest (v : Dyadic) :
    let grid := v.gridded (4 * v.significand) v.finestExponent
    v.Near ((grid.1 / grid.2 : Nat) * 10 ^ v.finestExponent) := by
  have hunit : ((v.gridded (4 * v.significand) v.finestExponent).2 : ℚ) ≠ 0 := by
    exact_mod_cast Nat.ne_of_gt (v.gridded_pos (4 * v.significand) v.finestExponent)
  have hten : (10 : ℚ) ^ v.finestExponent ≠ 0 := by positivity
  have hvalue : (((v.gridded (4 * v.significand) v.finestExponent).1 /
      (v.gridded (4 * v.significand) v.finestExponent).2 : Nat) : ℚ) * 10 ^ v.finestExponent =
      v.significand * 2 ^ v.exponent := by
    rw [Nat.cast_div v.finest_dvd hunit, gridded, inTens_eq, quarters_eq, div_mul_cancel₀ _ hten]
    push_cast
    ring
  dsimp only
  rw [hvalue]
  exact v.near_self

theorem near_searchGrids (hv : 0 < v.significand) (k : Nat) : v.Near (v.searchGrids k).value := by
  induction k with
  | zero => exact v.near_finest
  | succ k ih =>
    unfold searchGrids
    split
    · rename_i digits hfound
      exact near_of_covers hv (covers_of_onGrid? hfound)
    · exact ih

/-- A double stands for its shortest decimal. -/
theorem near_shortest (hv : 0 < v.significand) : v.Near v.shortest.value :=
  near_searchGrids hv _

end Dyadic

end MiniLisp.Number
