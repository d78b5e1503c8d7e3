import Mathlib
import MiniLisp.Proofs.Number.Rounding

/-!
# Doubles and their bits

A double is given back by its bit pattern, and so by its reading (`ofMagnitude_of_read`).  Zeros are told
apart by their bits, which shows what a sum makes of them: negative zero is neutral, and positive zero takes
the sign of negative zero away.

That packing a double undoes unpacking it stands in the library itself, but no smaller part of the library
than the whole provides it.
-/

namespace MiniLisp.Number

open Float.Model

variable {x : Float} {xs : List Float} {negative : Bool} {v : Dyadic}

/-! ## Bit patterns -/

theorem pack_unpack (m : Float.Model) : pack m.unpack = m := by
  have hbits : UnpackedFloat.pack .binary64 m.unpack = m.toBits.toBitVec :=
    UnpackedFloat.pack_unpack_of_valid m.valid
  rw [Float.Model.mk.injEq]
  exact congrArg UInt64.ofBitVec hbits

/-- A double is what its reading stands for. -/
theorem ofMagnitude_of_read (h : read x = .finite negative v) : ofMagnitude negative v.bits = x := by
  obtain ⟨_, hsign, hbits⟩ := fields_of_read h
  have hsize : x.toBits.toNat < 18446744073709551616 := x.toBits.toNat_lt
  have hpattern : (if negative then twoPow 63 + v.bits else v.bits) = x.toBits.toNat := by
    rw [twoPow_63] at *
    by_cases hnegative : 9223372036854775808 ≤ x.toBits.toNat
    · rw [if_pos (by simp [hsign, hnegative])]
      omega
    · rw [if_neg (by simp [hsign, hnegative])]
      omega
  rw [ofMagnitude, hpattern, UInt64.ofNat_toNat, Float.ofBits_toBits]

/-! ## Sums -/

/-- Only negative zero is unpacked as it. -/
theorem eq_negZero_of_unpack (h : x.toModel.unpack = .zero .negative) : x = -0.0 := by
  have hmodel : x.toModel = (-0.0 : Float).toModel := by
    rw [← pack_unpack x.toModel, h]
    rfl
  exact congrArg Float.ofModel hmodel

theorem negZero_add (x : Float) : -0.0 + x = x := by
  have hsum : UnpackedFloat.add .binary64 (.zero .negative) x.toModel.unpack = x.toModel.unpack := by
    cases x.toModel.unpack with
    | zero s => cases s <;> rfl
    | _ => rfl
  have hmodel : pack (UnpackedFloat.add .binary64 (.zero .negative) x.toModel.unpack) = x.toModel := by
    rw [hsum, pack_unpack]
  exact congrArg Float.ofModel hmodel

/-- Positive zero changes no number but negative zero, of which it takes the sign away. -/
theorem zero_add_of_ne (h : x ≠ -0.0) : 0 + x = x := by
  have hsum : UnpackedFloat.add .binary64 (.zero .positive) x.toModel.unpack = x.toModel.unpack := by
    cases hx : x.toModel.unpack with
    | zero s => cases s with
      | positive => rfl
      | negative => exact absurd (eq_negZero_of_unpack hx) h
    | _ => rfl
  have hmodel : pack (UnpackedFloat.add .binary64 (.zero .positive) x.toModel.unpack) = x.toModel := by
    rw [hsum, pack_unpack]
  exact congrArg Float.ofModel hmodel

theorem foldl_zero_add_of_forall (h : ∀ x ∈ xs, x = -0.0) : xs.foldl (· + ·) (0 : Float) = 0 := by
  induction xs with
  | nil => rfl
  | cons x xs ih =>
    obtain ⟨rfl, hxs⟩ := List.forall_mem_cons.mp h
    exact ih hxs

/-- The sum from zero on is the sum from the first number on, if one of them is not negative zero. -/
theorem foldl_zero_add_of_exists {x : Float} (h : ∃ y ∈ x :: xs, y ≠ -0.0) :
    (x :: xs).foldl (· + ·) 0 = xs.foldl (· + ·) x := by
  induction xs generalizing x with
  | nil =>
    obtain ⟨y, hmem, hy⟩ := h
    obtain rfl := List.mem_singleton.mp hmem
    exact zero_add_of_ne hy
  | cons z xs ih =>
    by_cases hx : x = -0.0
    · -- both sums go on with `z`, as if `x` were not there
      subst hx
      have hrest : ∃ y ∈ z :: xs, y ≠ -0.0 := by
        obtain ⟨y, hmem, hy⟩ := h
        exact ⟨y, (List.mem_cons.mp hmem).resolve_left hy, hy⟩
      calc (-0.0 :: z :: xs).foldl (· + ·) 0 = (z :: xs).foldl (· + ·) 0 := rfl
        _ = xs.foldl (· + ·) z := ih hrest
        _ = (z :: xs).foldl (· + ·) (-0.0) := by rw [List.foldl_cons, negZero_add]
    · rw [List.foldl_cons, zero_add_of_ne hx]

end MiniLisp.Number
