import MiniLisp.Primitive.Call
import MiniLisp.Primitive.Root
import MiniLisp.Proofs.Value.Equality

/-!
# The order of values

Two numbers or two strings can be compared, and no other values.  Strings are less, equal or greater, and
so are two numbers of which none is NaN; NaN stands in no order, also not to itself
(`Value.order?_eq_none_iff`).  Each of the primitives `<`, `=` and `>` tests for one of these cases
(`Operation.Tests.decides`).
-/

namespace MiniLisp

/-! ## The order of doubles -/

namespace Number

open Float.Model

/-- Doubles compared the other way round, those without an order included. -/
theorem unpacked_compare_swap (a b : UnpackedFloat) :
    (a.compare b).map Ordering.swap = b.compare a := by
  cases a with
  | notANumber => cases b <;> rfl
  | zero s =>
    cases b with
    | infinity t => cases t <;> rfl
    | notANumber => rfl
    | zero t => rfl
    | finite t _ _ _ => cases t <;> rfl
  | infinity s =>
    cases b with
    | infinity t => cases s <;> cases t <;> rfl
    | finite t _ _ _ => cases s <;> cases t <;> rfl
    | _ => cases s <;> rfl
  | finite s m e _ =>
    cases b with
    | infinity t => cases s <;> cases t <;> rfl
    | notANumber => cases s <;> rfl
    | zero t => cases s <;> rfl
    | finite t m' e' _ =>
      -- two finite doubles compare by exponent and then by significand, each of which swaps
      have hswap : ((compare e e').then (compare m m')).swap =
          (compare e' e).then (compare m' m) := by
        rw [Ordering.swap_then, ← Std.OrientedOrd.eq_swap, ← Std.OrientedOrd.eq_swap]
      cases s with
      | positive =>
        cases t with
        | positive => exact congrArg some hswap
        | negative => rfl
      | negative =>
        cases t with
        | positive => rfl
        | negative => exact congrArg (some ·.swap) hswap

/-- Doubles that are not NaN have an order. -/
theorem exists_unpacked_compare {a b : UnpackedFloat} (ha : a.isNaN = false) (hb : b.isNaN = false) :
    ∃ o, a.compare b = some o := by
  cases a with
  | notANumber => cases ha
  | zero s =>
    cases b with
    | infinity t => cases t <;> exact ⟨_, rfl⟩
    | notANumber => cases hb
    | zero t => exact ⟨_, rfl⟩
    | finite t _ _ _ => cases t <;> exact ⟨_, rfl⟩
  | infinity s =>
    cases b with
    | infinity t => exact ⟨_, rfl⟩
    | notANumber => cases hb
    | _ => cases s <;> exact ⟨_, rfl⟩
  | finite s m e _ =>
    cases b with
    | infinity t => cases s <;> cases t <;> exact ⟨_, rfl⟩
    | notANumber => cases hb
    | zero t => cases s <;> exact ⟨_, rfl⟩
    | finite t _ _ _ => cases s <;> cases t <;> exact ⟨_, rfl⟩

theorem unpacked_compare_of_isNaN {a : UnpackedFloat} (ha : a.isNaN = true) (b : UnpackedFloat) :
    a.compare b = none := by
  cases a with
  | notANumber => rfl
  | _ => cases ha

theorem unpacked_compare_eq_none_iff (a b : UnpackedFloat) :
    a.compare b = none ↔ a.isNaN = true ∨ b.isNaN = true := by
  constructor
  · intro hnone
    cases ha : a.isNaN with
    | true => exact .inl rfl
    | false =>
      cases hb : b.isNaN with
      | true => exact .inr rfl
      | false =>
        obtain ⟨o, ho⟩ := exists_unpacked_compare ha hb
        rw [hnone] at ho
        cases ho
  · rintro (ha | hb)
    · exact unpacked_compare_of_isNaN ha b
    · rw [← unpacked_compare_swap, unpacked_compare_of_isNaN hb a]
      rfl

/-- How two doubles are ordered, if they are. -/
def order? (x y : Float) : Option Ordering := x.toModel.unpack.compare y.toModel.unpack

variable {x y : Float}

theorem order?_eq_none_iff : order? x y = none ↔ x.isNaN = true ∨ y.isNaN = true :=
  unpacked_compare_eq_none_iff x.toModel.unpack y.toModel.unpack

theorem order?_swap (x y : Float) : (order? x y).map Ordering.swap = order? y x :=
  unpacked_compare_swap x.toModel.unpack y.toModel.unpack

theorem lt_iff_order? : x < y ↔ order? x y = some .lt := by
  have hmodel : x < y ↔ x.toModel < y.toModel := decide_eq_true_iff
  exact hmodel.trans beq_iff_eq

theorem gt_iff_order? : y < x ↔ order? x y = some .gt := by
  rw [lt_iff_order?, ← order?_swap x y]
  cases order? x y with
  | none => simp
  | some o => simp

theorem beq_iff_order? : (x == y) = true ↔ order? x y = some .eq := by
  have hmodel : (x == y) = (order? x y == some .eq) := rfl
  rw [hmodel, beq_iff_eq]

end Number

/-! ## The order of values -/

namespace Value

/-- Two numbers or two strings. -/
inductive Comparable : Value → Value → Prop where
  | numbers (x y : Float) : Comparable (num x) (num y)
  | strings (s t : String) : Comparable (str s) (str t)

/-- Two numbers of which at least one is NaN. -/
inductive Unordered : Value → Value → Prop where
  | left {x : Float} (hx : x.isNaN = true) (y : Float) : Unordered (num x) (num y)
  | right (x : Float) {y : Float} (hy : y.isNaN = true) : Unordered (num x) (num y)

/-- How two values are ordered, if they are. -/
def order? : Value → Value → Option Ordering
  | num x, num y => Number.order? x y
  | str s, str t => some (compare s t)
  | _, _ => none

variable {v w : Value}

theorem Unordered.comparable (h : v.Unordered w) : v.Comparable w := by
  cases h with
  | left => exact .numbers ..
  | right => exact .numbers ..

theorem order?_eq_none_iff (h : v.Comparable w) : v.order? w = none ↔ v.Unordered w := by
  cases h with
  | numbers x y =>
    have hnone : order? (num x) (num y) = none ↔ x.isNaN = true ∨ y.isNaN = true :=
      Number.order?_eq_none_iff
    rw [hnone]
    constructor
    · rintro (hx | hy)
      · exact .left hx y
      · exact .right x hy
    · rintro (⟨hx, -⟩ | ⟨-, hy⟩)
      · exact .inl hx
      · exact .inr hy
  | strings s t => exact ⟨nofun, nofun⟩

end Value

/-! ## Truth values -/

/-- The answer is a truth value, and `True` just if the condition holds. -/
structure Decides (answer : Except Error Value) (p : Prop) : Prop where
  truth : answer = .ok (.bool true) ∨ answer = .ok (.bool false)
  holds_iff : answer = .ok (.bool true) ↔ p

namespace Decides

variable {answer : Except Error Value} {p : Prop} {t : Bool}

theorem of_iff (h : t = true ↔ p) : Decides (.ok (.bool t)) p := by
  constructor
  · cases t with
    | true => exact .inl rfl
    | false => exact .inr rfl
  · rw [Except.ok.injEq, Value.bool.injEq, h]

theorem eq_false (h : Decides answer p) (hp : ¬ p) : answer = .ok (.bool false) :=
  h.truth.resolve_left (mt h.holds_iff.mp hp)

theorem negated (h : Decides answer p) :
    Decides (answer.map fun v => .bool !v.isTruthy) (¬ p) := by
  by_cases hp : p
  · rw [h.holds_iff.mpr hp]
    exact .of_iff ⟨nofun, fun hnp => absurd hp hnp⟩
  · rw [h.eq_false hp]
    exact .of_iff ⟨fun _ => hp, fun _ => rfl⟩

end Decides

/-! ## The primitives -/

namespace Operation

variable {op : Operation} {o : Ordering} {v w : Value}
variable {numbers : Float → Float → Bool} {texts : String → String → Bool}

/-- The order for which a primitive tests. -/
inductive Tests : Operation → Ordering → Prop where
  | less : Tests less .lt
  | equal : Tests equal .eq
  | greater : Tests greater .gt

theorem Tests.standard (h : op.Tests o) : op ∈ Operation.standard := by
  cases h <;> decide

/-- A call of a test answers what it computes and changes nothing. -/
theorem Tests.call_eq (h : op.Tests o) (stamp : Nat) (v w : Value) (σ : Store) :
    Primitive.call ⟨stamp, op.name, op.arity, op⟩ [v, w] σ = (op.compute [v, w], σ) := by
  cases h <;> rfl

/-- Two values that can be compared are tested for their order. -/
theorem Tests.decides (hop : op.Tests o) (h : v.Comparable w) :
    Decides (op.compute [v, w]) (v.order? w = some o) := by
  cases h with
  | numbers x y =>
    cases hop with
    | less => exact .of_iff (decide_eq_true_iff.trans Number.lt_iff_order?)
    | equal => exact .of_iff Number.beq_iff_order?
    | greater => exact .of_iff (decide_eq_true_iff.trans Number.gt_iff_order?)
  | strings s t =>
    have horder : Value.order? (.str s) (.str t) = some o ↔ compareOfLessAndEq s t = o :=
      Option.some_inj
    rw [horder]
    cases hop with
    | less => exact .of_iff (decide_eq_true_iff.trans compareOfLessAndEq_eq_lt.symm)
    | equal =>
      have hequal : (s == t) = true ↔ s = t := beq_iff_eq
      exact .of_iff (hequal.trans (compareOfLessAndEq_eq_eq String.le_refl String.not_le).symm)
    | greater =>
      have hgreater : compareOfLessAndEq s t = .gt ↔ t < s :=
        compareOfLessAndEq_eq_gt String.le_antisymm String.le_total String.not_le s t
      exact .of_iff (decide_eq_true_iff.trans hgreater.symm)

theorem compare_of_not_comparable (h : ¬ v.Comparable w) :
    op.compare numbers texts [v, w] = .error (.notOrdered op.name v w) := by
  unfold compare
  split
  · rename_i x y hargs
    cases hargs
    exact absurd (.numbers x y) h
  · rename_i s t hargs
    cases hargs
    exact absurd (.strings s t) h
  · rename_i hargs
    cases hargs
    rfl
  · rename_i hargs
    exact absurd rfl (hargs v w)

end Operation

end MiniLisp
