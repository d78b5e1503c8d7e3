import Mathlib.Tactic.Push
import MiniLisp.Primitive.Call
import MiniLisp.Primitive.Root
import MiniLisp.Proofs.Number.Doubles

/-!
# Sums, differences and products

The primitives `+`, `-` and `*` fold numbers from the left, beginning with the first one, and `+` joins
strings.  The first argument from the left that is not a number is reported.  This is what
`Primitive.arithmetic_answers` says, with one exception: the sum of negative zeros alone is positive zero,
since `+` begins with zero and not with its first argument.
-/

namespace MiniLisp

/-! ## Reductions -/

namespace Operation

variable {op : Operation} {f : Float → Float → Float} {args rest : List Value} {v : Value}
variable {x : Float} {xs : List Float} {texts : List String}

/-- The operation on numbers that an arithmetic primitive repeats. -/
inductive Repeats : Operation → (Float → Float → Float) → Prop where
  | add : Repeats add (· + ·)
  | subtract : Repeats subtract (· - ·)
  | multiply : Repeats multiply (· * ·)

/-- The answer of an arithmetic primitive to its arguments: the fold of numbers from the first one on,
the join of strings for `+`, and otherwise the error for the first argument that is not a number. -/
inductive Reduces (op : Operation) (f : Float → Float → Float) :
    List Value → Except Error Value → Prop where
  | numbers (x : Float) (xs : List Float) :
      Reduces op f ((x :: xs).map .num) (.ok (.num (xs.foldl f x)))
  | texts (hop : op = add) (text : String) (texts : List String) :
      Reduces op f ((text :: texts).map .str) (.ok (.str (String.join (text :: texts))))
  | refused {xs : List Float} {v : Value} {rest : List Value} (hv : ∀ x, v ≠ .num x)
      (hjoin : op = add → ∃ w ∈ xs.map .num ++ v :: rest, ∀ text, w ≠ .str text) :
      Reduces op f (xs.map .num ++ v :: rest) (.error (.notNumber op.name v))

/-- Arguments are numbers, or some numbers and then something else. -/
theorem numbers_or_refused (hargs : args ≠ []) :
    (∃ (x : Float) (xs : List Float), args = (x :: xs).map .num) ∨
      ∃ (xs : List Float) (v : Value) (rest : List Value),
        args = xs.map .num ++ v :: rest ∧ ∀ x, v ≠ .num x := by
  induction args with
  | nil => exact absurd rfl hargs
  | cons v args ih =>
    by_cases hv : ∃ x, v = .num x
    · obtain ⟨x, rfl⟩ := hv
      cases args with
      | nil => exact .inl ⟨x, [], rfl⟩
      | cons w args =>
        rcases ih (List.cons_ne_nil w args) with ⟨y, ys, hargs⟩ | ⟨xs, u, rest, hargs, hu⟩
        · rw [hargs]
          exact .inl ⟨x, y :: ys, rfl⟩
        · rw [hargs]
          exact .inr ⟨x :: xs, u, rest, rfl, hu⟩
    · exact .inr ⟨[], v, args, rfl, not_exists.mp hv⟩

theorem number_refused (op : Operation) (hv : ∀ x, v ≠ .num x) :
    op.number v = .error (.notNumber op.name v) := by
  cases v with
  | num x => exact absurd rfl (hv x)
  | _ => rfl

theorem numbers_map_num (op : Operation) (xs : List Float) : op.numbers (xs.map .num) = .ok xs := by
  induction xs with
  | nil => rfl
  | cons x xs ih =>
    rw [List.map_cons, numbers, ih]
    rfl

theorem numbers_refused (op : Operation) (xs : List Float) (hv : ∀ x, v ≠ .num x) :
    op.numbers (xs.map .num ++ v :: rest) = .error (.notNumber op.name v) := by
  induction xs with
  | nil =>
    rw [List.map_nil, List.nil_append, numbers, op.number_refused hv]
    rfl
  | cons x xs ih =>
    rw [List.map_cons, List.cons_append, numbers, ih]
    rfl

theorem texts?_eq_some_iff : texts? args = some texts ↔ args = texts.map .str := by
  induction args generalizing texts with
  | nil => simp [texts?, eq_comm]
  | cons v args ih =>
    cases v with
    | str text =>
      rw [texts?, Option.map_eq_some_iff]
      constructor
      · rintro ⟨rest, hrest, rfl⟩
        rw [ih.mp hrest, List.map_cons]
      · intro h
        cases texts with
        | nil => cases h
        | cons text' texts =>
          obtain ⟨hv, hargs⟩ := List.cons.inj h
          obtain rfl := Value.str.inj hv
          exact ⟨texts, ih.mpr hargs, rfl⟩
    | _ => cases texts <;> simp [texts?]

/-- Some argument is no string. -/
theorem exists_of_texts?_eq_none (h : texts? args = none) : ∃ w ∈ args, ∀ text, w ≠ .str text := by
  induction args with
  | nil => cases h
  | cons v args ih =>
    cases v with
    | str text =>
      obtain ⟨w, hmem, hw⟩ := ih (Option.map_eq_none_iff.mp h)
      exact ⟨w, List.mem_cons_of_mem _ hmem, hw⟩
    | _ => exact ⟨_, List.mem_cons_self, nofun⟩

theorem reduces_reduce (hargs : args ≠ []) (hop : op ≠ add) : op.Reduces f args (op.reduce f args) := by
  rcases numbers_or_refused hargs with ⟨x, xs, rfl⟩ | ⟨xs, v, rest, rfl, hv⟩
  · rw [reduce, numbers_map_num]
    exact .numbers x xs
  · rw [reduce, numbers_refused op xs hv]
    exact .refused hv fun h => absurd h hop

/-- A sum is the same reduction, unless all of its arguments are negative zeros. -/
theorem reduces_sum (hargs : args ≠ []) (hzero : ∃ v ∈ args, v ≠ .num (-0.0)) :
    add.Reduces (· + ·) args (sum args) := by
  unfold sum
  cases htexts : texts? args with
  | some texts =>
    obtain rfl := texts?_eq_some_iff.mp htexts
    obtain ⟨text, texts, rfl⟩ := List.exists_cons_of_ne_nil (mt List.map_eq_nil_iff.mpr hargs)
    exact .texts rfl text texts
  | none =>
    dsimp only
    rcases numbers_or_refused hargs with ⟨x, xs, rfl⟩ | ⟨xs, v, rest, rfl, hv⟩
    -- starting at zero changes nothing as soon as one argument is not negative zero
    · have hsome : ∃ y ∈ x :: xs, y ≠ -0.0 := by
        obtain ⟨v, hmem, hv⟩ := hzero
        obtain ⟨y, hy, rfl⟩ := List.mem_map.mp hmem
        exact ⟨y, hy, mt (congrArg Value.num) hv⟩
      rw [numbers_map_num, Except.map, Number.foldl_zero_add_of_exists hsome]
      exact .numbers x xs
    · rw [numbers_refused add xs hv]
      exact .refused hv fun _ => exists_of_texts?_eq_none htexts

theorem sum_negZeros (hargs : args ≠ []) (hzero : ∀ v ∈ args, v = .num (-0.0)) :
    sum args = .ok (.num 0) := by
  rcases numbers_or_refused hargs with ⟨x, xs, rfl⟩ | ⟨xs, v, rest, rfl, hv⟩
  · have hxs : ∀ y ∈ x :: xs, y = -0.0 :=
      fun y hy => Value.num.inj (hzero _ (List.mem_map_of_mem hy))
    have htexts : texts? ((x :: xs).map .num) = none := rfl
    rw [sum, htexts]
    dsimp only
    rw [numbers_map_num, Except.map, Number.foldl_zero_add_of_forall hxs]
  · exact absurd (hzero v (by simp)) (hv _)

end Operation

/-! ## Calls -/

namespace Primitive

/-- With an accepted number of arguments, every primitive but `log` answers what its operation computes. -/
theorem call_eq_compute {p : Primitive} {args : List Value} (haccepts : p.arity.accepts args.length = true)
    (hlog : p.operation ≠ .log) (σ : Store) : p.call args σ = (p.operation.compute args, σ) := by
  obtain ⟨stamp, name, arity, op⟩ := p
  have hchecked : arity.check name args.length = .ok () := Arity.check_eq_ok_iff.mpr haccepts
  unfold Primitive.call
  simp only [hchecked]
  unfold Operation.perform
  split
  · exact absurd rfl hlog
  · rfl

/-- The primitives `+`, `-` and `*` answer any number of arguments with their reduction and change
nothing.  Only the sum of negative zeros alone has the other sign. -/
theorem arithmetic_answers {op : Operation} {f : Float → Float → Float} (hop : op.Repeats f)
    (stamp : Nat) (v : Value) (vs : List Value) (σ : Store) :
    let args := v :: vs
    let answer := op.compute args
    Primitive.call ⟨stamp, op.name, op.arity, op⟩ args σ = (answer, σ) ∧
      (¬ (op = .add ∧ ∀ w ∈ args, w = .num (-0.0)) → op.Reduces f args answer) ∧
      (op = .add ∧ (∀ w ∈ args, w = .num (-0.0)) → answer = .ok (.num 0)) := by
  intro args answer
  have hargs : args ≠ [] := List.cons_ne_nil v vs
  have haccepts : op.arity.accepts args.length = true := by
    cases hop <;> exact Arity.accepts_atLeast.mpr (Nat.succ_le_succ (Nat.zero_le vs.length))
  have hlog : op ≠ .log := by cases hop <;> decide
  refine ⟨call_eq_compute haccepts hlog σ, ?_⟩
  cases hop with
  | add =>
    refine ⟨fun h => Operation.reduces_sum hargs ?_, fun h => Operation.sum_negZeros hargs h.2⟩
    push Not at h
    exact h rfl
  | subtract => exact ⟨fun _ => Operation.reduces_reduce hargs nofun, fun h => nomatch h.1⟩
  | multiply => exact ⟨fun _ => Operation.reduces_reduce hargs nofun, fun h => nomatch h.1⟩

/-- A difference of which the second argument is a string. -/
theorem arithmetic_answers_refused :
    let args : List Value := [.num 7, .str "a", .nil]
    Operation.Repeats .subtract (· - ·) ∧
      ¬ (Operation.subtract = .add ∧ ∀ w ∈ args, w = .num (-0.0)) ∧
      Primitive.call ⟨0, "-", .atLeast 1, .subtract⟩ args (Store.root .unlimited) =
        (.error (.notNumber "-" (.str "a")), Store.root .unlimited) ∧
      Operation.subtract.Reduces (· - ·) args (.error (.notNumber "-" (.str "a"))) := by
  intro args
  have hop : Operation.subtract ≠ .add := nofun
  obtain ⟨hcall, hreduces, -⟩ :=
    arithmetic_answers .subtract 0 (.num 7) [.str "a", .nil] (Store.root .unlimited)
  exact ⟨.subtract, fun h => hop h.1, hcall, hreduces fun h => hop h.1⟩

/-- A single negative zero is not returned unchanged by `+`. -/
theorem sum_of_negZero :
    let zeros : List Value := [.num (-0.0)]
    (Primitive.call ⟨0, "+", .atLeast 1, .add⟩ zeros (Store.root .unlimited)).1 = .ok (.num 0) ∧
      ¬ Operation.add.Reduces (· + ·) zeros (.ok (.num 0)) ∧
      (Value.num 0).text = "0" ∧ (Value.num (-0.0)).text = "-0" := by
  intro zeros
  refine ⟨rfl, fun h => ?_, by decide +kernel, by decide +kernel⟩
  -- the rules speak of mapped lists, so the given list is matched with them afterwards
  generalize hzeros : zeros = args at h
  generalize hanswer : Except.ok (Value.num 0) = answer at h
  cases h with
  | numbers x xs =>
    obtain ⟨hx, hxs⟩ := List.cons.inj hzeros
    obtain rfl := List.map_eq_nil_iff.mp hxs.symm
    obtain rfl := Value.num.inj hx
    have hsame : (0 : Float) = -0.0 := Value.num.inj (Except.ok.inj hanswer)
    exact absurd hsame (by decide)
  | texts hop text texts => cases hanswer
  | refused hv hjoin => cases hanswer

end Primitive

end MiniLisp
