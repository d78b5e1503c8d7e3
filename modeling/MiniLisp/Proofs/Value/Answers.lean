import MiniLisp.Proofs.Store.Effects

/-!
# What primitives answer

Most primitives answer with a number or a truth value.  The others join strings or take lists apart and
put them together.  A call fails because of its arguments or because the sink refuses them
(`Primitive.fault_call`).
-/

namespace MiniLisp

namespace Operation

variable {op : Operation} {args : List Value} {v : Value}

/-- The values with which an operation can answer to some arguments. -/
inductive Answers (op : Operation) (args : List Value) : Value → Prop where
  | number (x : Float) : Answers op args (.num x)
  | truth (b : Bool) : Answers op args (.bool b)
  | text {texts : List String} (h : texts? args = some texts) : Answers op args (.str (String.join texts))
  | cons {a b : Value} (h : args = [a, b]) : Answers op args (a.cons b)
  | car {a : Value} (h : args = [a]) : Answers op args a.car
  | cdr {a : Value} (h : args = [a]) : Answers op args a.cdr
  | collected (h : op = .collect) : Answers op args (.list args)
  | done : Answers op args .unspecified

theorem answers_sum (h : sum args = .ok v) : op.Answers args v := by
  unfold sum at h
  split at h
  · rename_i texts htexts
    obtain rfl := Except.ok.inj h
    exact .text htexts
  · cases hxs : add.numbers args with
    | error e =>
      rw [hxs] at h
      cases h
    | ok xs =>
      rw [hxs] at h
      obtain rfl := Except.ok.inj h
      exact .number _

theorem answers_reduce {f : Float → Float → Float} {op' : Operation} (h : op'.reduce f args = .ok v) :
    op.Answers args v := by
  unfold reduce at h
  cases hxs : op'.numbers args with
  | error e =>
    rw [hxs] at h
    cases h
  | ok xs =>
    rw [hxs] at h
    cases xs with
    | nil => cases h
    | cons x xs =>
      obtain rfl := Except.ok.inj h
      exact .number _

theorem answers_compare {numbers : Float → Float → Bool} {texts : String → String → Bool}
    {op' : Operation} (h : op'.compare numbers texts args = .ok v) : op.Answers args v := by
  unfold compare at h
  split at h
  · obtain rfl := Except.ok.inj h
    exact .truth _
  · obtain rfl := Except.ok.inj h
    exact .truth _
  · cases h
  · cases h

theorem answers_onNumber {f : Float → Float} {op' : Operation} (h : op'.onNumber f args = .ok v) :
    op.Answers args v := by
  unfold onNumber at h
  split at h
  · rename_i w
    cases hx : op'.number w with
    | error e =>
      rw [hx] at h
      cases h
    | ok x =>
      rw [hx] at h
      obtain rfl := Except.ok.inj h
      exact .number _
  · cases h

theorem answers_compute (h : op.compute args = .ok v) : op.Answers args v := by
  unfold compute at h
  split at h
  · obtain rfl := Except.ok.inj h
    exact .truth _
  · exact answers_compare h
  · exact answers_compare h
  · exact answers_sum h
  · exact answers_reduce h
  · exact answers_reduce h
  · exact answers_reduce h
  · exact answers_reduce h
  · obtain rfl := Except.ok.inj h
    exact .cons rfl
  · obtain rfl := Except.ok.inj h
    exact .car rfl
  · obtain rfl := Except.ok.inj h
    exact .cdr rfl
  · exact answers_onNumber h
  · exact answers_onNumber h
  · obtain rfl := Except.ok.inj h
    exact .collected rfl
  · cases h

end Operation

/-- A primitive answers as its operation does. -/
theorem Primitive.answers_call {p : Primitive} {args : List Value} {σ : Store} {v : Value}
    (h : (p.call args σ).1 = .ok v) : p.operation.Answers args v := by
  rcases p.call_cases args with ⟨r, hcall, hcompute⟩ | ⟨w, hcall⟩
  · rw [hcall] at h
    exact Operation.answers_compute (hcompute v h)
  · rw [hcall] at h
    unfold logValue at h
    dsimp only at h
    split at h
    · obtain rfl := Except.ok.inj h
      exact .done
    · cases h

/-! ## Errors -/

/-- The errors of calls of primitives. -/
inductive Primitive.Fault : Error → Prop where
  | miscounted (callee : String) (expected : Arity) (got : Nat) :
      Fault (.arityMismatch callee expected got)
  | notNumber (callee : String) (argument : Value) : Fault (.notNumber callee argument)
  | notOrdered (callee : String) (left right : Value) : Fault (.notOrdered callee left right)
  | output (reason : String) : Fault (.outputFailed reason)

namespace Operation

variable {op : Operation} {args : List Value} {e : Error}

theorem fault_badCount (h : op.badCount args = .error e) : Primitive.Fault e := by
  obtain rfl := Except.error.inj h
  exact .miscounted _ _ _

theorem fault_number {v : Value} (h : op.number v = .error e) : Primitive.Fault e := by
  unfold number at h
  split at h
  · cases h
  · obtain rfl := Except.error.inj h
    exact .notNumber _ _

theorem fault_numbers (h : op.numbers args = .error e) : Primitive.Fault e := by
  induction args with
  | nil => cases h
  | cons v vs ih =>
    rw [numbers] at h
    cases hx : op.number v with
    | error e' =>
      rw [hx] at h
      obtain rfl := Except.error.inj h
      exact fault_number hx
    | ok x =>
      rw [hx] at h
      cases hxs : op.numbers vs with
      | error e' =>
        rw [hxs] at h
        obtain rfl := Except.error.inj h
        exact ih hxs
      | ok xs =>
        rw [hxs] at h
        cases h

theorem fault_sum (h : sum args = .error e) : Primitive.Fault e := by
  unfold sum at h
  split at h
  · cases h
  · cases hxs : add.numbers args with
    | error e' =>
      rw [hxs] at h
      obtain rfl := Except.error.inj h
      exact fault_numbers hxs
    | ok xs =>
      rw [hxs] at h
      cases h

theorem fault_reduce {f : Float → Float → Float} (h : op.reduce f args = .error e) :
    Primitive.Fault e := by
  unfold reduce at h
  cases hxs : op.numbers args with
  | error e' =>
    rw [hxs] at h
    obtain rfl := Except.error.inj h
    exact fault_numbers hxs
  | ok xs =>
    rw [hxs] at h
    cases xs with
    | nil => exact fault_badCount h
    | cons x xs => cases h

theorem fault_compare {numbers : Float → Float → Bool} {texts : String → String → Bool}
    (h : op.compare numbers texts args = .error e) : Primitive.Fault e := by
  unfold compare at h
  split at h
  · cases h
  · cases h
  · obtain rfl := Except.error.inj h
    exact .notOrdered _ _ _
  · exact fault_badCount h

theorem fault_onNumber {f : Float → Float} (h : op.onNumber f args = .error e) :
    Primitive.Fault e := by
  unfold onNumber at h
  split at h
  · rename_i v
    cases hx : op.number v with
    | error e' =>
      rw [hx] at h
      obtain rfl := Except.error.inj h
      exact fault_number hx
    | ok x =>
      rw [hx] at h
      cases h
  · exact fault_badCount h

theorem fault_compute (h : op.compute args = .error e) : Primitive.Fault e := by
  unfold compute at h
  split at h
  · cases h
  · exact fault_compare h
  · exact fault_compare h
  · exact fault_sum h
  · exact fault_reduce h
  · exact fault_reduce h
  · exact fault_reduce h
  · exact fault_reduce h
  · cases h
  · cases h
  · cases h
  · exact fault_onNumber h
  · exact fault_onNumber h
  · cases h
  · exact fault_badCount h

end Operation

/-- A call of a primitive fails because of its arguments, or because the sink does not take the output. -/
theorem Primitive.fault_call {p : Primitive} {args : List Value} {σ : Store} {e : Error}
    (h : (p.call args σ).1 = .error e) : Primitive.Fault e := by
  unfold Primitive.call at h
  cases hchecked : p.arity.check p.name args.length with
  | ok =>
    rw [hchecked] at h
    dsimp only at h
    rcases p.operation.perform_cases args with hperform | ⟨v, hperform⟩
    · rw [hperform] at h
      exact Operation.fault_compute h
    · rw [hperform] at h
      unfold logValue at h
      dsimp only at h
      split at h
      · cases h
      · obtain rfl := Except.error.inj h
        exact .output _
  | error fault =>
    obtain ⟨-, rfl⟩ := Arity.check_eq_error_iff.mp hchecked
    rw [hchecked] at h
    obtain rfl := Except.error.inj h
    exact .miscounted _ _ _

end MiniLisp
