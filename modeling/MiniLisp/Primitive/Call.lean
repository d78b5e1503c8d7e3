import MiniLisp.Primitive.Compute
import MiniLisp.Store.Basic

/-!
# Calling primitives

A primitive checks the number of its arguments before anything else.  Only output touches the store.
-/

namespace MiniLisp

/-- Writes a value to the sink of the store. -/
def logValue (v : Value) : Action Value := fun σ =>
  let σ := { σ with sink := σ.sink.writeLine v }
  match σ.sink.broken with
  | none => (.ok .unspecified, σ)
  | some _ => (.error (.outputFailed Sink.refusal), σ)

/-- Does what the operation says. -/
def Operation.perform (op : Operation) (args : List Value) : Action Value :=
  match op, args with
  | .log, [v] => logValue v
  | op, args => Action.ofExcept (op.compute args)

/-- Calls a primitive. -/
def Primitive.call (p : Primitive) (args : List Value) : Action Value :=
  match p.arity.check p.name args.length with
  | .ok () => p.operation.perform args
  | .error e => throw e

end MiniLisp
