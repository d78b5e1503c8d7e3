import MiniLisp.Primitive.Compute
import MiniLisp.Store.Scope

/-!
# The root scope

A run starts with one frame, which binds three constants and the standard primitives.
-/

namespace MiniLisp

/-- The constants of the root scope. -/
def constants : List (String × Value) :=
  [("True", .bool true), ("False", .bool false), ("Nil", .nil)]

/-- The operations that the root scope binds, in the order in which their primitives are made. -/
def Operation.standard : List Operation :=
  [log, equal, less, greater, add, subtract, multiply, divide, remainder, cons, car, cdr]

/-- The names that the root scope binds, constants first. -/
def rootNames : List String :=
  constants.map (·.1) ++ Operation.standard.map Operation.name

/-- Primitives for some operations, with stamps from `stamp` on. -/
def Operation.primitivesFrom (stamp : Nat) : List Operation → List Primitive
  | [] => []
  | op :: ops => ⟨stamp, op.name, op.arity, op⟩ :: primitivesFrom (stamp + 1) ops

/-- A primitive bound to its own name. -/
def Primitive.binding (p : Primitive) : String × Value := (p.name, .primitive p)

namespace Store

/-- The frame of the root scope in a new store. -/
def rootFrame : FrameId := 0

/-- A store with only the root scope. -/
def root (sink : Sink) : Store :=
  let primitives := Operation.primitivesFrom 0 Operation.standard
  let entries := constants ++ primitives.map Primitive.binding
  { (addFrame (empty sink) none entries).2 with primitives := primitives.toArray }

end Store

end MiniLisp
