import MiniLisp.Arity
import MiniLisp.Datum.Basic

/-!
# Values

What evaluation produces and scopes bind.  Callable values are references: a closure is named by its
place in the store's table of closures, and every primitive carries the stamp it got when it was
made.  Two callables are the same exactly when their references are.
-/

namespace MiniLisp

/-- The place of a closure in the table of a store. -/
abbrev ClosureId := Nat

/-- What a primitive does with its arguments. -/
inductive Operation where
  | equal
  | less
  | greater
  | add
  | subtract
  | multiply
  | divide
  | remainder
  | cons
  | car
  | cdr
  | log
  | sqrt
  | floor
  /-- Gives back the list of the arguments. -/
  | collect
deriving DecidableEq

/-- A native function.  The stamp tells it apart from every other primitive that was made. -/
structure Primitive where
  stamp : Nat
  name : String
  arity : Arity
  operation : Operation
deriving DecidableEq

/-- A value of the language. -/
inductive Value where
  | num (x : Float)
  | str (text : String)
  | sym (name : String)
  | bool (b : Bool)
  | list (items : List Value)
  | closure (id : ClosureId)
  | primitive (p : Primitive)
  | nil
  /-- The result of a binding form or of output, and of a parameter that got no argument. -/
  | unspecified
deriving Inhabited

namespace Value

/-- All values but `False`, `Nil` and the unspecified one count as true. -/
def isTruthy : Value → Bool
  | bool false | nil | unspecified => false
  | _ => true

/-- Closures and primitives can be applied. -/
def isCallable : Value → Bool
  | closure _ | primitive _ => true
  | _ => false

/-- The word for the kind of a value in messages. -/
def typeName : Value → String
  | num _ => "number"
  | str _ => "string"
  | sym _ => "symbol"
  | bool _ => "boolean"
  | list _ => "list"
  | closure _ => "closure"
  | primitive _ => "primitive"
  | nil => "nil"
  | unspecified => "unspecified"

/-! ## Equality -/

mutual

/-- Equality of the language: numbers as doubles, lists item by item, callables by identity. -/
def beq : Value → Value → Bool
  | num x, num y => x == y
  | str s, str t => s == t
  | sym m, sym n => m == n
  | bool a, bool b => a == b
  | list vs, list ws => beqItems vs ws
  | closure i, closure j => i == j
  | primitive p, primitive q => p.stamp == q.stamp
  | nil, nil => true
  | unspecified, unspecified => true
  | _, _ => false

/-- Lists are equal when they have the same length and equal items at each place. -/
def beqItems : List Value → List Value → Bool
  | [], [] => true
  | v :: vs, w :: ws => v.beq w && beqItems vs ws
  | _, _ => false

end

instance : BEq Value := ⟨beq⟩

/-! ## Nesting -/

mutual

/-- How many lists are nested around the deepest place: an atom has depth zero and `()` depth one. -/
def depth : Value → Nat
  | list items => depthOfItems 0 items + 1
  | _ => 0

/-- The greatest depth among some items, and at least `deepest`. -/
def depthOfItems (deepest : Nat) : List Value → Nat
  | [] => deepest
  | v :: vs => depthOfItems (max deepest v.depth) vs

end

/-! ## Quoted data -/

mutual

/-- The value of a quoted tree. -/
def ofDatum : Datum → Value
  | .num x => num x
  | .str text => str text
  | .sym name => sym name
  | .list items => list (ofData items)

/-- The values of quoted trees, in order. -/
def ofData : List Datum → List Value
  | [] => []
  | d :: ds => ofDatum d :: ofData ds

end

end Value

end MiniLisp
