import MiniLisp.Error.Basic
import MiniLisp.Expr.Basic
import MiniLisp.Store.Bindings
import MiniLisp.Store.Sink

/-!
# The store

Everything that evaluation can change: frames of bindings, the closures and the primitives made so
far, and the output sink.  Nothing is ever removed, and a scope is named by its innermost frame.
-/

namespace MiniLisp

/-- The place of a frame in the store. -/
abbrev FrameId := Nat

/-- A frame of bindings.  A frame without parent ends a scope. -/
structure Frame where
  parent : Option FrameId
  bindings : Bindings Value
deriving Inhabited

/-- A function together with the scope it was made in. -/
structure Closure where
  parameters : List String
  body : Expr
  scope : FrameId
deriving Inhabited

/-- The state of a run. -/
structure Store where
  frames : Array Frame
  closures : Array Closure
  /-- The primitives, each at the place that its stamp names. -/
  primitives : Array Primitive
  sink : Sink

namespace Store

/-- Nothing was made yet. -/
def empty (sink : Sink) : Store := ⟨#[], #[], #[], sink⟩

/-- The bindings of one frame. -/
def localBindings (σ : Store) (f : FrameId) : Bindings Value :=
  match σ.frames[f]? with
  | some frame => frame.bindings
  | none => .empty

/-- The parent of a frame. -/
def parent? (σ : Store) (f : FrameId) : Option FrameId :=
  σ.frames[f]?.bind (·.parent)

/-- Makes a frame that binds `entries`, of which the last one of a name wins. -/
def addFrame (σ : Store) (parent : Option FrameId) (entries : List (String × Value)) :
    FrameId × Store :=
  (σ.frames.size, { σ with frames := σ.frames.push ⟨parent, .ofList entries⟩ })

/-- Makes a closure, which differs from all closures before. -/
def addClosure (σ : Store) (c : Closure) : ClosureId × Store :=
  (σ.closures.size, { σ with closures := σ.closures.push c })

/-- Makes a primitive, which differs from all primitives before. -/
def addPrimitive (σ : Store) (name : String) (arity : Arity) (operation : Operation) :
    Primitive × Store :=
  let p : Primitive := ⟨σ.primitives.size, name, arity, operation⟩
  (p, { σ with primitives := σ.primitives.push p })

/-- The parameters of a closure. -/
def parametersOf (σ : Store) (id : ClosureId) : List String :=
  match σ.closures[id]? with
  | some c => c.parameters
  | none => []

end Store

/-- A step of a run: it may fail, and keeps its effects on the store also when it does. -/
abbrev Action := ExceptT Error (StateM Store)

/-- An action that does not touch the store. -/
def Action.ofExcept {α : Type} (r : Except Error α) : Action α := fun σ => (r, σ)

end MiniLisp
