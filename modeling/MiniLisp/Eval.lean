import MiniLisp.Bundle
import MiniLisp.Limits
import MiniLisp.Primitive.Call
import MiniLisp.Store.Scope

/-!
# Evaluation

Evaluation goes down one level at every subexpression and at every call of a closure.  The first
argument of `eval` counts the levels that are left, so the definition is by recursion on it and the
limit is only where a run is cut off.  Names are resolved when they are evaluated, arguments are
evaluated from left to right, and effects on the store stay when a run fails.
-/

namespace MiniLisp

/-- What a host decides once: the depth limits and the bundles that programs can import. -/
structure Interpreter where
  limits : Limits
  /-- The bundle of a name, if the host offers one. -/
  bundles : String → Option Bundle

/-- Pairs parameters with arguments: a parameter without argument is unspecified, and arguments
without parameter are dropped. -/
def bindArguments : List String → List Value → List (String × Value)
  | [], _ => []
  | p :: ps, [] => (p, .unspecified) :: bindArguments ps []
  | p :: ps, v :: vs => (p, v) :: bindArguments ps vs

/-! ## Single steps -/

/-- The value of a name. -/
def lookupName (scope : FrameId) (name : String) : Action Value := fun σ =>
  match σ.lookup? scope name with
  | some v => (.ok v, σ)
  | none => (.error (.nameNotFound name), σ)

/-- Binds a name in the innermost frame of the scope. -/
def defineName (scope : FrameId) (name : String) (value : Value) : Action Value := fun σ =>
  (.ok .unspecified, σ.define scope name value)

/-- Changes the nearest binding of a name; a name bound nowhere is ignored. -/
def assignName (scope : FrameId) (name : String) (value : Value) : Action Value := fun σ =>
  (.ok .unspecified, (σ.assign scope name value).2)

/-- Makes a closure over the scope. -/
def makeClosure (scope : FrameId) (parameters : List String) (body : Expr) : Action Value := fun σ =>
  let (id, σ) := σ.addClosure ⟨parameters, body, scope⟩
  (.ok (.closure id), σ)

/-- Opens a frame inside a scope. -/
def openFrame (parent : FrameId) (entries : List (String × Value)) : Action FrameId := fun σ =>
  let (f, σ) := σ.addFrame (some parent) entries
  (.ok f, σ)

/-- Opens a frame with the bindings of a bundle inside a scope. -/
def openBundle (bundles : String → Option Bundle) (scope : FrameId) (name : String) :
    Action FrameId := fun σ =>
  match bundles name with
  | none => (.error (.bundleNotFound name), σ)
  | some bundle =>
    let (entries, σ) := bundle.make σ
    openFrame scope entries σ

/-- Applies a value to arguments; `run` evaluates the body of a closure in the frame of its call. -/
@[inline] def applyWith (run : Expr → FrameId → Action Value) (callee : Value) (args : List Value) :
    Action Value := fun σ =>
  match callee with
  | .primitive p => p.call args σ
  | .closure id =>
    match σ.closures[id]? with
    | some c => (openFrame c.scope (bindArguments c.parameters args) >>= run c.body) σ
    | none => (.error (.notCallable callee), σ)
  | v => (.error (.notCallable v), σ)

/-! ## Expressions -/

namespace Interpreter

mutual

/-- Evaluates an expression in a scope with `levels` levels left. -/
def eval (ip : Interpreter) : (levels : Nat) → Expr → FrameId → Action Value
  | 0, _, _ => throw (.tooDeep ip.limits.eval)
  | n + 1, e, scope =>
    match e with
    | .literal v => pure v
    | .quote v => pure v
    | .name x => lookupName scope x
    | .ifThen test yes => do
      if (← ip.eval n test scope).isTruthy then ip.eval n yes scope else pure .unspecified
    | .ifElse test yes no => do
      if (← ip.eval n test scope).isTruthy then ip.eval n yes scope else ip.eval n no scope
    | .assign x value => do
      assignName scope x (← ip.eval n value scope)
    | .define x value => do
      defineName scope x (← ip.eval n value scope)
    | .lambda parameters body => makeClosure scope parameters body
    | .sequence steps => steps.foldlM (fun _ step => ip.eval n step scope) .nil
    | .withBundle bundle body => do
      ip.eval n body (← openBundle ip.bundles scope bundle)
    | .application callee arguments => do
      let callee ← ip.eval n callee scope
      let args ← arguments.mapM fun argument => ip.eval n argument scope
      ip.applyAt n callee args

/-- Applies a value to arguments with `levels` levels left; the body of a closure is one level
further down. -/
def applyAt (ip : Interpreter) : (levels : Nat) → Value → List Value → Action Value
  | 0, callee, args => applyWith (fun _ _ => throw (.tooDeep ip.limits.eval)) callee args
  | n + 1, callee, args => applyWith (ip.eval n) callee args

end

/-- Evaluates an expression in a scope. -/
def evaluate (ip : Interpreter) (e : Expr) (scope : FrameId) : Action Value :=
  ip.eval ip.limits.eval e scope

/-- Applies a value to arguments on behalf of the host. -/
def apply (ip : Interpreter) (callee : Value) (args : List Value) : Action Value :=
  ip.applyAt ip.limits.eval callee args

end Interpreter

end MiniLisp
