import MiniLisp.Store.Basic

/-!
# Scopes

A scope is a chain of frames from an innermost one outwards.  Names are looked up and assigned in the
nearest frame of the chain that binds them, and defined in the innermost one.
-/

namespace MiniLisp.Store

/-- The frames of a scope, innermost first.  A parent is older than its child, so the chain ends. -/
def chain (σ : Store) (f : FrameId) : List FrameId :=
  match σ.frames[f]? with
  | none => []
  | some frame =>
    match frame.parent with
    | none => [f]
    | some p => if p < f then f :: σ.chain p else [f]
termination_by f

/-- The value that the nearest binding of a name holds. -/
def lookup? (σ : Store) (f : FrameId) (name : String) : Option Value :=
  (σ.chain f).findSome? fun g => (σ.localBindings g).get? name

/-- Is the name bound in some frame of the scope? -/
def contains (σ : Store) (f : FrameId) (name : String) : Bool :=
  (σ.chain f).any fun g => ((σ.localBindings g).get? name).isSome

/-- The nearest frame of the scope that binds a name. -/
def home? (σ : Store) (f : FrameId) (name : String) : Option FrameId :=
  (σ.chain f).find? fun g => ((σ.localBindings g).get? name).isSome

/-- Binds a name in one frame, in place of an earlier binding there. -/
def define (σ : Store) (f : FrameId) (name : String) (value : Value) : Store :=
  { σ with frames := σ.frames.modify f fun frame =>
      { frame with bindings := frame.bindings.insert name value } }

/-- Changes the nearest binding of a name.  The answer says whether there is one; if there is none,
nothing changes. -/
def assign (σ : Store) (f : FrameId) (name : String) (value : Value) : Bool × Store :=
  match σ.home? f name with
  | some g => (true, σ.define g name value)
  | none => (false, σ)

/-- All bindings that are visible in a scope: those of each frame over those of the frames around
it. -/
def allBindings (σ : Store) (f : FrameId) : Bindings Value :=
  (σ.chain f).foldr (fun g outer => outer.insertAll (σ.localBindings g).entries) .empty

end MiniLisp.Store
