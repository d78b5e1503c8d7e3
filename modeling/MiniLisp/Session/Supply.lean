import MiniLisp.Bundle

/-!
# Values from the host

A host describes the values that it passes to a session.  A description may refer to what a name is
bound to, or ask for a new primitive that gives back the list of its arguments.  Callables cannot be
described in any other way, so a session never holds a reference to something that was not made.
-/

namespace MiniLisp

/-- A value as the host describes it. -/
inductive Supply where
  | num (x : Float)
  | str (text : String)
  | sym (name : String)
  | bool (b : Bool)
  | nil
  | unspecified
  /-- What the name is bound to where and when the value is needed. -/
  | bound (name : String)
  /-- A new primitive that gives back the list of its arguments. -/
  | primitive (name : String) (arity : Arity)
  | list (items : List Supply)
deriving Inhabited

namespace Supply

mutual

/-- How a described value is made, with names read in a scope. -/
def blueprint (scope : FrameId) : Supply → Blueprint
  | num x => .value (.num x)
  | str text => .value (.str text)
  | sym name => .value (.sym name)
  | bool b => .value (.bool b)
  | nil => .value .nil
  | unspecified => .value .unspecified
  | bound name => .bound scope name
  | primitive name arity => .primitive name arity .collect
  | list items => .list (blueprints scope items)

/-- How several described values are made. -/
def blueprints (scope : FrameId) : List Supply → List Blueprint
  | [] => []
  | s :: ss => s.blueprint scope :: blueprints scope ss

end

/-- The bundle of some described bindings. -/
def bundle (scope : FrameId) (bindings : List (String × Supply)) : Bundle :=
  bindings.map fun entry => (entry.1, entry.2.blueprint scope)

/-- Makes a described value, with names read in a scope. -/
def make (scope : FrameId) (s : Supply) : Action Value := fun σ =>
  let (v, σ) := (s.blueprint scope).make σ
  (.ok v, σ)

/-- Makes described values, in order. -/
def makeAll (scope : FrameId) (supplies : List Supply) : Action (List Value) :=
  supplies.mapM (make scope)

/-- Makes the values of described bindings, in order. -/
def makeBindings (scope : FrameId) (bindings : List (String × Supply)) :
    Action (List (String × Value)) := fun σ =>
  let (entries, σ) := (bundle scope bindings).make σ
  (.ok entries, σ)

end Supply

end MiniLisp
