import MiniLisp.Primitive.Compute
import MiniLisp.Store.Scope

/-!
# Bundles

A host offers named bundles of bindings, which programs import.  A bundle holds a blueprint for each
binding, and an import makes the values anew: a blueprint may describe a primitive, which is a new one
each time, or read a name, which may have changed since the last time.  A host that wants the same
values at every import registers its bundles: their values are made once and kept.
-/

namespace MiniLisp

/-- How the host makes a value. -/
inductive Blueprint where
  /-- The value itself, shared by everyone who asks for it. -/
  | value (v : Value)
  /-- What a name is bound to in a scope at that time, or the unspecified value if it is not bound. -/
  | bound (scope : FrameId) (name : String)
  /-- A primitive of its own for everyone who asks for it. -/
  | primitive (name : String) (arity : Arity) (operation : Operation)
  | list (items : List Blueprint)
deriving Inhabited

namespace Blueprint

mutual

/-- Makes a value, with new primitives where the blueprint describes some. -/
def make (σ : Store) : Blueprint → Value × Store
  | value v => (v, σ)
  | bound scope name => ((σ.lookup? scope name).getD .unspecified, σ)
  | primitive name arity operation =>
    let (p, σ) := σ.addPrimitive name arity operation
    (.primitive p, σ)
  | list items =>
    let (vs, σ) := makeItems σ items
    (.list vs, σ)

/-- Makes values one after the other. -/
def makeItems (σ : Store) : List Blueprint → List Value × Store
  | [] => ([], σ)
  | b :: bs =>
    let (v, σ) := b.make σ
    let (vs, σ) := makeItems σ bs
    (v :: vs, σ)

end

end Blueprint

/-- Bindings that a program can import.  A name may stand twice; its last entry wins. -/
abbrev Bundle := List (String × Blueprint)

namespace Bundle

/-- Makes the values of a bundle, in order. -/
def make (σ : Store) : Bundle → List (String × Value) × Store
  | [] => ([], σ)
  | (name, blueprint) :: rest =>
    let (v, σ) := blueprint.make σ
    let (entries, σ) := make σ rest
    ((name, v) :: entries, σ)

/-- A bundle of values that are already made. -/
def ofValues (entries : List (String × Value)) : Bundle :=
  entries.map fun entry => (entry.1, .value entry.2)

/-- A primitive under the name of its operation. -/
def standard (op : Operation) : String × Blueprint :=
  (op.name, .primitive op.name op.arity op)

/-- Square roots, the greatest whole number below, and the ratio of a circle's circumference to its
diameter. -/
def math : Bundle :=
  [standard .sqrt, standard .floor, ("pi", .value (.num 3.141592653589793))]

/-- A table of bundles of which the first one of a name counts. -/
def tableOfFirst (bundles : List (String × Bundle)) : Bindings Bundle :=
  .ofList bundles.reverse

end Bundle

/-- The bundles whose values are made once, with these values. -/
abbrev Registry := Bindings (List (String × Value))

namespace Registry

/-- Makes the values of a bundle and keeps them, in place of an earlier bundle of the name. -/
def register (registry : Registry) (name : String) (bundle : Bundle) (σ : Store) : Registry × Store :=
  let (entries, σ) := bundle.make σ
  (registry.insert name entries, σ)

/-- Registers bundles in order. -/
def registerAll (registry : Registry) : List (String × Bundle) → Store → Registry × Store
  | [], σ => (registry, σ)
  | (name, bundle) :: rest, σ =>
    let (registry, σ) := registry.register name bundle σ
    registerAll registry rest σ

/-- What programs can import: the values that are kept. -/
def bundles (registry : Registry) : Bindings Bundle := registry.map .ofValues

end Registry

end MiniLisp
