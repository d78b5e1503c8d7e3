import MiniLisp.Session.Basic

/-!
# Setting up a session

A host chooses the limits, the bundles it offers and how it offers them, the sink, and whether the
standard unit is loaded before the first step.
-/

namespace MiniLisp

/-- What a bundle of a host holds. -/
inductive BundleSource where
  | described (bindings : List (String × Supply))
  | math

/-- How a host offers its bundles. -/
inductive Provision where
  /-- Their values are made once and kept; a later bundle takes the place of an earlier one of its
  name. -/
  | registered (sources : List (String × BundleSource))
  /-- Their values are made at every import; the first bundle of a name counts. -/
  | madeAnew (sources : List (String × BundleSource))

/-- The choices of a host. -/
structure Host where
  limits : Limits
  provision : Provision
  sink : Sink
  /-- Load the standard unit first? -/
  withPrelude : Bool

/-- The bundle that a source describes.  Names in it are read in the root scope. -/
def BundleSource.bundle : BundleSource → Bundle
  | described bindings => Supply.bundle Store.rootFrame bindings
  | math => .math

/-- The bundles of named sources. -/
def BundleSource.bundles (sources : List (String × BundleSource)) : List (String × Bundle) :=
  sources.map fun source => (source.1, source.2.bundle)

/-- The bundles that a host registers. -/
def Provision.registry : Provision → Store → Registry × Store
  | registered sources, σ => Registry.registerAll .empty (BundleSource.bundles sources) σ
  | madeAnew _, σ => (.empty, σ)

/-- The bundle of a name that programs import from a host with these registered bundles. -/
def Provision.bundles (registry : Registry) : Provision → String → Option Bundle
  | registered _ => registry.bundles.get?
  | madeAnew sources => (Bundle.tableOfFirst (BundleSource.bundles sources)).get?

/-- The session of a host before its first step.  An error of the standard unit is ignored. -/
def Host.session (host : Host) : Session :=
  let bare : Interpreter := ⟨host.limits, fun _ => none⟩
  let σ := Store.root host.sink
  let σ := if host.withPrelude then (bare.loadPrelude Store.rootFrame σ).2 else σ
  let (registry, σ) := host.provision.registry σ
  { interpreter := ⟨host.limits, host.provision.bundles registry⟩
    registry := registry
    store := σ
    scopes := #[Store.rootFrame]
    program := #[] }

end MiniLisp
