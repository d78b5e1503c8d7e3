import MiniLisp.Proofs.Store.Effects
import MiniLisp.Proofs.Store.Frames
import MiniLisp.Session.Setup

/-!
# How sessions start

A session starts with the root scope, in which the standard unit may have been loaded, and with the
values of registered bundles.  What holds of the root scope and is kept by loading the unit and by making
the values of the bundles holds at the start of the session (`Host.start`).
-/

namespace MiniLisp

/-! ## The root scope -/

/-- A standard primitive has the number of its place as its stamp. -/
theorem Operation.getElem?_primitivesFrom {stamp i : Nat} {ops : List Operation} {p : Primitive}
    (h : (Operation.primitivesFrom stamp ops)[i]? = some p) :
    ∃ op ∈ ops, p = ⟨stamp + i, op.name, op.arity, op⟩ := by
  induction ops generalizing stamp i with
  | nil => cases h
  | cons op ops ih =>
    cases i with
    | zero => exact ⟨op, List.mem_cons_self, (Option.some.inj h).symm⟩
    | succ i =>
      obtain ⟨op', hmem, rfl⟩ := ih h
      exact ⟨op', List.mem_cons_of_mem op hmem, by rw [Nat.add_right_comm, Nat.add_assoc]⟩

/-- The root scope binds constants and standard primitives. -/
theorem Store.root_binds {sink : Sink} {f : FrameId} {x : String} {v : Value}
    (h : (Store.root sink).Binds f x v) :
    (∃ b, v = .bool b) ∨ v = .nil ∨
      ∃ p ∈ Operation.primitivesFrom 0 Operation.standard, v = .primitive p := by
  let entries := (Operation.primitivesFrom 0 Operation.standard).map Primitive.binding
  change (Store.addFrame (.empty sink) none (constants ++ entries)).2.Binds f x v at h
  have hentry : (x, v) ∈ constants ++ entries := by
    rcases h.of_addFrame with hmem | hnone
    · exact hmem
    · cases hnone
  rcases List.mem_append.mp hentry with hmem | hmem
  · simp only [constants, List.mem_cons, Prod.mk.injEq, List.not_mem_nil, or_false] at hmem
    rcases hmem with ⟨_, rfl⟩ | ⟨_, rfl⟩ | ⟨_, rfl⟩
    · exact .inl ⟨true, rfl⟩
    · exact .inl ⟨false, rfl⟩
    · exact .inr (.inl rfl)
  · obtain ⟨p, hp, heq⟩ := List.mem_map.mp hmem
    exact .inr (.inr ⟨p, hp, (Prod.ext_iff.mp heq).2.symm⟩)

/-! ## The math bundle -/

/-- The math bundle offers primitives and a number. -/
theorem Bundle.mem_math {entry : String × Blueprint} (h : entry ∈ Bundle.math) :
    (∃ op, op ≠ .collect ∧ entry = Bundle.standard op) ∨ ∃ x, entry = ("pi", .value (.num x)) := by
  simp only [Bundle.math, List.mem_cons, List.not_mem_nil, or_false] at h
  rcases h with rfl | rfl | rfl
  · exact .inl ⟨.sqrt, nofun, rfl⟩
  · exact .inl ⟨.floor, nofun, rfl⟩
  · exact .inr ⟨_, rfl⟩

/-! ## Registered bundles -/

namespace Registry

variable {registry : Registry} {state : Store → Prop} {value : Store → Value → Prop} {σ : Store}

/-- All registered values are of a kind. -/
def Over (kind : Value → Prop) (registry : Registry) : Prop :=
  ∀ name entries, registry.get? name = some entries → ∀ entry ∈ entries, kind entry.2

/-- Programs import the registered values. -/
theorem Over.offer {kind : Value → Prop} (h : registry.Over kind) {name : String} {bundle : Bundle}
    (hbundle : registry.bundles.get? name = some bundle) :
    ∀ entry ∈ bundle, ∃ v, entry.2 = .value v ∧ kind v := by
  intro entry hentry
  have hget : (registry.get? name).map Bundle.ofValues = some bundle :=
    (Bindings.get?_map _ _ name).symm.trans hbundle
  obtain ⟨entries, hentries, rfl⟩ := Option.map_eq_some_iff.mp hget
  obtain ⟨kept, hkept, rfl⟩ := List.mem_map.mp hentry
  exact ⟨kept.2, rfl, h name entries hentries kept hkept⟩

/-- What making a bundle does for the registered values. -/
def Makes (state : Store → Prop) (value : Store → Value → Prop) (bundle : Bundle) : Prop :=
  ∀ σ, state σ →
    let made := bundle.make σ
    state made.2 ∧ (∀ v, value σ v → value made.2 v) ∧ ∀ entry ∈ made.1, value made.2 entry.2

theorem over_register (name : String) {bundle : Bundle} (hmakes : Makes state value bundle)
    (hσ : state σ) (h : registry.Over (value σ)) :
    let registered := registry.register name bundle σ
    state registered.2 ∧ registered.1.Over (value registered.2) := by
  obtain ⟨hmade, hkept, hentries⟩ := hmakes σ hσ
  refine ⟨hmade, ?_⟩
  intro other entries hget entry hentry
  rw [register, Bindings.get?_insert] at hget
  split at hget
  · obtain rfl := Option.some.inj hget
    exact hentries entry hentry
  · exact hkept _ (h other entries hget entry hentry)

theorem over_registerAll {bundles : List (String × Bundle)}
    (hmakes : ∀ source ∈ bundles, Makes state value source.2) (hσ : state σ)
    (h : registry.Over (value σ)) :
    let registered := registry.registerAll bundles σ
    state registered.2 ∧ registered.1.Over (value registered.2) := by
  induction bundles generalizing registry σ with
  | nil => exact ⟨hσ, h⟩
  | cons source rest ih =>
    obtain ⟨name, bundle⟩ := source
    obtain ⟨hfirst, hrest⟩ := List.forall_mem_cons.mp hmakes
    obtain ⟨hσ', h'⟩ := over_register name hfirst hσ h
    exact ih hrest hσ' h'

end Registry

/-! ## The first state -/

/-- The interpreter that loads the standard unit: it has no bundles yet. -/
def Host.loader (host : Host) : Interpreter := ⟨host.limits, fun _ => none⟩

/-- What holds of the root scope holds at the start of a session, if loading the standard unit and
making the values of the registered bundles keep it. -/
theorem Host.start (host : Host) {state : Store → Prop} {value : Store → Value → Prop}
    (hroot : state (Store.root host.sink))
    (hload : ∀ σ, state σ → state (host.loader.loadPrelude Store.rootFrame σ).2)
    (hmakes : ∀ sources, host.provision = .registered sources →
      ∀ source ∈ BundleSource.bundles sources, Registry.Makes state value source.2) :
    state host.session.store ∧ host.session.registry.Over (value host.session.store) := by
  have hloaded : state (if host.withPrelude then
      (host.loader.loadPrelude Store.rootFrame (Store.root host.sink)).2
      else Store.root host.sink) := by
    split
    · exact hload _ hroot
    · exact hroot
  have hempty : ∀ σ, Registry.Over (value σ) .empty := fun _ _ _ => nofun
  unfold Host.session
  obtain ⟨limits, provision, sink, withPrelude⟩ := host
  cases provision with
  | registered sources => exact Registry.over_registerAll (hmakes sources rfl) hloaded (hempty _)
  | madeAnew sources => exact ⟨hloaded, hempty _⟩

/-- What programs import from a host was registered, or it stands in a bundle that the host describes. -/
theorem Host.offered (host : Host) {kind : Value → Prop} {name : String} {bundle : Bundle}
    {entry : String × Blueprint} (hregistry : host.session.registry.Over kind)
    (hbundle : host.session.interpreter.bundles name = some bundle) (hentry : entry ∈ bundle) :
    (∃ v, entry.2 = .value v ∧ kind v) ∨ ∃ source : BundleSource, entry ∈ source.bundle := by
  cases hprovision : host.provision with
  | registered sources =>
    have hget : host.session.registry.bundles.get? name = some bundle := by
      simpa [Host.session, Provision.bundles, hprovision] using hbundle
    exact .inl (hregistry.offer hget entry hentry)
  | madeAnew sources =>
    have hget : (Bundle.tableOfFirst (BundleSource.bundles sources)).get? name = some bundle := by
      simpa [Host.session, Provision.bundles, hprovision] using hbundle
    have hmem := List.mem_reverse.mp (Bindings.mem_of_get?_ofList hget)
    obtain ⟨described, _, heq⟩ := List.mem_map.mp hmem
    obtain rfl : described.2.bundle = bundle := (Prod.ext_iff.mp heq).2
    exact .inr ⟨described.2, hentry⟩

end MiniLisp
