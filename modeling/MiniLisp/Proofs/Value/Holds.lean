import MiniLisp.Proofs.Value.Parts

/-!
# Closures held in values

A value holds a closure if the closure is a part of it.  Primitives make no closures: what they answer
holds only closures that their arguments hold.  A bundle holds the closures of its values, and reads the
scopes in which it looks names up.
-/

namespace MiniLisp

variable {id : ClosureId} {v w : Value} {vs args : List Value}

/-- The closure stands in the value, at any list depth. -/
inductive Value.Holds (id : ClosureId) : Value → Prop where
  | closure : Holds id (.closure id)
  | item {v : Value} {items : List Value} (hmem : v ∈ items) (h : Holds id v) : Holds id (.list items)

/-- A value without closures. -/
def Value.Plain (v : Value) : Prop := ∀ id, ¬ v.Holds id

namespace Value

/-- The closures that a value holds are its parts. -/
theorem holds_iff_part : v.Holds id ↔ (closure id).Part v := by
  constructor
  · intro h
    induction h with
    | closure => exact .self
    | item hmem _ ih => exact .item hmem ih
  · intro h
    induction h with
    | self => exact .closure
    | item hmem _ ih => exact .item hmem ih

/-- Quoted data holds no closures. -/
theorem plain_ofDatum (d : Datum) : (ofDatum d).Plain :=
  fun _ h => not_part_ofDatum rfl d (holds_iff_part.mp h)

end Value

/-! ## Primitives -/

/-- What a primitive answers holds only closures of its arguments. -/
theorem Primitive.holds_call {p : Primitive} {σ : Store} (h : (p.call args σ).1 = .ok v)
    (hv : v.Holds id) : ∃ a ∈ args, a.Holds id := by
  obtain ⟨a, ha, hpart⟩ := Primitive.part_call h rfl (Value.holds_iff_part.mp hv)
  exact ⟨a, ha, Value.holds_iff_part.mpr hpart⟩

/-! ## Bundles -/

/-- The closure stands in a value that the host gives away. -/
inductive Blueprint.Holds (id : ClosureId) : Blueprint → Prop where
  | value {v : Value} (h : v.Holds id) : Holds id (.value v)
  | item {b : Blueprint} {items : List Blueprint} (hmem : b ∈ items) (h : Holds id b) :
      Holds id (.list items)

theorem Blueprint.Gives.holds {b : Blueprint} (h : b.Gives v) (hv : v.Holds id) : b.Holds id := by
  induction h with
  | value => exact .value hv
  | item hmem _ ih => exact .item hmem ih

theorem Blueprint.Holds.gives {b : Blueprint} (h : b.Holds id) : ∃ v, b.Gives v ∧ v.Holds id := by
  induction h with
  | value hv => exact ⟨_, .value, hv⟩
  | item hmem _ ih =>
    obtain ⟨v, hgives, hv⟩ := ih
    exact ⟨v, .item hmem hgives, hv⟩

/-- A closure is held in what a name is bound to in a scope. -/
def Store.Finds (σ : Store) (f : FrameId) (id : ClosureId) : Prop :=
  ∃ name v, σ.lookup? f name = some v ∧ v.Holds id

theorem Blueprint.Supplies.holds {σ τ : Store} {b : Blueprint} (h : b.Supplies σ τ (.closure id)) :
    b.Holds id ∨ ∃ f, b.Reads f ∧ σ.Finds f id := by
  rcases h with ⟨v, hgives, hv⟩ | ⟨f, name, v, hreads, hlookup, hv⟩ | ⟨p, hp, _⟩
  · exact .inl (hgives.holds (Value.holds_iff_part.mpr hv))
  · exact .inr ⟨f, hreads, name, v, hlookup, Value.holds_iff_part.mpr hv⟩
  · cases hp

/-- A value that was made holds the closures of its blueprint and those found in scopes. -/
theorem Blueprint.holds_make {σ : Store} {b : Blueprint} (h : (b.make σ).1.Holds id) :
    b.Holds id ∨ ∃ f, b.Reads f ∧ σ.Finds f id :=
  (b.part_make rfl σ (Value.holds_iff_part.mp h)).holds

/-- The bindings of a bundle hold the closures of its blueprints and those found in scopes. -/
theorem Bundle.holds_make {σ : Store} {bundle : Bundle} {x : String}
    (hmem : (x, v) ∈ (bundle.make σ).1) (h : v.Holds id) :
    ∃ entry ∈ bundle, entry.2.Holds id ∨ ∃ f, entry.2.Reads f ∧ σ.Finds f id := by
  obtain ⟨entry, hentry, hsupplies⟩ := Bundle.part_make rfl hmem (Value.holds_iff_part.mp h)
  exact ⟨entry, hentry, hsupplies.holds⟩

end MiniLisp
