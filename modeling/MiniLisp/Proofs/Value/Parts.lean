import MiniLisp.Proofs.Store.Frames
import MiniLisp.Proofs.Value.Answers

/-!
# Parts of values

The parts of a value are the value itself and, if it is a list, the parts of its items.  Callable values
cannot be taken apart and are not put together: what a primitive answers has no callable parts that its
arguments do not have, and the values of a bundle have only those that the host gives away, those that
are bound where it looks names up, and new primitives.
-/

namespace MiniLisp

variable {v w : Value} {vs args : List Value}

/-- The value stands in another one, at any list depth. -/
inductive Value.Part (w : Value) : Value → Prop where
  | self : Part w w
  | item {v : Value} {items : List Value} (hmem : v ∈ items) (h : Part w v) : Part w (.list items)

namespace Value

/-- What can be called in a list stands in one of its items. -/
theorem Part.of_list (hw : w.isCallable = true) (h : w.Part (list vs)) : ∃ v ∈ vs, w.Part v := by
  cases h with
  | self => cases hw
  | item hmem h => exact ⟨_, hmem, h⟩

/-- A value has the parts of its items. -/
theorem Part.of_items {u : Value} (hmem : u ∈ v.items) (h : w.Part u) : w.Part v := by
  cases v with
  | list vs => exact .item hmem h
  | nil => cases hmem
  | _ =>
    obtain rfl := List.mem_singleton.mp hmem
    exact h

mutual

/-- Nothing in quoted data can be called. -/
theorem not_part_ofDatum (hw : w.isCallable = true) (d : Datum) : ¬ w.Part (ofDatum d) := by
  intro h
  cases d with
  | list items =>
    obtain ⟨v, hmem, hv⟩ := h.of_list hw
    exact not_part_ofData hw items v hmem hv
  | num x =>
    cases h
    cases hw
  | str text =>
    cases h
    cases hw
  | sym name =>
    cases h
    cases hw

theorem not_part_ofData (hw : w.isCallable = true) (ds : List Datum) :
    ∀ v ∈ ofData ds, ¬ w.Part v := by
  intro v hmem
  cases ds with
  | nil => cases hmem
  | cons d ds =>
    rcases List.mem_cons.mp hmem with rfl | hmem
    · exact not_part_ofDatum hw d
    · exact not_part_ofData hw ds v hmem

end

end Value

/-! ## Primitives -/

/-- What a primitive answers has only callable parts of its arguments. -/
theorem Primitive.part_call {p : Primitive} {σ : Store} (h : (p.call args σ).1 = .ok v)
    (hw : w.isCallable = true) (hv : w.Part v) : ∃ a ∈ args, w.Part a := by
  -- the first four are answers without any callable part
  cases Primitive.answers_call h with
  | number | truth | text | done =>
    cases hv
    cases hw
  | @cons a b hargs =>
    subst hargs
    obtain ⟨u, hmem, hu⟩ := hv.of_list hw
    rcases List.mem_append.mp hmem with hmem | hmem
    · exact ⟨a, List.mem_cons_self, hu.of_items hmem⟩
    · exact ⟨b, List.mem_cons_of_mem a List.mem_cons_self, hu.of_items hmem⟩
  | @car a hargs =>
    subst hargs
    refine ⟨a, List.mem_cons_self, ?_⟩
    unfold Value.car at hv
    cases hhead : a.items.head? with
    | none =>
      rw [hhead] at hv
      cases hv
      cases hw
    | some u =>
      rw [hhead] at hv
      exact hv.of_items (List.mem_of_head? hhead)
  | @cdr a hargs =>
    subst hargs
    obtain ⟨u, hmem, hu⟩ := hv.of_list hw
    exact ⟨a, List.mem_cons_self, hu.of_items (List.mem_of_mem_tail hmem)⟩
  | collected _ => exact hv.of_list hw

/-! ## Bundles -/

/-- The host gives the value away with the blueprint. -/
inductive Blueprint.Gives (v : Value) : Blueprint → Prop where
  | value : Gives v (.value v)
  | item {b : Blueprint} {items : List Blueprint} (hmem : b ∈ items) (h : Gives v b) :
      Gives v (.list items)

/-- The host looks a name up in the scope. -/
inductive Blueprint.Reads (f : FrameId) : Blueprint → Prop where
  | bound (name : String) : Reads f (.bound f name)
  | item {b : Blueprint} {items : List Blueprint} (hmem : b ∈ items) (h : Reads f b) :
      Reads f (.list items)

/-- The primitive was made between the two stores. -/
structure Store.Builds (σ τ : Store) (p : Primitive) : Prop where
  fresh : σ.primitives.size ≤ p.stamp
  made : τ.primitives[p.stamp]? = some p

/-- Where a part of a value that is made from a blueprint can come from: it is given away, found in a
scope, or a new primitive. -/
def Blueprint.Supplies (σ τ : Store) (b : Blueprint) (w : Value) : Prop :=
  (∃ v, b.Gives v ∧ w.Part v) ∨ (∃ f name v, b.Reads f ∧ σ.lookup? f name = some v ∧ w.Part v) ∨
    ∃ p, w = .primitive p ∧ σ.Builds τ p

section Make

variable {σ τ υ : Store} {b : Blueprint}

/-- A part comes from the same source if more is made before it and after it. -/
theorem Blueprint.Supplies.mono {σ' τ' : Store} (h : b.Supplies σ τ w) (hbefore : σ'.StampsOnly σ)
    (hafter : τ.StampsOnly τ') : b.Supplies σ' τ' w := by
  rcases h with hgives | ⟨f, name, v, hreads, hlookup, hv⟩ | ⟨p, hp, hfresh, hmade⟩
  · exact .inl hgives
  · rw [Store.lookup?_of_frames hbefore.frames] at hlookup
    exact .inr (.inl ⟨f, name, v, hreads, hlookup, hv⟩)
  · have hplace := Nat.le_trans hbefore.primitives.size_le hfresh
    exact .inr (.inr ⟨p, hp, hplace, hafter.primitives.getElem? hmade⟩)

theorem Blueprint.Supplies.item {bs : List Blueprint} (hmem : b ∈ bs) (h : b.Supplies σ τ w) :
    (Blueprint.list bs).Supplies σ τ w := by
  rcases h with ⟨v, hgives, hv⟩ | ⟨f, name, v, hreads, hlookup, hv⟩ | hnew
  · exact .inl ⟨v, .item hmem hgives, hv⟩
  · exact .inr (.inl ⟨f, name, v, .item hmem hreads, hlookup, hv⟩)
  · exact .inr (.inr hnew)

mutual

/-- The callable parts of a value that is made come from its blueprint. -/
theorem Blueprint.part_make (hw : w.isCallable = true) (σ : Store) (b : Blueprint)
    (h : w.Part (b.make σ).1) : b.Supplies σ (b.make σ).2 w := by
  cases b with
  | value v => exact .inl ⟨v, .value, h⟩
  | bound f name =>
    cases hv : σ.lookup? f name with
    | none =>
      rw [Blueprint.make, hv] at h
      cases h
      cases hw
    | some v =>
      rw [Blueprint.make, hv] at h
      exact .inr (.inl ⟨f, name, v, .bound name, hv, h⟩)
  | primitive name arity operation =>
    cases h
    exact .inr (.inr ⟨_, rfl, Nat.le_refl _, Array.getElem?_push_size⟩)
  | list items =>
    obtain ⟨v, hmem, hv⟩ := h.of_list hw
    obtain ⟨b, hb, hsupplies⟩ := Blueprint.part_makeItems hw σ items v hmem hv
    exact hsupplies.item hb

theorem Blueprint.part_makeItems (hw : w.isCallable = true) (σ : Store) (bs : List Blueprint)
    (v : Value) (hmem : v ∈ (Blueprint.makeItems σ bs).1) (h : w.Part v) :
    ∃ b ∈ bs, b.Supplies σ (Blueprint.makeItems σ bs).2 w := by
  cases bs with
  | nil => cases hmem
  | cons b bs =>
    have hafter := Blueprint.makeItems_stampsOnly (b.make σ).2 bs
    rcases List.mem_cons.mp hmem with rfl | hmem
    · exact ⟨b, List.mem_cons_self, (Blueprint.part_make hw σ b h).mono (.refl σ) hafter⟩
    · obtain ⟨b', hb', hsupplies⟩ := Blueprint.part_makeItems hw (b.make σ).2 bs v hmem h
      exact ⟨b', List.mem_cons_of_mem b hb', hsupplies.mono (b.make_stampsOnly σ) (.refl _)⟩

end

/-- So do those of the values of a bundle. -/
theorem Bundle.part_make (hw : w.isCallable = true) {bundle : Bundle} {x : String}
    (hmem : (x, v) ∈ (bundle.make σ).1) (h : w.Part v) :
    ∃ entry ∈ bundle, entry.2.Supplies σ (bundle.make σ).2 w := by
  induction bundle generalizing σ with
  | nil => cases hmem
  | cons entry rest ih =>
    obtain ⟨name, b⟩ := entry
    have hafter := Bundle.make_stampsOnly (b.make σ).2 rest
    rcases List.mem_cons.mp hmem with heq | hmem
    · obtain rfl : v = (b.make σ).1 := (Prod.ext_iff.mp heq).2
      exact ⟨(name, b), List.mem_cons_self, (b.part_make hw σ h).mono (.refl σ) hafter⟩
    · obtain ⟨entry, hentry, hsupplies⟩ := ih hmem
      exact ⟨entry, List.mem_cons_of_mem _ hentry, hsupplies.mono (b.make_stampsOnly σ) (.refl _)⟩

end Make

end MiniLisp
