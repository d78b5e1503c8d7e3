import MiniLisp.Bundle
import MiniLisp.Primitive.Call

/-!
# What imports and primitives leave alone

Making the values of a bundle only adds primitives to their table, and calling a primitive only writes
to the sink, whose text then begins as before.
-/

namespace MiniLisp

/-! ## Making values -/

/-- All primitives that were made in the first store are still there in the second one. -/
def Store.KeepsPrimitives (σ τ : Store) : Prop := σ.primitives.toList <+: τ.primitives.toList

namespace Store.KeepsPrimitives

variable {σ τ υ : Store}

theorem refl (σ : Store) : σ.KeepsPrimitives σ := List.prefix_refl _

theorem of_eq (h : τ.primitives = σ.primitives) : σ.KeepsPrimitives τ :=
  ⟨[], by rw [h, List.append_nil]⟩

theorem trans (hfirst : σ.KeepsPrimitives τ) (hrest : τ.KeepsPrimitives υ) : σ.KeepsPrimitives υ :=
  List.IsPrefix.trans hfirst hrest

theorem size_le (h : σ.KeepsPrimitives τ) : σ.primitives.size ≤ τ.primitives.size :=
  List.IsPrefix.length_le h

theorem getElem? {i : Nat} {p : Primitive} (h : σ.KeepsPrimitives τ)
    (hp : σ.primitives[i]? = some p) : τ.primitives[i]? = some p := by
  rw [← Array.getElem?_toList] at hp ⊢
  obtain ⟨rest, hrest⟩ := h
  rw [← hrest, List.getElem?_append_left (List.getElem?_eq_some_iff.mp hp).1]
  exact hp

end Store.KeepsPrimitives

/-- The second store is the first one with primitives that were made since. -/
structure Store.StampsOnly (σ τ : Store) : Prop where
  frames : τ.frames = σ.frames
  closures : τ.closures = σ.closures
  sink : τ.sink = σ.sink
  primitives : σ.KeepsPrimitives τ

namespace Store.StampsOnly

theorem refl (σ : Store) : σ.StampsOnly σ := ⟨rfl, rfl, rfl, .refl σ⟩

theorem trans {σ τ υ : Store} (hfirst : σ.StampsOnly τ) (hrest : τ.StampsOnly υ) :
    σ.StampsOnly υ :=
  ⟨hrest.frames.trans hfirst.frames, hrest.closures.trans hfirst.closures,
    hrest.sink.trans hfirst.sink, hfirst.primitives.trans hrest.primitives⟩

end Store.StampsOnly

mutual

theorem Blueprint.make_stampsOnly (σ : Store) (b : Blueprint) : σ.StampsOnly (b.make σ).2 := by
  cases b with
  | value v => exact .refl σ
  | bound scope name => exact .refl σ
  | primitive name arity operation => exact ⟨rfl, rfl, rfl, ⟨_, Array.toList_push.symm⟩⟩
  | list items => exact Blueprint.makeItems_stampsOnly σ items

theorem Blueprint.makeItems_stampsOnly (σ : Store) (items : List Blueprint) :
    σ.StampsOnly (Blueprint.makeItems σ items).2 := by
  cases items with
  | nil => exact .refl σ
  | cons b bs =>
    exact (Blueprint.make_stampsOnly σ b).trans
      (Blueprint.makeItems_stampsOnly (b.make σ).2 bs)

end

theorem Bundle.make_stampsOnly (σ : Store) (bundle : Bundle) : σ.StampsOnly (bundle.make σ).2 := by
  induction bundle generalizing σ with
  | nil => exact .refl σ
  | cons entry rest ih =>
    obtain ⟨name, b⟩ := entry
    exact (b.make_stampsOnly σ).trans (ih (b.make σ).2)

/-! ## Writing -/

/-- A later text begins with an earlier one. -/
def Sink.Grows (earlier later : Sink) : Prop :=
  ∃ more, later.text = earlier.text ++ more

namespace Sink

theorem Grows.refl (sink : Sink) : sink.Grows sink := ⟨"", by rw [String.append_empty]⟩

theorem Grows.trans {first second third : Sink} (h₁ : first.Grows second) (h₂ : second.Grows third) :
    first.Grows third := by
  obtain ⟨more₁, hmore₁⟩ := h₁
  obtain ⟨more₂, hmore₂⟩ := h₂
  refine ⟨more₁ ++ more₂, ?_⟩
  rw [hmore₂, hmore₁, String.append_assoc]

/-- A piece is appended as far as the sink takes it. -/
theorem put_grows (sink : Sink) (piece : String) : sink.Grows (sink.put piece) := by
  unfold put
  split
  · exact .refl sink
  · dsimp only
    split
    · exact ⟨piece, rfl⟩
    · exact ⟨_, rfl⟩

end Sink

mutual

/-- Two outputs stay related while a value is spelled on both if every piece keeps them related. -/
theorem Value.spell_rel {α β : Type} (rel : α → β → Prop) {emit : α → String → α}
    {emit' : β → String → β} (hemit : ∀ {a b} piece, rel a b → rel (emit a piece) (emit' b piece))
    {a : α} {b : β} (h : rel a b) (v : Value) : rel (v.spell emit a) (v.spell emit' b) := by
  cases v with
  | num x => exact hemit _ h
  | str text => exact hemit _ (hemit text (hemit _ h))
  | sym name => exact hemit name h
  | bool b => exact hemit _ h
  | list items =>
    cases items with
    | nil => exact hemit _ (hemit _ h)
    | cons v vs =>
      have hfirst := Value.spell_rel rel hemit (hemit "(" h) v
      exact hemit ")" (Value.spellRest_rel rel hemit hfirst vs)
  | closure id => exact hemit _ h
  | primitive p => exact hemit _ (hemit p.name (hemit _ h))
  | nil => exact hemit _ h
  | unspecified => exact hemit _ h

theorem Value.spellRest_rel {α β : Type} (rel : α → β → Prop) {emit : α → String → α}
    {emit' : β → String → β} (hemit : ∀ {a b} piece, rel a b → rel (emit a piece) (emit' b piece))
    {a : α} {b : β} (h : rel a b) (vs : List Value) :
    rel (Value.spellRest emit a vs) (Value.spellRest emit' b vs) := by
  cases vs with
  | nil => exact h
  | cons v vs =>
    have hfirst := Value.spell_rel rel hemit (hemit " " h) v
    exact Value.spellRest_rel rel hemit hfirst vs

end

/-- Two sinks stay related while a value is written on both if every piece keeps them related. -/
theorem Sink.writeLine_rel (rel : Sink → Sink → Prop)
    (hput : ∀ {a b} piece, rel a b → rel (a.put piece) (b.put piece)) {a b : Sink} (h : rel a b)
    (v : Value) : rel (a.writeLine v) (b.writeLine v) := by
  unfold Sink.writeLine
  split
  · rename_i text
    exact hput _ (hput text h)
  · exact hput _ (Value.spell_rel rel hput h _)

theorem Sink.writeLine_grows (sink : Sink) (v : Value) : sink.Grows (sink.writeLine v) := by
  refine writeLine_rel (fun _ later => sink.Grows later) ?_ (a := sink) (.refl sink) v
  intro _ later piece hlater
  exact hlater.trans (later.put_grows piece)

/-! ## Calling primitives -/

theorem Operation.perform_cases (op : Operation) (args : List Value) :
    op.perform args = Action.ofExcept (op.compute args) ∨ ∃ v, op.perform args = logValue v := by
  unfold Operation.perform
  split
  · exact .inr ⟨_, rfl⟩
  · exact .inl rfl

/-- A call either has a result that does not depend on the store, or writes a value. -/
theorem Primitive.call_cases (p : Primitive) (args : List Value) :
    (∃ r, p.call args = Action.ofExcept r ∧ ∀ v, r = .ok v → p.operation.compute args = .ok v) ∨
      ∃ v, p.call args = logValue v := by
  unfold Primitive.call
  split
  · rcases p.operation.perform_cases args with hperform | ⟨v, hperform⟩
    · exact .inl ⟨_, hperform, fun _ h => h⟩
    · exact .inr ⟨v, hperform⟩
  · exact .inl ⟨.error _, rfl, fun _ => nofun⟩

/-- A call of a primitive only writes to the sink. -/
theorem Primitive.call_sinkOnly (p : Primitive) (args : List Value) (σ : Store) :
    (p.call args σ).2 = { σ with sink := (p.call args σ).2.sink } := by
  rcases p.call_cases args with ⟨r, hcall, _⟩ | ⟨v, hcall⟩
  · rw [hcall]
    rfl
  · rw [hcall]
    unfold logValue
    dsimp only
    split <;> rfl

theorem sink_logValue (v : Value) (σ : Store) :
    (logValue v σ).2.sink = σ.sink.writeLine v := by
  unfold logValue
  dsimp only
  split <;> rfl

/-- A call of a primitive leaves the sink as it is or writes a value to it. -/
theorem Primitive.sink_call (p : Primitive) (args : List Value) (σ : Store) :
    (p.call args σ).2.sink = σ.sink ∨ ∃ v, (p.call args σ).2.sink = σ.sink.writeLine v := by
  rcases p.call_cases args with ⟨r, hcall, _⟩ | ⟨v, hcall⟩
  · rw [hcall]
    exact .inl rfl
  · rw [hcall]
    exact .inr ⟨v, sink_logValue v σ⟩

end MiniLisp
