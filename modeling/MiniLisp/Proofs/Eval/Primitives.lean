import MiniLisp.Proofs.Eval.Order
import MiniLisp.Proofs.Eval.Values
import MiniLisp.Proofs.Value.Equality

/-!
# Primitives that were made

Every primitive that a run meets was made once, and stands since then at the place of the table that its
stamp names: runs copy primitives into frames, lists and results, but put none together.  So the
stamp tells which one a primitive is a copy of.
-/

namespace MiniLisp

variable {σ τ : Store} {v : Value} {p q : Primitive}

/-! ## The table of primitives -/

namespace Store

/-- Every primitive of the table has the number of its place as its stamp. -/
def Stamped (σ : Store) : Prop :=
  ∀ (i : Nat) (p : Primitive), σ.primitives[i]? = some p → p.stamp = i

/-- All primitives in the value were made: each stands in the table at the place of its stamp. -/
def Registers (σ : Store) (v : Value) : Prop :=
  ∀ p, (Value.primitive p).Part v → σ.primitives[p.stamp]? = some p

/-- Both primitives are copies of one that was made. -/
def SameOrigin (σ : Store) (p q : Primitive) : Prop :=
  ∃ i : Nat, σ.primitives[i]? = some p ∧ σ.primitives[i]? = some q

theorem Stamped.congr (h : σ.Stamped) (hprimitives : τ.primitives = σ.primitives) : τ.Stamped := by
  intro i p hp
  exact h i p (hprimitives ▸ hp)

theorem Stamped.addPrimitive (h : σ.Stamped) (name : String) (arity : Arity) (operation : Operation) :
    (σ.addPrimitive name arity operation).2.Stamped := by
  intro i p hp
  change (σ.primitives.push _)[i]? = some p at hp
  rw [Array.getElem?_push] at hp
  split at hp
  · rename_i hlast
    obtain rfl := Option.some.inj hp
    exact hlast.symm
  · exact h i p hp

theorem Registers.mono (h : σ.Registers v) (hkeeps : σ.KeepsPrimitives τ) : τ.Registers v :=
  fun p hp => hkeeps.getElem? (h p hp)

/-- A value in which no primitive stands asks for nothing. -/
theorem registers_of_not_part (h : ∀ p, ¬ (Value.primitive p).Part v) : σ.Registers v :=
  fun p hp => absurd hp (h p)

theorem registers_nil (σ : Store) : σ.Registers .nil := registers_of_not_part fun _ => nofun

theorem registers_unspecified (σ : Store) : σ.Registers .unspecified :=
  registers_of_not_part fun _ => nofun

theorem registers_closure (σ : Store) (id : ClosureId) : σ.Registers (.closure id) :=
  registers_of_not_part fun _ => nofun

theorem registers_ofDatum (σ : Store) (d : Datum) : σ.Registers (.ofDatum d) :=
  registers_of_not_part fun _ => Value.not_part_ofDatum rfl d

/-- Among primitives that were made, equal ones are copies of one. -/
theorem Registers.beq_iff {w : Value} (hσ : σ.Stamped) (hv : σ.Registers v) (hw : σ.Registers w)
    (hp : (Value.primitive p).Part v) (hq : (Value.primitive q).Part w) :
    (Value.primitive p == .primitive q) = true ↔ σ.SameOrigin p q := by
  rw [Value.beq_primitive, beq_iff_eq]
  constructor
  · intro hstamp
    exact ⟨p.stamp, hv p hp, hstamp ▸ hw q hq⟩
  · rintro ⟨i, hpi, hqi⟩
    rw [hσ i p hpi, hσ i q hqi]

theorem SameOrigin.eq (h : σ.SameOrigin p q) : p = q := by
  obtain ⟨i, hp, hq⟩ := h
  exact Option.some.inj (hp.symm.trans hq)

/-- Primitives of which one was made before the other are unequal. -/
theorem Builds.bne {σ' τ' : Store} (hp : σ.Builds τ p) (hlater : τ.KeepsPrimitives σ')
    (hq : σ'.Builds τ' q) : (Value.primitive p == .primitive q) = false := by
  rw [Value.beq_primitive, beq_eq_false_iff_ne]
  have hplace : p.stamp < τ.primitives.size := (Array.getElem?_eq_some_iff.mp hp.made).1
  exact Nat.ne_of_lt (Nat.lt_of_lt_of_le hplace (Nat.le_trans hlater.size_le hq.fresh))

end Store

/-! ## Making values -/

mutual

theorem Blueprint.stamped_make {σ : Store} (hσ : σ.Stamped) (b : Blueprint) : (b.make σ).2.Stamped := by
  cases b with
  | value v => exact hσ
  | bound scope name => exact hσ
  | primitive name arity operation => exact hσ.addPrimitive name arity operation
  | list items => exact Blueprint.stamped_makeItems hσ items

theorem Blueprint.stamped_makeItems {σ : Store} (hσ : σ.Stamped) (items : List Blueprint) :
    (Blueprint.makeItems σ items).2.Stamped := by
  cases items with
  | nil => exact hσ
  | cons b bs => exact Blueprint.stamped_makeItems (Blueprint.stamped_make hσ b) bs

end

theorem Bundle.stamped_make (hσ : σ.Stamped) (bundle : Bundle) : (bundle.make σ).2.Stamped := by
  induction bundle generalizing σ with
  | nil => exact hσ
  | cons entry rest ih => exact ih (entry.2.stamped_make hσ)

/-- A primitive that a bundle describes is made anew. -/
theorem Bundle.builds_make {bundle : Bundle} {x name : String} {arity : Arity} {operation : Operation}
    (hmem : (x, .primitive name arity operation) ∈ bundle) :
    ∃ p, (x, .primitive p) ∈ (bundle.make σ).1 ∧ σ.Builds (bundle.make σ).2 p := by
  induction bundle generalizing σ with
  | nil => cases hmem
  | cons entry rest ih =>
    rcases List.mem_cons.mp hmem with rfl | hmem
    · refine ⟨⟨σ.primitives.size, name, arity, operation⟩, List.mem_cons_self, Nat.le_refl _, ?_⟩
      refine (Bundle.make_stampsOnly _ rest).primitives.getElem? ?_
      exact Array.getElem?_push_size
    · obtain ⟨p, hp, hbuilds⟩ := ih hmem
      refine ⟨p, List.mem_cons_of_mem _ hp, ?_, hbuilds.made⟩
      exact Nat.le_trans (entry.2.make_stampsOnly σ).primitives.size_le hbuilds.fresh

/-- A primitive in a value that is made was made, if those that the blueprint gives away were. -/
theorem Blueprint.Supplies.registered {b : Blueprint} (h : b.Supplies σ τ (.primitive p))
    (hkeeps : σ.KeepsPrimitives τ) (hσ : σ.Over σ.Registers)
    (hgives : ∀ v, b.Gives v → σ.Registers v) : τ.primitives[p.stamp]? = some p := by
  rcases h with ⟨v, hv, hpart⟩ | ⟨f, name, v, _, hlookup, hpart⟩ | ⟨q, hq, hbuilds⟩
  · exact hkeeps.getElem? (hgives v hv p hpart)
  · exact hkeeps.getElem? (hσ.lookup hlookup p hpart)
  · cases hq
    exact hbuilds.made

theorem Store.registers_make {bundle : Bundle} {x : String} (hσ : σ.Over σ.Registers)
    (hbundle : ∀ entry ∈ bundle, ∀ v, entry.2.Gives v → σ.Registers v)
    (hmem : (x, v) ∈ (bundle.make σ).1) : (bundle.make σ).2.Registers v := by
  intro p hp
  obtain ⟨entry, hentry, hsupplies⟩ := Bundle.part_make rfl hmem hp
  exact hsupplies.registered (bundle.make_stampsOnly σ).primitives hσ (hbundle entry hentry)

/-! ## Runs -/

/-- Every run leaves the primitives where they are. -/
def StepOrder.primitives : StepOrder where
  le := Store.KeepsPrimitives
  refl := .refl
  trans := .trans
  define _ _ _ _ := .refl _
  addClosure _ _ := .refl _
  addFrame _ _ _ := .refl _
  make σ bundle := (bundle.make_stampsOnly σ).primitives
  call σ p args := .of_eq (by rw [p.call_sinkOnly args σ])

/-- The primitives in the values that bundles give away were made. -/
def Interpreter.OffersRegistered (ip : Interpreter) (σ : Store) : Prop :=
  ∀ name bundle, ip.bundles name = some bundle →
    ∀ entry ∈ bundle, ∀ v, entry.2.Gives v → σ.Registers v

theorem Interpreter.OffersRegistered.mono {ip : Interpreter} (h : ip.OffersRegistered σ)
    (hkeeps : σ.KeepsPrimitives τ) : ip.OffersRegistered τ :=
  fun name bundle hbundle entry hentry v hv =>
    (h name bundle hbundle entry hentry v hv).mono hkeeps

/-- All primitives in the store were made. -/
structure Store.Accounted (σ : Store) : Prop where
  stamped : σ.Stamped
  values : σ.Over σ.Registers

/-- So they were in a store in which more primitives were made, and nothing else. -/
theorem Store.Accounted.made (h : σ.Accounted) (hmade : σ.StampsOnly τ) (hτ : τ.Stamped) :
    τ.Accounted where
  stamped := hτ
  values := (h.values.congr hmade.frames hmade.closures).mono fun _ hv => hv.mono hmade.primitives

/-- All primitives in the store and in what bundles give away were made. -/
structure Interpreter.Accounts (ip : Interpreter) (σ : Store) : Prop extends σ.Accounted where
  offers : ip.OffersRegistered σ

namespace Interpreter.Accounts

variable {ip : Interpreter}

/-- A store over the same primitives. -/
theorem withStore (h : ip.Accounts σ) (hprimitives : τ.primitives = σ.primitives)
    (hover : τ.Over σ.Registers) : ip.Accounts τ where
  stamped := h.stamped.congr hprimitives
  values := hover.mono fun _ hv => hv.mono (.of_eq hprimitives)
  offers := h.offers.mono (.of_eq hprimitives)

/-- A store in which more primitives were made, and nothing else. -/
theorem made (h : ip.Accounts σ) (hmade : σ.StampsOnly τ) (hτ : τ.Stamped) : ip.Accounts τ where
  toAccounted := h.toAccounted.made hmade hτ
  offers := h.offers.mono hmade.primitives

end Interpreter.Accounts

/-- Runs put no primitives together, and leave the table as it was or make more. -/
def Invariant.primitives (ip : Interpreter) : Invariant ip where
  state := ip.Accounts
  change := Store.KeepsPrimitives
  value := Store.Registers
  runs σ _ e := e.Over σ.Registers
  refl := .refl
  trans := .trans
  value_mono hchange hv := hv.mono hchange
  runs_mono hchange he := he.mono fun _ hv => hv.mono hchange
  operand he hmem := he.operand hmem
  nil := Store.registers_nil
  unspecified := Store.registers_unspecified
  literal he := he _ .literal
  quote he := he _ .quote
  lookup hσ _ hv := hσ.values.lookup hv
  assign {σ f x e v} hσ _ hv := by
    have hassigned := hσ.values.assign (f := f) (x := x) hv
    have hsame : (σ.assign f x v).2.primitives = σ.primitives := by
      rcases σ.assign_cases f x v with hsame | ⟨g, _, _, hdefine⟩
      · rw [hsame]
      · rw [hdefine]
        rfl
    exact ⟨hσ.withStore hsame hassigned, .of_eq hsame⟩
  define hσ _ hv := ⟨hσ.withStore rfl (hσ.values.define hv), .refl _⟩
  closure hσ he := by
    refine ⟨hσ.withStore rfl (hσ.values.addClosure (he.body List.mem_cons_self)), .refl _, ?_⟩
    exact Store.registers_closure _ _
  bundle {σ f name bundle body} hσ he hbundle := by
    have hmade := bundle.make_stampsOnly σ
    have hafter := hσ.made hmade (bundle.stamped_make hσ.stamped)
    have hentries : ∀ y w, (y, w) ∈ (bundle.make σ).1 → (bundle.make σ).2.Registers w :=
      fun _ _ => Store.registers_make hσ.values (hσ.offers name bundle hbundle)
    refine ⟨hafter.withStore rfl (hafter.values.addFrame hentries), hmade.primitives, ?_⟩
    exact (he.body List.mem_cons_self).mono fun _ hv => hv.mono hmade.primitives
  call {σ id c args} hσ _ hc hargs := by
    refine ⟨hσ.withStore rfl (hσ.values.addFrame ?_), .refl _, hσ.values.bodies id c hc⟩
    intro y w hmem
    rcases mem_bindArguments hmem with harg | rfl
    · exact hargs w harg
    · exact Store.registers_unspecified σ
  primitive {σ p args} hσ _ hargs := by
    have hsink := p.call_sinkOnly args σ
    have hsame : (p.call args σ).2.primitives = σ.primitives := by rw [hsink]
    have hover : (p.call args σ).2.Over σ.Registers :=
      hσ.values.congr (by rw [hsink]) (by rw [hsink])
    have hkeeps : σ.KeepsPrimitives (p.call args σ).2 := .of_eq hsame
    refine ⟨hσ.withStore hsame hover, hkeeps, ?_⟩
    intro v hv q hq
    -- primitives of the answer stood in the arguments; a call makes none
    obtain ⟨a, ha, hpart⟩ := Primitive.part_call hv rfl hq
    exact hkeeps.getElem? (hargs a ha q hpart)

end MiniLisp
