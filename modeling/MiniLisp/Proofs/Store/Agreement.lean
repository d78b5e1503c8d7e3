import MiniLisp.Proofs.Value.Holds

/-!
# Stores that agree on some frames

Two stores agree on a set of frames if they differ at most in the bindings of other frames.  Every
operation on a store gives the same answer in both, and leaves stores that agree, as long as it looks
names up in the set only.
-/

namespace MiniLisp

namespace Store

variable {σ τ : Store} {P : FrameId → Prop} {f : FrameId} {x : String} {v : Value}

/-- The stores differ at most in the bindings of frames outside `P`. -/
structure AgreesOn (σ τ : Store) (P : FrameId → Prop) : Prop where
  size : τ.frames.size = σ.frames.size
  parent : ∀ f, τ.parent? f = σ.parent? f
  bindings : ∀ f, P f → τ.localBindings f = σ.localBindings f
  closures : τ.closures = σ.closures
  primitives : τ.primitives = σ.primitives
  sink : τ.sink = σ.sink

namespace AgreesOn

/-! ## Looking names up -/

theorem chain (h : σ.AgreesOn τ P) (f : FrameId) : τ.chain f = σ.chain f :=
  chain_congr h.size h.parent f

theorem lookup? (h : σ.AgreesOn τ P) (hchain : ∀ g ∈ σ.chain f, P g) :
    τ.lookup? f x = σ.lookup? f x :=
  lookup?_congr (h.chain f) fun g hg => h.bindings g (hchain g hg)

theorem home? (h : σ.AgreesOn τ P) (hchain : ∀ g ∈ σ.chain f, P g) :
    τ.home? f x = σ.home? f x :=
  home?_congr (h.chain f) fun g hg => h.bindings g (hchain g hg)

/-! ## Changing the stores -/

theorem define (h : σ.AgreesOn τ P) (f : FrameId) (x : String) (v : Value) :
    (σ.define f x v).AgreesOn (τ.define f x v) P where
  size := by rw [size_define, size_define, h.size]
  parent g := by rw [parent?_define, parent?_define, h.parent g]
  bindings g hg := by
    by_cases hf : f < σ.frames.size
    · have hτ : f < τ.frames.size := h.size ▸ hf
      by_cases hfg : f = g
      · subst hfg
        rw [localBindings_define_self hf, localBindings_define_self hτ, h.bindings f hg]
      · rw [localBindings_define_ne hfg, localBindings_define_ne hfg, h.bindings g hg]
    · have hσ : σ.frames.size ≤ f := Nat.le_of_not_lt hf
      rw [define_of_size_le hσ, define_of_size_le (h.size ▸ hσ), h.bindings g hg]
  closures := h.closures
  primitives := h.primitives
  sink := h.sink

theorem assign (h : σ.AgreesOn τ P) (hchain : ∀ g ∈ σ.chain f, P g) (x : String) (v : Value) :
    (σ.assign f x v).2.AgreesOn (τ.assign f x v).2 P := by
  unfold Store.assign
  rw [h.home? hchain]
  cases σ.home? f x with
  | none => exact h
  | some g => exact h.define g x v

theorem addFrame (h : σ.AgreesOn τ P) (parent : Option FrameId) (entries : List (String × Value)) :
    (σ.addFrame parent entries).2.AgreesOn (τ.addFrame parent entries).2 P where
  size := by rw [size_addFrame, size_addFrame, h.size]
  parent g := by rw [parent?_addFrame, parent?_addFrame, h.size, h.parent g]
  bindings g hg := by
    rw [localBindings_addFrame, localBindings_addFrame, h.size, h.bindings g hg]
  closures := h.closures
  primitives := h.primitives
  sink := h.sink

theorem addClosure (h : σ.AgreesOn τ P) (c : Closure) :
    (σ.addClosure c).2.AgreesOn (τ.addClosure c).2 P :=
  { h with
    bindings := h.bindings
    closures := by
      show τ.closures.push c = σ.closures.push c
      rw [h.closures] }

/-! ## Imports -/

mutual

/-- A value is made in the same way in both stores if the scopes in which it is looked up agree. -/
theorem make {σ τ : Store} (h : σ.AgreesOn τ P) (b : Blueprint)
    (hreads : ∀ f, b.Reads f → ∀ x, τ.lookup? f x = σ.lookup? f x) :
    (b.make τ).1 = (b.make σ).1 ∧ (b.make σ).2.AgreesOn (b.make τ).2 P := by
  cases b with
  | value v => exact ⟨rfl, h⟩
  | bound f name =>
    refine ⟨?_, h⟩
    rw [Blueprint.make, Blueprint.make, hreads f (.bound name) name]
  | primitive name arity operation =>
    have hstamp : τ.primitives.size = σ.primitives.size := congrArg Array.size h.primitives
    refine ⟨?_, { h with bindings := h.bindings, primitives := ?_ }⟩
    · show Value.primitive ⟨τ.primitives.size, name, arity, operation⟩ = _
      rw [hstamp]
      rfl
    · show τ.primitives.push ⟨τ.primitives.size, name, arity, operation⟩ =
        σ.primitives.push ⟨σ.primitives.size, name, arity, operation⟩
      rw [hstamp, h.primitives]
  | list items =>
    obtain ⟨hvalues, hstores⟩ := makeItems h items fun b hb f hf => hreads f (.item hb hf)
    refine ⟨?_, hstores⟩
    show Value.list (Blueprint.makeItems τ items).1 = Value.list (Blueprint.makeItems σ items).1
    rw [hvalues]

theorem makeItems {σ τ : Store} (h : σ.AgreesOn τ P) (bs : List Blueprint)
    (hreads : ∀ b ∈ bs, ∀ f, b.Reads f → ∀ x, τ.lookup? f x = σ.lookup? f x) :
    (Blueprint.makeItems τ bs).1 = (Blueprint.makeItems σ bs).1 ∧
      (Blueprint.makeItems σ bs).2.AgreesOn (Blueprint.makeItems τ bs).2 P := by
  cases bs with
  | nil => exact ⟨rfl, h⟩
  | cons b bs =>
    obtain ⟨hvalue, hstore⟩ := make h b (hreads b List.mem_cons_self)
    obtain ⟨hvalues, hstores⟩ := makeItems hstore bs fun b' hb' f hf x => by
      rw [lookup?_of_frames (b.make_stampsOnly τ).frames, lookup?_of_frames (b.make_stampsOnly σ).frames]
      exact hreads b' (List.mem_cons_of_mem b hb') f hf x
    refine ⟨?_, hstores⟩
    show (b.make τ).1 :: _ = (b.make σ).1 :: _
    rw [hvalue, hvalues]

end

theorem makeBundle (h : σ.AgreesOn τ P) (bundle : Bundle)
    (hreads : ∀ entry ∈ bundle, ∀ f, entry.2.Reads f → ∀ x, τ.lookup? f x = σ.lookup? f x) :
    (bundle.make τ).1 = (bundle.make σ).1 ∧ (bundle.make σ).2.AgreesOn (bundle.make τ).2 P := by
  induction bundle generalizing σ τ with
  | nil => exact ⟨rfl, h⟩
  | cons entry rest ih =>
    obtain ⟨name, b⟩ := entry
    obtain ⟨hvalue, hstore⟩ := h.make b (hreads (name, b) List.mem_cons_self)
    obtain ⟨hvalues, hstores⟩ := ih hstore fun entry hentry f hf x => by
      rw [lookup?_of_frames (b.make_stampsOnly τ).frames, lookup?_of_frames (b.make_stampsOnly σ).frames]
      exact hreads entry (List.mem_cons_of_mem _ hentry) f hf x
    refine ⟨?_, hstores⟩
    show (name, (b.make τ).1) :: _ = (name, (b.make σ).1) :: _
    rw [hvalue, hvalues]

/-! ## Primitives -/

theorem call (h : σ.AgreesOn τ P) (p : Primitive) (args : List Value) :
    (p.call args τ).1 = (p.call args σ).1 ∧ (p.call args σ).2.AgreesOn (p.call args τ).2 P := by
  rcases p.call_cases args with ⟨r, hcall, _⟩ | ⟨v, hcall⟩
  · rw [hcall]
    exact ⟨rfl, h⟩
  · rw [hcall]
    unfold logValue
    dsimp only
    rw [h.sink]
    split
    · exact ⟨rfl, { h with bindings := h.bindings, sink := rfl }⟩
    · exact ⟨rfl, { h with bindings := h.bindings, sink := rfl }⟩

end AgreesOn

end Store

end MiniLisp
