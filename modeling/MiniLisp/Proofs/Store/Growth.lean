import MiniLisp.Proofs.Eval.Invariant
import MiniLisp.Proofs.Store.Search

/-!
# Stores that only grow

A run that assigns nothing and defines nothing leaves all frames, closures and primitives as they are and
at most makes others (`Store.Retains`); if it writes no output either, the sink is the same
(`Store.OnlyMakes`).  Names then stay bound to what they were bound to, and primitives do not tell the
two stores apart.
-/

namespace MiniLisp

namespace Store

variable {σ τ υ : Store} {f home : FrameId} {x : String} {v : Value}

/-- Everything that was made in the first store is in the second one as it was. -/
structure Retains (σ τ : Store) : Prop where
  frames : ∀ f < σ.frames.size, τ.frames[f]? = σ.frames[f]?
  closures : ∀ (id : ClosureId) (c : Closure), σ.closures[id]? = some c → τ.closures[id]? = some c
  primitives : σ.KeepsPrimitives τ

/-- The second store is the first one with what was made since. -/
structure OnlyMakes (σ τ : Store) : Prop extends σ.Retains τ where
  sink : τ.sink = σ.sink

/-! ## Stores one after the other -/

theorem Retains.lt_size (h : σ.Retains τ) (hf : f < σ.frames.size) : f < τ.frames.size := by
  have hframe := h.frames f hf
  rw [Array.getElem?_eq_getElem hf] at hframe
  exact (Array.getElem?_eq_some_iff.mp hframe).1

theorem Retains.trans (hfirst : σ.Retains τ) (hrest : τ.Retains υ) : σ.Retains υ where
  frames f hf := (hrest.frames f (hfirst.lt_size hf)).trans (hfirst.frames f hf)
  closures id c h := hrest.closures id c (hfirst.closures id c h)
  primitives := hfirst.primitives.trans hrest.primitives

/-- What a store holds besides its sink is retained by a change of the sink. -/
theorem retains_of_sink (sink : Sink) : σ.Retains { σ with sink := sink } :=
  ⟨fun _ _ => rfl, fun _ _ h => h, .refl σ⟩

namespace OnlyMakes

theorem refl (σ : Store) : σ.OnlyMakes σ := ⟨retains_of_sink σ.sink, rfl⟩

theorem trans (hfirst : σ.OnlyMakes τ) (hrest : τ.OnlyMakes υ) : σ.OnlyMakes υ :=
  ⟨hfirst.toRetains.trans hrest.toRetains, hrest.sink.trans hfirst.sink⟩

theorem addFrame (σ : Store) (parent : Option FrameId) (entries : List (String × Value)) :
    σ.OnlyMakes (σ.addFrame parent entries).2 :=
  ⟨⟨fun _ hf => frames_addFrame_of_lt hf, fun _ _ h => h, .refl σ⟩, rfl⟩

theorem withSink (h : σ.OnlyMakes τ) (sink : Sink) :
    { σ with sink := sink }.OnlyMakes { τ with sink := sink } :=
  ⟨⟨h.frames, h.closures, h.primitives⟩, rfl⟩

end OnlyMakes

/-! ## Looking names up -/

theorem lt_size_of_lookup? (h : σ.lookup? f x = some v) : f < σ.frames.size := by
  refine Nat.lt_of_not_le fun hf => ?_
  rw [lookup?, chain_of_size_le hf] at h
  cases h

namespace Retains

theorem chain (h : σ.Retains τ) (hf : f < σ.frames.size) : τ.chain f = σ.chain f := by
  induction f using Nat.strongRecOn with
  | ind f ih =>
    rw [chain_eq, chain_eq, if_pos hf, if_pos (h.lt_size hf), parent?_congr (h.frames f hf)]
    cases σ.parent? f with
    | none => rfl
    | some p =>
      dsimp only
      by_cases hlt : p < f
      · rw [ih p hlt (Nat.lt_trans hlt hf)]
      · rw [if_neg hlt, if_neg hlt]

theorem lookup? (h : σ.Retains τ) (hv : σ.lookup? f x = some v) : τ.lookup? f x = some v := by
  have hf := lt_size_of_lookup? hv
  rw [← hv]
  refine lookup?_congr (h.chain hf) fun g hg => localBindings_congr (h.frames g ?_)
  exact Nat.lt_of_le_of_lt ((σ.chain_descending f).2 g hg) hf

end Retains

/-- In a new frame a name is bound to its entry, and otherwise to what it is bound to around the frame. -/
theorem lookup?_addFrame (hhome : home < σ.frames.size) (entries : List (String × Value)) (x : String) :
    (σ.addFrame (some home) entries).2.lookup? σ.frames.size x =
      ((Bindings.ofList entries).get? x).or (σ.lookup? home x) := by
  have hsame := (OnlyMakes.addFrame σ (some home) entries).chain hhome
  have hchain : (σ.addFrame (some home) entries).2.chain σ.frames.size =
      σ.frames.size :: σ.chain home := by
    rw [chain_eq, if_pos (by simp), parent?_addFrame, if_pos rfl]
    exact congrArg (σ.frames.size :: ·) ((if_pos hhome).trans hsame)
  have hout : ∀ g ∈ σ.chain home,
      (σ.addFrame (some home) entries).2.localBindings g = σ.localBindings g := by
    intro g hg
    refine localBindings_congr (frames_addFrame_of_lt ?_)
    exact Nat.lt_of_le_of_lt ((σ.chain_descending home).2 g hg) hhome
  have hrest := lookup?_congr (x := x) hsame hout
  rw [Store.lookup?, hsame] at hrest
  rw [Store.lookup?, hchain, List.findSome?_cons, localBindings_addFrame, if_pos rfl]
  cases (Bindings.ofList entries).get? x with
  | some v => rfl
  | none => exact hrest

end Store

/-! ## Calls of primitives -/

variable {σ τ : Store}

/-- A primitive gives the same answer in a store where more was made, and writes the same. -/
theorem Primitive.call_onlyMakes (h : σ.OnlyMakes τ) (p : Primitive) (args : List Value) :
    (p.call args τ).1 = (p.call args σ).1 ∧ (p.call args σ).2.OnlyMakes (p.call args τ).2 := by
  rcases p.call_cases args with ⟨r, hcall, _⟩ | ⟨v, hcall⟩
  · rw [hcall]
    exact ⟨rfl, h⟩
  · rw [hcall]
    unfold logValue
    dsimp only
    rw [h.sink]
    split
    · exact ⟨rfl, h.withSink _⟩
    · exact ⟨rfl, h.withSink _⟩

/-- So do calls one after the other, each with the answer of the one before. -/
theorem Primitive.foldlM_onlyMakes (p : Primitive) (items : List Value) (acc : Value)
    (h : σ.OnlyMakes τ) :
    let fold := items.foldlM (fun a x => p.call [a, x]) acc
    (fold τ).1 = (fold σ).1 ∧ (fold σ).2.OnlyMakes (fold τ).2 := by
  dsimp only
  induction items generalizing acc σ τ with
  | nil => exact ⟨rfl, h⟩
  | cons x items ih =>
    rw [List.foldlM_cons, Action.bind_apply, Action.bind_apply]
    obtain ⟨hresult, hstore⟩ := p.call_onlyMakes h [acc, x]
    generalize p.call [acc, x] σ = first at hresult hstore ⊢
    generalize p.call [acc, x] τ = second at hresult hstore ⊢
    obtain ⟨result, σ'⟩ := first
    obtain ⟨result', τ'⟩ := second
    obtain rfl : result' = result := hresult
    cases result' with
    | ok a => exact ih a hstore
    | error e => exact ⟨rfl, hstore⟩

theorem Primitive.call_retains (p : Primitive) (args : List Value) (σ : Store) :
    σ.Retains (p.call args σ).2 := by
  rw [p.call_sinkOnly]
  exact Store.retains_of_sink _

end MiniLisp
