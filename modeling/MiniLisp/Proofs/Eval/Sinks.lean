import MiniLisp.Proofs.Eval.Lockstep
import MiniLisp.Proofs.Store.Sink

/-!
# Runs on two sinks

Only output touches the sink of a store, so two runs that start in stores with different sinks do the
same until a write fails.  `Lockstep.onSinks` compares them by how the two sinks are related.
-/

namespace MiniLisp

namespace Store

/-- The same store with another sink. -/
def onSink (σ : Store) (sink : Sink) : Store := { σ with sink := sink }

variable {σ : Store} {sink : Sink}

/-! ## Steps that do not touch the sink -/

theorem frames_onSink : (σ.onSink sink).frames = σ.frames := rfl

theorem lookup?_onSink (f : FrameId) (x : String) : (σ.onSink sink).lookup? f x = σ.lookup? f x :=
  lookup?_of_frames frames_onSink f x

theorem chain_onSink (f : FrameId) : (σ.onSink sink).chain f = σ.chain f := by
  have hparent : ∀ g, (σ.onSink sink).parent? g = σ.parent? g := fun _ => rfl
  exact chain_congr (by rw [frames_onSink]) hparent f

theorem allBindings_onSink (f : FrameId) : (σ.onSink sink).allBindings f = σ.allBindings f := by
  unfold allBindings
  rw [chain_onSink]
  rfl

theorem assign_onSink (f : FrameId) (x : String) (v : Value) :
    ((σ.onSink sink).assign f x v).2 = (σ.assign f x v).2.onSink sink := by
  have hhome : (σ.onSink sink).home? f x = σ.home? f x := home?_congr (chain_onSink f) fun _ _ => rfl
  unfold assign
  rw [hhome]
  cases σ.home? f x <;> rfl

end Store

mutual

theorem Blueprint.make_onSink (σ : Store) (sink : Sink) (b : Blueprint) :
    b.make (σ.onSink sink) = ((b.make σ).1, (b.make σ).2.onSink sink) := by
  cases b with
  | value v => rfl
  | bound f name =>
    rw [Blueprint.make, Blueprint.make, Store.lookup?_onSink]
  | primitive name arity operation => rfl
  | list items =>
    rw [Blueprint.make, Blueprint.make, Blueprint.makeItems_onSink σ sink items]

theorem Blueprint.makeItems_onSink (σ : Store) (sink : Sink) (bs : List Blueprint) :
    Blueprint.makeItems (σ.onSink sink) bs =
      ((Blueprint.makeItems σ bs).1, (Blueprint.makeItems σ bs).2.onSink sink) := by
  cases bs with
  | nil => rfl
  | cons b bs =>
    rw [Blueprint.makeItems, Blueprint.makeItems, Blueprint.make_onSink σ sink b]
    dsimp only
    rw [Blueprint.makeItems_onSink (b.make σ).2 sink bs]

end

theorem Bundle.make_onSink (σ : Store) (sink : Sink) (bundle : Bundle) :
    bundle.make (σ.onSink sink) = ((bundle.make σ).1, (bundle.make σ).2.onSink sink) := by
  induction bundle generalizing σ with
  | nil => rfl
  | cons entry rest ih =>
    obtain ⟨name, b⟩ := entry
    rw [Bundle.make, Bundle.make, b.make_onSink σ sink]
    dsimp only
    rw [ih (b.make σ).2]

/-! ## Output -/

theorem logValue_of_unbroken {σ : Store} {v : Value} (h : (σ.sink.writeLine v).broken = none) :
    logValue v σ = (.ok .unspecified, σ.onSink (σ.sink.writeLine v)) := by
  unfold logValue
  dsimp only
  rw [h]
  rfl

theorem logValue_of_broken {σ : Store} {v : Value} (h : (σ.sink.writeLine v).broken ≠ none) :
    logValue v σ = (.error (.outputFailed Sink.refusal), σ.onSink (σ.sink.writeLine v)) := by
  obtain ⟨torn, htorn⟩ := Option.ne_none_iff_exists'.mp h
  unfold logValue
  dsimp only
  rw [htorn]
  rfl

/-! ## Runs -/

/-- Runs keep a sink that takes everything as it is. -/
def StepOrder.unfailing : StepOrder :=
  .ofSink (fun a b => a.Unfailing → b.Unfailing) (fun _ h => h) (fun hfirst hrest h => hrest (hfirst h))
    fun _ v h => h.writeLine v

/-- How two sinks that are written to in the same way are related: `rel` as long as no write failed,
and `stopped` once a write failed on the first sink. -/
structure Sink.Comparison where
  rel : Sink → Sink → Prop
  stopped : Sink → Sink → Prop
  write : ∀ {a b} v, rel a b →
    (rel (a.writeLine v) (b.writeLine v) ∧ (a.writeLine v).broken = none ∧
      (b.writeLine v).broken = none) ∨
    stopped (a.writeLine v) (b.writeLine v) ∧ (a.writeLine v).broken ≠ none
  write_stopped : ∀ {a b} v, stopped a b → stopped a (b.writeLine v)

/-- Two sinks on which the same was written since. -/
def Sink.Comparison.beside {left right : Sink} (hleft : left.Unfailing) (hright : right.Unfailing) :
    Sink.Comparison where
  rel a b := ∃ more, a = left.put more ∧ b = right.put more
  stopped _ _ := False
  write := by
    rintro a b v ⟨more, rfl, rfl⟩
    refine .inl ⟨?_, ((hleft.put more).writeLine v).unbroken, ((hright.put more).writeLine v).unbroken⟩
    refine Sink.writeLine_rel (fun a b => ∃ more, a = left.put more ∧ b = right.put more) ?_ ⟨more, rfl, rfl⟩ v
    rintro _ _ piece ⟨more, rfl, rfl⟩
    exact ⟨more ++ piece, hleft.put_put more piece, hright.put_put more piece⟩
  write_stopped _ h := h

/-- Runs from two stores that differ in their sinks only. -/
def Lockstep.onSinks (ip : Interpreter) (C : Sink.Comparison) :
    Lockstep (StepOrder.trivial.invariant ip) ip 0 where
  rel σ τ := ∃ sink, C.rel σ.sink sink ∧ τ = σ.onSink sink
  stopped e σ τ := e = .outputFailed Sink.refusal ∧ σ.sink.broken ≠ none ∧ C.stopped σ.sink τ.sink
  order := .ofSink (fun b b' => ∀ a, C.stopped a b → C.stopped a b') (fun _ _ h => h)
    (fun hfirst hsecond a h => hsecond a (hfirst a h)) fun _ v _ h => C.write_stopped v h
  stopped_mono hstopped hwritten := ⟨hstopped.1, hstopped.2.1, hwritten _ hstopped.2.2⟩
  stop := by
    intro σ τ scope e levels hlevels hrel
    obtain rfl : levels = 0 := Nat.le_zero.mp hlevels
    exact .inl ⟨rfl, hrel⟩
  closures := by
    rintro σ _ ⟨sink, _, rfl⟩
    rfl
  lookup := by
    rintro σ _ scope x _ _ ⟨sink, _, rfl⟩
    exact Store.lookup?_onSink scope x
  assign := by
    rintro σ _ scope x e v _ _ _ ⟨sink, hrel, rfl⟩
    refine ⟨sink, ?_, Store.assign_onSink scope x v⟩
    rcases σ.assign_cases scope x v with hsame | ⟨g, _, _, hdefine⟩
    · rwa [hsame]
    · rwa [hdefine]
  define := by
    rintro σ _ scope x e v _ _ _ ⟨sink, hrel, rfl⟩
    exact ⟨sink, hrel, rfl⟩
  closure := by
    rintro σ _ scope parameters body _ _ ⟨sink, hrel, rfl⟩
    exact ⟨sink, hrel, rfl⟩
  bundle := by
    rintro σ _ scope name body _ _ ⟨sink, hrel, rfl⟩
    unfold openBundle
    cases hbundle : ip.bundles name with
    | none => exact ⟨rfl, sink, hrel, rfl⟩
    | some bundle =>
      dsimp only
      rw [bundle.make_onSink σ sink]
      refine ⟨?_, sink, ?_, rfl⟩
      · rfl
      · show C.rel (bundle.make σ).2.sink sink
        rwa [(bundle.make_stampsOnly σ).sink]
  call := by
    rintro σ _ id c args _ _ _ _ ⟨sink, hrel, rfl⟩
    exact ⟨rfl, sink, hrel, rfl⟩
  primitive := by
    rintro σ _ p args _ _ _ ⟨sink, hrel, rfl⟩
    -- only `log` writes; all other calls leave the sinks alone
    rcases p.call_cases args with ⟨r, hcall, _⟩ | ⟨v, hcall⟩
    · rw [hcall]
      exact .inl ⟨rfl, sink, hrel, rfl⟩
    · rw [hcall]
      rcases C.write v hrel with ⟨hwritten, hleft, hright⟩ | ⟨hstopped, hleft⟩
      · rw [logValue_of_unbroken hleft, logValue_of_unbroken hright]
        exact .inl ⟨rfl, sink.writeLine v, hwritten, rfl⟩
      · rw [logValue_of_broken hleft]
        refine .inr ⟨_, rfl, rfl, hleft, ?_⟩
        rw [sink_logValue]
        exact hstopped

end MiniLisp
