import MiniLisp.Proofs.Eval.Invariant

/-!
# Kinds of values

A kind of values is closed if no step of a run leads out of it: it has the values that runs make on
their own, primitives of the kind answer with values of the kind, and so do bundles.  Runs of expressions
over a closed kind then go on with stores over the kind and give values of the kind
(`Invariant.values`).
-/

namespace MiniLisp

/-- All bound values are of the kind. -/
def Store.BindsOnly (kind : Value → Prop) (σ : Store) : Prop := ∀ f x v, σ.Binds f x v → kind v

/-- All bound values are of the kind, and so are all values in the bodies of functions. -/
structure Store.Over (kind : Value → Prop) (σ : Store) : Prop where
  bound : ∀ f x v, σ.Binds f x v → kind v
  bodies : ∀ (id : ClosureId) (c : Closure), σ.closures[id]? = some c → c.body.Over kind

/-- No step of a run leads out of the kind. -/
structure Interpreter.Closed (ip : Interpreter) (kind : Value → Prop) : Prop where
  nil : kind .nil
  unspecified : kind .unspecified
  closure : ∀ id, kind (.closure id)
  answer : ∀ {p : Primitive} {args σ v}, kind (.primitive p) → (∀ a ∈ args, kind a) →
    (p.call args σ).1 = .ok v → kind v
  offer : ∀ {name bundle}, ip.bundles name = some bundle → ∀ entry ∈ bundle, ∀ σ : Store,
    σ.Over kind → kind (entry.2.make σ).1

variable {ip : Interpreter} {kind : Value → Prop} {σ τ : Store} {f : FrameId} {x : String} {v : Value}

namespace Store.BindsOnly

theorem congr (h : σ.BindsOnly kind) (hframes : τ.frames = σ.frames) : τ.BindsOnly kind := by
  obtain ⟨frames, closures, stamp, sink⟩ := τ
  obtain rfl : frames = σ.frames := hframes
  exact h

theorem lookup (h : σ.BindsOnly kind) (hv : σ.lookup? f x = some v) : kind v := by
  obtain ⟨g, _, hbinds⟩ := Store.exists_binds_of_lookup? hv
  exact h g x v hbinds

theorem define (h : σ.BindsOnly kind) (hv : kind v) : (σ.define f x v).BindsOnly kind := by
  intro g y w hw
  rcases hw.of_define with ⟨_, _, rfl⟩ | hw
  · exact hv
  · exact h g y w hw

theorem assign (h : σ.BindsOnly kind) (hv : kind v) : (σ.assign f x v).2.BindsOnly kind := by
  rcases σ.assign_cases f x v with hsame | ⟨g, _, _, hdefine⟩
  · rw [hsame]
    exact h
  · rw [hdefine]
    exact h.define hv

theorem addFrame {parent : Option FrameId} {entries : List (String × Value)} (h : σ.BindsOnly kind)
    (hentries : ∀ y w, (y, w) ∈ entries → kind w) : (σ.addFrame parent entries).2.BindsOnly kind := by
  intro g y w hw
  rcases hw.of_addFrame with hmem | hw
  · exact hentries y w hmem
  · exact h g y w hw

end Store.BindsOnly

namespace Store.Over

theorem mono {kind' : Value → Prop} (h : σ.Over kind) (hkinds : ∀ v, kind v → kind' v) :
    σ.Over kind' where
  bound f x v hv := hkinds v (h.bound f x v hv)
  bodies id c hc := (h.bodies id c hc).mono hkinds

theorem congr (h : σ.Over kind) (hframes : τ.frames = σ.frames) (hclosures : τ.closures = σ.closures) :
    τ.Over kind where
  bound := Store.BindsOnly.congr h.bound hframes
  bodies := by
    rw [hclosures]
    exact h.bodies

theorem lookup (h : σ.Over kind) (hv : σ.lookup? f x = some v) : kind v :=
  Store.BindsOnly.lookup h.bound hv

theorem define (h : σ.Over kind) (hv : kind v) : (σ.define f x v).Over kind where
  bound := Store.BindsOnly.define h.bound hv
  bodies := h.bodies

theorem assign (h : σ.Over kind) (hv : kind v) : (σ.assign f x v).2.Over kind := by
  rcases σ.assign_cases f x v with hsame | ⟨g, _, _, hdefine⟩
  · rw [hsame]
    exact h
  · rw [hdefine]
    exact h.define hv

theorem addFrame {parent : Option FrameId} {entries : List (String × Value)} (h : σ.Over kind)
    (hentries : ∀ y w, (y, w) ∈ entries → kind w) : (σ.addFrame parent entries).2.Over kind where
  bound := Store.BindsOnly.addFrame h.bound hentries
  bodies := h.bodies

theorem addClosure {c : Closure} (h : σ.Over kind) (hbody : c.body.Over kind) :
    (σ.addClosure c).2.Over kind where
  bound := h.bound
  bodies id d hd := by
    rcases Store.closure_of_addClosure hd with rfl | hd
    · exact hbody
    · exact h.bodies id d hd

/-- A bundle of which every value is of the kind is made of values of the kind. -/
theorem makeBundle {bundle : Bundle} (h : σ.Over kind)
    (hbundle : ∀ entry ∈ bundle, ∀ σ : Store, σ.Over kind → kind (entry.2.make σ).1) :
    ∀ y w, (y, w) ∈ (bundle.make σ).1 → kind w := by
  induction bundle generalizing σ with
  | nil => exact fun _ _ => nofun
  | cons entry rest ih =>
    obtain ⟨name, b⟩ := entry
    intro y w hmem
    have hstamps := b.make_stampsOnly σ
    rcases List.mem_cons.mp hmem with heq | hmem
    · obtain rfl : w = (b.make σ).1 := (Prod.ext_iff.mp heq).2
      exact hbundle (name, b) List.mem_cons_self σ h
    · exact ih (h.congr hstamps.frames hstamps.closures)
        (fun entry hentry => hbundle entry (List.mem_cons_of_mem _ hentry)) y w hmem

end Store.Over

/-- Runs over a closed kind of values do not leave it. -/
def Invariant.values (hclosed : ip.Closed kind) : Invariant ip where
  state σ := σ.Over kind
  change _ _ := True
  value _ v := kind v
  runs _ _ e := e.Over kind
  refl _ := ⟨⟩
  trans _ _ := ⟨⟩
  value_mono _ h := h
  runs_mono _ h := h
  operand h hmem := h.operand hmem
  nil _ := hclosed.nil
  unspecified _ := hclosed.unspecified
  literal h := h _ .literal
  quote h := h _ .quote
  lookup hσ _ hv := hσ.lookup hv
  assign hσ _ hv := ⟨hσ.assign hv, ⟨⟩⟩
  define hσ _ hv := ⟨hσ.define hv, ⟨⟩⟩
  closure hσ h := ⟨hσ.addClosure (h.body List.mem_cons_self), ⟨⟩, hclosed.closure _⟩
  bundle {σ scope name bundle body} hσ h hbundle := by
    have hstamps := bundle.make_stampsOnly σ
    have hmade := hσ.congr hstamps.frames hstamps.closures
    exact ⟨hmade.addFrame (hσ.makeBundle (hclosed.offer hbundle)), ⟨⟩, h.body List.mem_cons_self⟩
  call {σ id c args} hσ _ hc hargs := by
    refine ⟨hσ.addFrame ?_, ⟨⟩, hσ.bodies id c hc⟩
    intro y w hmem
    rcases mem_bindArguments hmem with harg | rfl
    · exact hargs w harg
    · exact hclosed.unspecified
  primitive {σ p args} hσ hp hargs := by
    have hsink := p.call_sinkOnly args σ
    have hanswered : (p.call args σ).2.Over kind := hσ.congr (by rw [hsink]) (by rw [hsink])
    exact ⟨hanswered, ⟨⟩, fun v hv => hclosed.answer hp hargs hv⟩

end MiniLisp
