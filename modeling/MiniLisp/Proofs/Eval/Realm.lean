import MiniLisp.Proofs.Eval.Reach

/-!
# The realm of a run

A realm names the frames and closures of a store that a run may get at, and the names that it may
define and assign there.  What the run makes itself comes to the realm.  If everything that the realm
leads to lies in it (`Realm.Closed`), then this stays so along the run, which changes nothing outside
the realm and inside only what it may (`Realm.Change`).  All of this is one invariant of runs,
`Realm.invariant`.
-/

namespace MiniLisp

/-- What a run may get at and change among the frames and closures that were there before it. -/
structure Realm where
  /-- The number of frames before the run. -/
  frameCount : Nat
  /-- The number of closures before the run. -/
  closureCount : Nat
  frames : FrameId → Prop
  closures : ClosureId → Prop
  /-- The frame in which the run may define names. -/
  scope : FrameId
  /-- The names that it may define there. -/
  defined : String → Prop
  /-- The names that it may assign where they are bound. -/
  assigned : String → Prop

namespace Realm

variable {R : Realm} {σ τ υ : Store} {f g p : FrameId} {id : ClosureId} {x : String} {v : Value}
variable {e : Expr}

/-! ## Ownership -/

/-- A frame of the realm, or one that was made during the run. -/
def OwnsFrame (R : Realm) (σ : Store) (f : FrameId) : Prop :=
  R.frames f ∨ R.frameCount ≤ f ∧ f < σ.frames.size

/-- A closure of the realm, or one that was made during the run. -/
def OwnsClosure (R : Realm) (σ : Store) (id : ClosureId) : Prop :=
  R.closures id ∨ R.closureCount ≤ id ∧ id < σ.closures.size

/-- A value that holds closures of the realm only. -/
def OwnsValue (R : Realm) (σ : Store) (v : Value) : Prop :=
  ∀ id, v.Holds id → R.OwnsClosure σ id

/-- An expression with closures and assignments of the realm only. -/
structure OwnsCode (R : Realm) (σ : Store) (e : Expr) : Prop where
  holds : ∀ id, e.Holds id → R.OwnsClosure σ id
  assigns : ∀ x, e.Assigns x → R.assigned x

theorem OwnsFrame.mono (hsize : σ.frames.size ≤ τ.frames.size) (h : R.OwnsFrame σ f) :
    R.OwnsFrame τ f :=
  h.imp_right fun hmade => ⟨hmade.1, Nat.lt_of_lt_of_le hmade.2 hsize⟩

theorem OwnsClosure.mono (hsize : σ.closures.size ≤ τ.closures.size) (h : R.OwnsClosure σ id) :
    R.OwnsClosure τ id :=
  h.imp_right fun hmade => ⟨hmade.1, Nat.lt_of_lt_of_le hmade.2 hsize⟩

theorem OwnsValue.mono (hsize : σ.closures.size ≤ τ.closures.size) (h : R.OwnsValue σ v) :
    R.OwnsValue τ v :=
  fun id hid => (h id hid).mono hsize

theorem OwnsCode.mono (hsize : σ.closures.size ≤ τ.closures.size) (h : R.OwnsCode σ e) :
    R.OwnsCode τ e :=
  ⟨fun id hid => (h.holds id hid).mono hsize, h.assigns⟩

theorem OwnsCode.operand {e' : Expr} (h : R.OwnsCode σ e) (hmem : e' ∈ e.operands) :
    R.OwnsCode σ e' :=
  ⟨fun id hid => h.holds id (.operand hmem hid), fun x hx => h.assigns x (.operand hmem hx)⟩

theorem OwnsCode.body {e' : Expr} (h : R.OwnsCode σ e) (hmem : e' ∈ e.bodies) : R.OwnsCode σ e' :=
  ⟨fun id hid => h.holds id (.body hmem hid), fun x hx => h.assigns x (.body hmem hx)⟩

/-! ## Changes -/

/-- A change of the store that a run in the realm may make. -/
structure Change (R : Realm) (σ τ : Store) : Prop where
  frames_size : σ.frames.size ≤ τ.frames.size
  closures_size : σ.closures.size ≤ τ.closures.size
  /-- Frames outside the realm stay as they were. -/
  outside : ∀ f < R.frameCount, ¬ R.frames f → τ.frames[f]? = σ.frames[f]?
  parent : ∀ f < R.frameCount, τ.parent? f = σ.parent? f
  /-- No binding is removed. -/
  kept : ∀ f < R.frameCount, ∀ x v, σ.Binds f x v → ∃ w, τ.Binds f x w
  /-- A binding changes only by a definition or an assignment of the realm. -/
  written : ∀ f < R.frameCount, ∀ x,
    (τ.localBindings f).get? x ≠ (σ.localBindings f).get? x →
      (f = R.scope ∧ R.defined x) ∨ ((∃ v, σ.Binds f x v) ∧ R.assigned x)

namespace Change

theorem refl (σ : Store) : R.Change σ σ where
  frames_size := Nat.le_refl _
  closures_size := Nat.le_refl _
  outside _ _ _ := rfl
  parent _ _ := rfl
  kept _ _ _ v h := ⟨v, h⟩
  written _ _ _ hne := absurd rfl hne

theorem trans (hfirst : R.Change σ τ) (hrest : R.Change τ υ) : R.Change σ υ where
  frames_size := Nat.le_trans hfirst.frames_size hrest.frames_size
  closures_size := Nat.le_trans hfirst.closures_size hrest.closures_size
  outside f hf hout := (hrest.outside f hf hout).trans (hfirst.outside f hf hout)
  parent f hf := (hrest.parent f hf).trans (hfirst.parent f hf)
  kept f hf x v h := by
    obtain ⟨w, hw⟩ := hfirst.kept f hf x v h
    exact hrest.kept f hf x w hw
  written f hf x hne := by
    by_cases hsame : (τ.localBindings f).get? x = (σ.localBindings f).get? x
    · rw [← hsame] at hne
      refine (hrest.written f hf x hne).imp_right ?_
      rintro ⟨⟨v, hv⟩, hassigned⟩
      exact ⟨⟨v, hsame.symm.trans hv⟩, hassigned⟩
    · exact hfirst.written f hf x hsame

/-- Old frames that stay as they are allow for every other change. -/
theorem of_frames (hframes : σ.frames.size ≤ τ.frames.size)
    (hclosures : σ.closures.size ≤ τ.closures.size)
    (h : ∀ f < R.frameCount, τ.frames[f]? = σ.frames[f]?) : R.Change σ τ where
  frames_size := hframes
  closures_size := hclosures
  outside f hf _ := h f hf
  parent f hf := Store.parent?_congr (h f hf)
  kept f hf x v hv := by
    refine ⟨v, ?_⟩
    unfold Store.Binds
    rw [Store.localBindings_congr (h f hf)]
    exact hv
  written f hf x hne := absurd (by rw [Store.localBindings_congr (h f hf)]) hne

/-- A name may be given a value in a frame of the realm if it may be defined or assigned there. -/
theorem define (hg : R.OwnsFrame σ g)
    (hallowed : g < R.frameCount →
      (g = R.scope ∧ R.defined x) ∨ ((∃ w, σ.Binds g x w) ∧ R.assigned x)) :
    R.Change σ (σ.define g x v) where
  frames_size := Nat.le_of_eq Store.size_define.symm
  closures_size := Nat.le_refl _
  outside f hf hout := by
    have hne : g ≠ f := by
      rintro rfl
      rcases hg with hin | ⟨hmade, _⟩
      · exact hout hin
      · exact Nat.not_lt.mpr hmade hf
    rw [Store.frames_define, if_neg hne]
  parent f _ := Store.parent?_define
  kept f _ y w hw := hw.define
  written f hf y hne := by
    by_cases hsame : g = f ∧ y = x
    · obtain ⟨rfl, rfl⟩ := hsame
      exact hallowed hf
    · exact absurd (Store.get?_define_of_ne hsame) hne

end Change

/-! ## Closed realms -/

/-- The realm holds all frames and closures that its frames and closures lead to. -/
structure Closed (R : Realm) (σ : Store) : Prop where
  frameCount_le : R.frameCount ≤ σ.frames.size
  closureCount_le : R.closureCount ≤ σ.closures.size
  parent : ∀ f p, R.OwnsFrame σ f → σ.parent? f = some p → R.OwnsFrame σ p
  bound : ∀ f x v, R.OwnsFrame σ f → σ.Binds f x v → R.OwnsValue σ v
  closure : ∀ (id : ClosureId) (c : Closure), R.OwnsClosure σ id → σ.closures[id]? = some c →
    R.OwnsFrame σ c.scope ∧ R.OwnsCode σ c.body

namespace Closed

/-- The whole scope of a frame of the realm lies in the realm. -/
theorem chain (h : R.Closed σ) (hf : R.OwnsFrame σ f) : ∀ g ∈ σ.chain f, R.OwnsFrame σ g :=
  Store.chain_subset h.parent hf

theorem lookup (h : R.Closed σ) (hf : R.OwnsFrame σ f) (hv : σ.lookup? f x = some v) :
    R.OwnsValue σ v := by
  obtain ⟨g, hg, hbinds⟩ := Store.exists_binds_of_lookup? hv
  exact h.bound g x v (h.chain hf g hg) hbinds

/-- A realm is closed in every store with the same frames and closures. -/
theorem congr (h : R.Closed σ) (hframes : τ.frames = σ.frames) (hclosures : τ.closures = σ.closures) :
    R.Closed τ := by
  obtain ⟨frames, closures, stamp, sink⟩ := τ
  obtain rfl : frames = σ.frames := hframes
  obtain rfl : closures = σ.closures := hclosures
  refine ⟨h.frameCount_le, h.closureCount_le, h.parent, h.bound, ?_⟩
  intro id c hid hc
  obtain ⟨hscope, hcode⟩ := h.closure id c hid hc
  exact ⟨hscope, hcode.holds, hcode.assigns⟩

theorem define (h : R.Closed σ) (hv : R.OwnsValue σ v) : R.Closed (σ.define g x v) := by
  have howns : ∀ f, R.OwnsFrame (σ.define g x v) f ↔ R.OwnsFrame σ f := by
    intro f
    unfold OwnsFrame
    rw [Store.size_define]
  refine ⟨by rw [Store.size_define]; exact h.frameCount_le, h.closureCount_le, ?_, ?_, ?_⟩
  · intro f p hf hp
    rw [Store.parent?_define] at hp
    exact (howns p).mpr (h.parent f p ((howns f).mp hf) hp)
  · intro f y w hf hw
    rcases hw.of_define with ⟨_, _, rfl⟩ | hw
    · exact hv
    · exact h.bound f y w ((howns f).mp hf) hw
  · intro id c hid hc
    obtain ⟨hscope, hcode⟩ := h.closure id c hid hc
    exact ⟨(howns c.scope).mpr hscope, hcode.holds, hcode.assigns⟩

/-- A new frame inside the realm comes to it. -/
theorem addFrame {entries : List (String × Value)} (h : R.Closed σ) (hp : R.OwnsFrame σ p)
    (hentries : ∀ x v, (x, v) ∈ entries → R.OwnsValue σ v) :
    R.Closed (σ.addFrame (some p) entries).2 := by
  have hsize : σ.frames.size ≤ (σ.addFrame (some p) entries).2.frames.size := by
    rw [Store.size_addFrame]
    exact Nat.le_succ _
  -- apart from the new frame, what is owned afterwards was owned before
  have howned : ∀ f, f ≠ σ.frames.size → R.OwnsFrame (σ.addFrame (some p) entries).2 f →
      R.OwnsFrame σ f := by
    intro f hne hf
    refine hf.imp_right ?_
    rintro ⟨hmade, hlt⟩
    rw [Store.size_addFrame] at hlt
    exact ⟨hmade, Nat.lt_of_le_of_ne (Nat.le_of_lt_succ hlt) hne⟩
  refine ⟨Nat.le_trans h.frameCount_le hsize, h.closureCount_le, ?_, ?_, ?_⟩
  · intro f q hf hq
    rw [Store.parent?_addFrame] at hq
    split at hq
    · obtain rfl := Option.some.inj hq
      exact hp.mono hsize
    · rename_i hne
      exact (h.parent f q (howned f hne hf) hq).mono hsize
  · intro f x v hf hv
    unfold Store.Binds at hv
    rw [Store.localBindings_addFrame] at hv
    split at hv
    · exact hentries x v (Bindings.mem_of_get?_ofList hv)
    · rename_i hne
      exact h.bound f x v (howned f hne hf) hv
  · intro id c hid hc
    obtain ⟨hscope, hcode⟩ := h.closure id c hid hc
    exact ⟨hscope.mono hsize, hcode.holds, hcode.assigns⟩

/-- A new closure over a scope of the realm comes to it. -/
theorem addClosure {c : Closure} (h : R.Closed σ) (hscope : R.OwnsFrame σ c.scope)
    (hcode : R.OwnsCode σ c.body) : R.Closed (σ.addClosure c).2 := by
  have hsize : σ.closures.size ≤ (σ.addClosure c).2.closures.size := by
    show σ.closures.size ≤ (σ.closures.push c).size
    rw [Array.size_push]
    exact Nat.le_succ _
  refine ⟨h.frameCount_le, Nat.le_trans h.closureCount_le hsize, h.parent, ?_, ?_⟩
  · intro f x v hf hv
    exact (h.bound f x v hf hv).mono hsize
  · intro id d hid hd
    rw [Store.closures_addClosure] at hd
    split at hd
    · obtain rfl := Option.some.inj hd
      exact ⟨hscope, hcode.mono hsize⟩
    · rename_i hne
      have hold : R.OwnsClosure σ id := by
        refine hid.imp_right ?_
        rintro ⟨hmade, hlt⟩
        have hlt' : id < σ.closures.size + 1 := by
          rw [← Array.size_push c]
          exact hlt
        exact ⟨hmade, Nat.lt_of_le_of_ne (Nat.le_of_lt_succ hlt') hne⟩
      obtain ⟨hscope', hcode'⟩ := h.closure id d hold hd
      exact ⟨hscope', hcode'.mono hsize⟩

end Closed

/-! ## The invariant -/

/-- An expression that is evaluated in a scope of the realm.  In a frame that was there before the run
it defines only what may be defined there. -/
structure Runs (R : Realm) (σ : Store) (f : FrameId) (e : Expr) : Prop where
  frame : R.OwnsFrame σ f
  code : R.OwnsCode σ e
  defines : f < R.frameCount → f = R.scope ∧ ∀ x, e.Defines x → R.defined x

/-- The realm holds what the bundles of the interpreter give away and where they look names up. -/
structure Admits (R : Realm) (ip : Interpreter) : Prop where
  holds : ∀ name bundle entry id, ip.bundles name = some bundle → entry ∈ bundle →
    entry.2.Holds id → R.closures id
  reads : ∀ name bundle entry f, ip.bundles name = some bundle → entry ∈ bundle →
    entry.2.Reads f → R.frames f

/-- The values of an import are values of the realm. -/
theorem Admits.make {ip : Interpreter} {name : String} {bundle : Bundle} (h : R.Admits ip)
    (hclosed : R.Closed σ) (hbundle : ip.bundles name = some bundle)
    (hmem : (x, v) ∈ (bundle.make σ).1) : R.OwnsValue σ v := by
  intro id hid
  obtain ⟨entry, hentry, hholds | ⟨f, hreads, name', w, hlookup, hw⟩⟩ := Bundle.holds_make hmem hid
  · exact .inl (h.holds name bundle entry id hbundle hentry hholds)
  · have hf : R.OwnsFrame σ f := .inl (h.reads name bundle entry f hbundle hentry hreads)
    exact hclosed.lookup hf hlookup id hw

/-- A body in a frame of its own that was just made. -/
theorem runs_addFrame {entries : List (String × Value)} (h : R.Closed σ) (hcode : R.OwnsCode σ e) :
    R.Runs (σ.addFrame (some p) entries).2 (σ.addFrame (some p) entries).1 e where
  frame := by
    refine .inr ⟨h.frameCount_le, ?_⟩
    rw [Store.size_addFrame]
    exact Nat.lt_succ_self _
  code := ⟨hcode.holds, hcode.assigns⟩
  defines hlt := absurd hlt (Nat.not_lt.mpr h.frameCount_le)

/-- Opening a frame changes nothing that was there before the run. -/
theorem change_addFrame {entries : List (String × Value)} (h : R.Closed σ) :
    R.Change σ (σ.addFrame (some p) entries).2 := by
  refine .of_frames ?_ (Nat.le_refl _) ?_
  · rw [Store.size_addFrame]
    exact Nat.le_succ _
  · intro f hf
    exact Store.frames_addFrame_of_lt (Nat.lt_of_lt_of_le hf h.frameCount_le)

/-- Runs in a realm stay in it. -/
def invariant (R : Realm) (ip : Interpreter) (hadmits : R.Admits ip) : Invariant ip where
  state := R.Closed
  change := R.Change
  value := R.OwnsValue
  runs := R.Runs
  refl := .refl
  trans := .trans
  value_mono hchange hv := hv.mono hchange.closures_size
  runs_mono hchange h :=
    ⟨h.frame.mono hchange.frames_size, h.code.mono hchange.closures_size, h.defines⟩
  operand h hmem := by
    refine ⟨h.frame, h.code.operand hmem, ?_⟩
    -- the frame is older than the run, so it is the frame of the scope itself
    intro hlt
    obtain ⟨hscope, hdefines⟩ := h.defines hlt
    exact ⟨hscope, fun x hx => hdefines x (.operand hmem hx)⟩
  nil _ := fun _ => nofun
  unspecified _ := fun _ => nofun
  literal h := fun id hid => h.code.holds id (.literal hid)
  quote h := fun id hid => h.code.holds id (.quote hid)
  lookup hclosed h hv := hclosed.lookup h.frame hv
  assign {σ scope x e v} hclosed h hv := by
    rcases σ.assign_cases scope x v with hsame | ⟨g, hg, hbound, hdefine⟩
    · rw [hsame]
      exact ⟨hclosed, .refl σ⟩
    · rw [hdefine]
      refine ⟨hclosed.define hv, .define (hclosed.chain h.frame g hg) ?_⟩
      intro _
      exact .inr ⟨hbound, h.code.assigns x (.here e)⟩
  define {σ scope x e v} hclosed h hv := by
    refine ⟨hclosed.define hv, .define h.frame ?_⟩
    intro hlt
    obtain ⟨hscope, hdefines⟩ := h.defines hlt
    exact .inl ⟨hscope, hdefines x (.here e)⟩
  closure {σ scope parameters body} hclosed h := by
    have hsize : σ.closures.size < (σ.closures.push ⟨parameters, body, scope⟩).size := by
      rw [Array.size_push]
      exact Nat.lt_succ_self _
    refine ⟨hclosed.addClosure h.frame (h.code.body List.mem_cons_self), ?_, ?_⟩
    · exact .of_frames (Nat.le_refl _) (Nat.le_of_lt hsize) fun _ _ => rfl
    · intro id hid
      cases hid
      exact .inr ⟨hclosed.closureCount_le, hsize⟩
  bundle {σ scope name bundle body} hclosed h hbundle := by
    have hstamps := bundle.make_stampsOnly σ
    have hmade : R.Closed (bundle.make σ).2 := hclosed.congr hstamps.frames hstamps.closures
    have hframes : σ.frames.size ≤ (bundle.make σ).2.frames.size :=
      Nat.le_of_eq (by rw [hstamps.frames])
    have hclosures : σ.closures.size ≤ (bundle.make σ).2.closures.size :=
      Nat.le_of_eq (by rw [hstamps.closures])
    have hchange : R.Change σ (bundle.make σ).2 :=
      .of_frames hframes hclosures fun f _ => by rw [hstamps.frames]
    refine ⟨hmade.addFrame (h.frame.mono hframes) ?_, hchange.trans (change_addFrame hmade), ?_⟩
    · intro x v hmem
      exact (hadmits.make hclosed hbundle hmem).mono hclosures
    · exact runs_addFrame hmade ((h.code.body List.mem_cons_self).mono hclosures)
  call {σ id c args} hclosed hid hc hargs := by
    obtain ⟨hscope, hcode⟩ := hclosed.closure id c (hid id .closure) hc
    refine ⟨hclosed.addFrame hscope ?_, change_addFrame hclosed, runs_addFrame hclosed hcode⟩
    intro x v hmem
    rcases mem_bindArguments hmem with harg | rfl
    · exact hargs v harg
    · exact fun _ => nofun
  primitive {σ p args} hclosed _ hargs := by
    have hsink := p.call_sinkOnly args σ
    have hframes : (p.call args σ).2.frames = σ.frames := by rw [hsink]
    have hclosures : (p.call args σ).2.closures = σ.closures := by rw [hsink]
    have hsize : σ.closures.size ≤ (p.call args σ).2.closures.size :=
      Nat.le_of_eq (by rw [hclosures])
    refine ⟨hclosed.congr hframes hclosures, ?_, ?_⟩
    · exact .of_frames (Nat.le_of_eq (by rw [hframes])) hsize fun f _ => by rw [hframes]
    · intro v hv id hid
      obtain ⟨a, ha, hholds⟩ := Primitive.holds_call hv hid
      exact (hargs a ha id hholds).mono hsize

/-! ## The realm of a scope -/

/-- What a run of the expression in the scope may get at and change. -/
def ofScope (ip : Interpreter) (σ : Store) (s : FrameId) (e : Expr) : Realm where
  frameCount := σ.frames.size
  closureCount := σ.closures.size
  frames := ip.Reach σ s
  closures := ip.ReachClosure σ s
  scope := s
  defined := e.Defines
  assigned := ip.MayAssign σ s e

variable {ip : Interpreter} {s : FrameId}

/-- Among the frames there were before the run, those of the realm are the reachable ones. -/
theorem ownsFrame_ofScope : (ofScope ip σ s e).OwnsFrame σ f ↔ ip.Reach σ s f := by
  refine ⟨?_, .inl⟩
  rintro (hreach | ⟨hge, hlt⟩)
  · exact hreach
  · exact absurd hlt (Nat.not_lt.mpr hge)

theorem ownsClosure_ofScope :
    (ofScope ip σ s e).OwnsClosure σ id ↔ ip.ReachClosure σ s id := by
  refine ⟨?_, .inl⟩
  rintro (hreach | ⟨hge, hlt⟩)
  · exact hreach
  · exact absurd hlt (Nat.not_lt.mpr hge)

theorem closed_ofScope (ip : Interpreter) (σ : Store) (s : FrameId) (e : Expr) :
    (ofScope ip σ s e).Closed σ where
  frameCount_le := Nat.le_refl _
  closureCount_le := Nat.le_refl _
  parent f p hf hp := .inl (.parent (ownsFrame_ofScope.mp hf) hp)
  bound f x v hf hbinds id hid := .inl (.bound (ownsFrame_ofScope.mp hf) hbinds hid)
  closure id c hid hc := by
    have hreach := ownsClosure_ofScope.mp hid
    refine ⟨.inl (.captured hreach hc), ?_, ?_⟩
    · intro id' hid'
      exact .inl (.literal hreach hc hid')
    · intro x hx
      exact .inr ⟨id, c, hreach, hc, hx⟩

theorem admits_ofScope (ip : Interpreter) (σ : Store) (s : FrameId) (e : Expr) :
    (ofScope ip σ s e).Admits ip where
  holds _ _ _ _ hbundle hentry h := .offered hbundle hentry h
  reads _ _ _ _ hbundle hentry h := .consulted hbundle hentry h

theorem runs_ofScope (he : e.Plain) : (ofScope ip σ s e).Runs σ s e where
  frame := .inl .scope
  code := ⟨fun id hid => absurd hid (he id), fun _ => .inl⟩
  defines _ := ⟨rfl, fun _ h => h⟩

/-- What a run of an expression without closures comes to. -/
theorem keeps_evaluate (ip : Interpreter) (σ : Store) (s : FrameId) (he : e.Plain) :
    ((ofScope ip σ s e).invariant ip (admits_ofScope ip σ s e)).Keeps
      (ofScope ip σ s e).OwnsValue σ (ip.evaluate e s σ) :=
  Invariant.eval _ ip.limits.eval (closed_ofScope ip σ s e) (runs_ofScope he)

/-! ## The whole store -/

/-- The realm of everything, in whose old frames nothing may be defined. -/
def whole (σ : Store) : Realm where
  frameCount := σ.frames.size
  closureCount := σ.closures.size
  frames _ := True
  closures _ := True
  scope := 0
  defined _ := False
  assigned _ := True

theorem closed_whole (σ : Store) : (whole σ).Closed σ where
  frameCount_le := Nat.le_refl _
  closureCount_le := Nat.le_refl _
  parent _ _ _ _ := .inl ⟨⟩
  bound _ _ _ _ _ _ _ := .inl ⟨⟩
  closure _ _ _ _ := ⟨.inl ⟨⟩, fun _ _ => .inl ⟨⟩, fun _ _ => ⟨⟩⟩

theorem admits_whole (ip : Interpreter) (σ : Store) : (whole σ).Admits ip where
  holds _ _ _ _ _ _ _ := ⟨⟩
  reads _ _ _ _ _ _ _ := ⟨⟩

/-- What a host gets from applying a value. -/
theorem keeps_apply (ip : Interpreter) (σ : Store) (callee : Value) (args : List Value) :
    ((whole σ).invariant ip (admits_whole ip σ)).Keeps (whole σ).OwnsValue σ
      (ip.apply callee args σ) :=
  Invariant.applyAt _ ip.limits.eval (closed_whole σ) (fun _ _ => .inl ⟨⟩)
    fun _ _ _ _ => .inl ⟨⟩

end Realm

end MiniLisp
