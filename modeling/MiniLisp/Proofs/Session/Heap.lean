import MiniLisp.Proofs.Session.Invariant
import MiniLisp.Proofs.Session.Start
import MiniLisp.Proofs.Store.Heap

/-!
# The heap of a session

Runs and host steps keep stores well formed and only add to them.  Since a host describes the values
that it passes to a session, and never holds a closure that was not made, every session starts with a
well-formed store and goes on with one, whatever its steps answer.
-/

namespace MiniLisp

/-- The closures in the values that programs can import were made. -/
def Interpreter.OffersMade (ip : Interpreter) (σ : Store) : Prop :=
  ∀ name bundle, ip.bundles name = some bundle →
    ∀ entry ∈ bundle, ∀ id, entry.2.Holds id → σ.Made id

theorem Interpreter.OffersMade.mono {ip : Interpreter} {σ τ : Store} (hextends : σ.Extends τ)
    (h : ip.OffersMade σ) : ip.OffersMade τ :=
  fun name bundle hbundle entry hentry id hid => (h name bundle hbundle entry hentry id hid).mono hextends

/-! ## What hosts describe -/

mutual

/-- A described value gives nothing away that can be called. -/
theorem Supply.not_part_of_gives {v w : Value} (hw : w.isCallable = true) (f : FrameId) (s : Supply)
    (h : (s.blueprint f).Gives v) : ¬ w.Part v := by
  intro hv
  -- bound names and primitives are derived, so they give no value at all
  cases s with
  | list items =>
    cases h with
    | item hmem h => exact Supply.not_part_of_gives_item hw f items _ hmem h hv
  | bound name => cases h
  | primitive name arity => cases h
  | num | str | sym | bool | nil | unspecified =>
    cases h
    cases hv
    cases hw

theorem Supply.not_part_of_gives_item {v w : Value} (hw : w.isCallable = true) (f : FrameId)
    (items : List Supply) : ∀ b ∈ Supply.blueprints f items, b.Gives v → ¬ w.Part v := by
  intro b hmem h
  cases items with
  | nil => cases hmem
  | cons s rest =>
    rcases List.mem_cons.mp hmem with rfl | hmem
    · exact Supply.not_part_of_gives hw f s h
    · exact Supply.not_part_of_gives_item hw f rest b hmem h

end

/-- Neither does a bundle of a host. -/
theorem BundleSource.not_part_of_gives (source : BundleSource) {v w : Value}
    (hw : w.isCallable = true) : ∀ entry ∈ source.bundle, entry.2.Gives v → ¬ w.Part v := by
  intro entry hentry h
  cases source with
  | described bindings =>
    obtain ⟨binding, _, rfl⟩ := List.mem_map.mp hentry
    exact Supply.not_part_of_gives hw _ binding.2 h
  | math =>
    rcases Bundle.mem_math hentry with ⟨op, _, rfl⟩ | ⟨x, rfl⟩
    · cases h
    · intro hv
      cases h
      cases hv
      cases hw

/-- So they give no closures away. -/
theorem Supply.not_holds_blueprint (f : FrameId) (id : ClosureId) (s : Supply) :
    ¬ (s.blueprint f).Holds id := by
  intro h
  obtain ⟨v, hgives, hv⟩ := h.gives
  exact Supply.not_part_of_gives rfl f s hgives (Value.holds_iff_part.mp hv)

theorem BundleSource.not_holds (source : BundleSource) (id : ClosureId) :
    ∀ entry ∈ source.bundle, ¬ entry.2.Holds id := by
  intro entry hentry h
  obtain ⟨v, hgives, hv⟩ := h.gives
  exact source.not_part_of_gives rfl entry hentry hgives (Value.holds_iff_part.mp hv)

/-! ## The invariant -/

/-- Runs keep a store well formed and only add to it. -/
def Invariant.heap (ip : Interpreter) : Invariant ip where
  state σ := σ.WellFormed ∧ ip.OffersMade σ
  change := Store.Extends
  value := Store.Knows
  runs σ f e := f < σ.frames.size ∧ e.Plain
  refl := .refl
  trans := .trans
  value_mono := Store.Knows.mono
  runs_mono hchange h := ⟨Nat.lt_of_lt_of_le h.1 hchange.frames, h.2⟩
  operand h hmem := ⟨h.1, fun id hid => h.2 id (.operand hmem hid)⟩
  nil _ := .of_plain fun _ => nofun
  unspecified _ := .of_plain fun _ => nofun
  literal h := .of_plain fun id hid => h.2 id (.literal hid)
  quote h := .of_plain fun id hid => h.2 id (.quote hid)
  lookup hstate _ hv := hstate.1.lookup hv
  assign hstate _ hv := by
    -- what values know of a heap stays true in every heap that extends it
    obtain ⟨hassigned, hextends⟩ := hstate.1.assign hv
    exact ⟨⟨hassigned, hstate.2.mono hextends⟩, hextends⟩
  define {σ f x e v} hstate _ hv := by
    have hextends := Store.Extends.define σ f x v
    exact ⟨⟨hstate.1.define hv, hstate.2.mono hextends⟩, hextends⟩
  closure {σ f parameters body} hstate h := by
    have hextends := Store.Extends.addClosure σ ⟨parameters, body, f⟩
    have hmade : (σ.addClosure ⟨parameters, body, f⟩).2.WellFormed :=
      hstate.1.addClosure h.1 fun id hid => h.2 id (.body List.mem_cons_self hid)
    refine ⟨⟨hmade, hstate.2.mono hextends⟩, hextends, ?_⟩
    intro id hid
    cases hid
    refine hmade.made ?_
    show σ.closures.size < (σ.closures.push _).size
    rw [Array.size_push]
    exact Nat.lt_succ_self _
  bundle {σ f name bundle body} hstate h hbundle := by
    have hstamps := bundle.make_stampsOnly σ
    have hmade : (bundle.make σ).2.WellFormed := hstate.1.congr hstamps.frames hstamps.closures
    have hextends : σ.Extends (bundle.make σ).2 := .of_eq hstamps.frames hstamps.closures
    have hopens := Store.Extends.addFrame (bundle.make σ).2 (some f) (bundle.make σ).1
    have hf : f < (bundle.make σ).2.frames.size := Nat.lt_of_lt_of_le h.1 hextends.frames
    refine ⟨⟨hmade.addFrame ?_ ?_, hstate.2.mono (hextends.trans hopens)⟩, hextends.trans hopens, ?_, ?_⟩
    · intro p hp
      obtain rfl := Option.some.inj hp
      exact hf
    · intro x v hmem
      exact (hstate.1.knows_make (hstate.2 name bundle hbundle) hmem).mono hextends
    · simp [Store.addFrame]
    · exact fun id hid => h.2 id (.body List.mem_cons_self hid)
  call {σ id c args} hstate hid hc hargs := by
    have hextends := Store.Extends.addFrame σ (some c.scope) (bindArguments c.parameters args)
    refine ⟨⟨hstate.1.addFrame ?_ ?_, hstate.2.mono hextends⟩, hextends, ?_, hstate.1.analysed id c hc⟩
    · intro p hp
      obtain rfl := Option.some.inj hp
      exact hstate.1.closure id c hc
    · intro x v hmem
      rcases mem_bindArguments hmem with harg | rfl
      · exact hargs v harg
      · exact .of_plain fun _ => nofun
    · simp [Store.addFrame]
  primitive {σ p args} hstate _ hargs := by
    have hsink := p.call_sinkOnly args σ
    have hframes : (p.call args σ).2.frames = σ.frames := by rw [hsink]
    have hclosures : (p.call args σ).2.closures = σ.closures := by rw [hsink]
    have hextends : σ.Extends (p.call args σ).2 := .of_eq hframes hclosures
    refine ⟨⟨hstate.1.congr hframes hclosures, hstate.2.mono hextends⟩, hextends, ?_⟩
    intro v hv id hid
    -- an answer holds no closure that no argument holds
    obtain ⟨a, ha, hholds⟩ := Primitive.holds_call hv hid
    exact (hargs a ha id hholds).mono hextends

/-- Hosts keep a store well formed too. -/
def HostInvariant.heap (ip : Interpreter) : HostInvariant ip where
  toInvariant := Invariant.heap ip
  scope σ f := f < σ.frames.size
  scope_mono hchange h := Nat.lt_of_lt_of_le h hchange.frames
  parent hstate _ hp := hstate.1.parent_lt_size hp
  analysed hf he := ⟨hf, Expr.plain_ofDatum he⟩
  blank hf := ⟨hf, Expr.plain_literal fun _ => nofun⟩
  supply {σ f} s hstate _ := by
    have hstamps := (s.blueprint f).make_stampsOnly σ
    have hextends : σ.Extends ((s.blueprint f).make σ).2 := .of_eq hstamps.frames hstamps.closures
    refine ⟨⟨hstate.1.congr hstamps.frames hstamps.closures, hstate.2.mono hextends⟩, hextends, ?_⟩
    intro id hid
    rcases Blueprint.holds_make hid with hholds | ⟨g, _, name, v, hlookup, hv⟩
    · exact absurd hholds (Supply.not_holds_blueprint f id s)
    · exact (hstate.1.lookup hlookup id hv).mono hextends
  frame {σ parent entries} hstate hparent hentries := by
    have hextends := Store.Extends.addFrame σ parent entries
    refine ⟨⟨hstate.1.addFrame hparent ?_, hstate.2.mono hextends⟩, hextends, ?_⟩
    · intro x v hmem
      exact hentries (x, v) hmem
    · simp [Store.addFrame]

/-! ## The start of a session -/

theorem Store.wellFormed_root (sink : Sink) : (Store.root sink).WellFormed where
  parent f p hp := by
    change (Store.addFrame (.empty sink) none
      (constants ++ (Operation.primitivesFrom 0 Operation.standard).map Primitive.binding)).2.parent? f
        = some p at hp
    rw [parent?_addFrame] at hp
    split at hp
    · cases hp
    · cases hp
  bound f x v hv := by
    refine .of_plain ?_
    rcases Store.root_binds hv with ⟨b, rfl⟩ | rfl | ⟨p, _, rfl⟩
    · exact fun _ => nofun
    · exact fun _ => nofun
    · exact fun _ => nofun
  closure id c hc := by cases hc
  analysed id c hc := by cases hc

/-- A store in which a session can start: well formed, and later than its root scope. -/
def Host.Sound (host : Host) (σ : Store) : Prop :=
  σ.WellFormed ∧ (Store.root host.sink).Extends σ

/-- Loading the standard unit keeps a store sound. -/
theorem Host.sound_loadPrelude (host : Host) {σ : Store} (h : host.Sound σ) :
    host.Sound (host.loader.loadPrelude Store.rootFrame σ).2 := by
  have hroot : Store.rootFrame < σ.frames.size := by
    refine Nat.lt_of_lt_of_le ?_ h.2.frames
    simp [Store.root, Store.rootFrame]
  have hloaded : (Invariant.heap host.loader).Keeps Store.Knows σ
      (host.loader.loadPrelude Store.rootFrame σ) := by
    refine Invariant.keeps_loadUnit ⟨h.1, fun _ _ => nofun⟩ ?_
    exact fun forms _ d _ e he => ⟨hroot, Expr.plain_ofDatum he⟩
  exact ⟨hloaded.state.1, h.2.trans hloaded.change⟩

/-- So does making the values that a host describes. -/
theorem Host.sound_make (host : Host) (source : BundleSource) :
    Registry.Makes host.Sound Store.Knows source.bundle := by
  intro σ hσ
  have hstamps := source.bundle.make_stampsOnly σ
  have hextends : σ.Extends (source.bundle.make σ).2 := .of_eq hstamps.frames hstamps.closures
  refine ⟨⟨hσ.1.congr hstamps.frames hstamps.closures, hσ.2.trans hextends⟩, ?_, ?_⟩
  · exact fun v hv => hv.mono hextends
  · intro entry hentry
    refine (hσ.1.knows_make ?_ hentry).mono hextends
    exact fun described hmem id hid => absurd hid (source.not_holds id described hmem)

/-- Every session starts with a well-formed store. -/
theorem Host.holds_heap (host : Host) :
    (HostInvariant.heap host.session.interpreter).Holds host.session := by
  have hstart : host.Sound host.session.store ∧
      host.session.registry.Over host.session.store.Knows := by
    refine host.start ⟨Store.wellFormed_root host.sink, .refl _⟩ (fun _ => host.sound_loadPrelude) ?_
    intro sources _ source hsource
    obtain ⟨described, _, rfl⟩ := List.mem_map.mp hsource
    exact host.sound_make described.2
  obtain ⟨⟨hstore, hextends⟩, hregistry⟩ := hstart
  have hroot : Store.rootFrame < host.session.store.frames.size := by
    refine Nat.lt_of_lt_of_le ?_ hextends.frames
    simp [Store.root, Store.rootFrame]
  refine ⟨rfl, ⟨hstore, ?_⟩, hroot, ?_, ?_⟩
  · intro name bundle hbundle entry hentry id hid
    rcases host.offered hregistry hbundle hentry with ⟨v, hv, hknown⟩ | ⟨source, hsource⟩
    · rw [hv] at hid
      cases hid with
      | value hid => exact hknown id hid
    · exact absurd hid (source.not_holds id entry hsource)
  · intro f hf
    obtain rfl : f = Store.rootFrame := by simpa [Host.session] using hf
    exact hroot
  · exact fun e he => absurd he (Array.not_mem_empty e)

/-! ## Whole sessions -/

/-- At any time the functions in the store hold no closures, and if the host registers its bundles, they
look no names up: so a scope reaches its region (`Interpreter.reach_iff_region`). -/
theorem Session.reach_iff_region (host : Host) (steps : List Step) :
    let s := (host.session.reportAll steps).2
    s.store.Analysed ∧ ∀ sources, host.provision = .registered sources →
      s.interpreter.OffersValues ∧
        ∀ scope f, s.interpreter.Reach s.store scope f ↔ s.interpreter.Region s.store scope f := by
  intro s
  obtain ⟨hs, _, _⟩ := (HostInvariant.heap host.session.interpreter).reportAll host.holds_heap steps
  have hanalysed : s.store.Analysed := hs.state.1.analysed
  refine ⟨hanalysed, fun sources hprovision => ?_⟩
  have hvalues : s.interpreter.OffersValues := by
    intro name bundle hbundle entry hentry f hreads
    have hget : host.session.registry.bundles.get? name = some bundle := by
      rw [hs.interpreter] at hbundle
      simpa [Host.session, Provision.bundles, hprovision] using hbundle
    have hover : host.session.registry.Over fun _ => True := fun _ _ _ _ _ => ⟨⟩
    obtain ⟨v, hv, _⟩ := hover.offer hget entry hentry
    rw [hv] at hreads
    cases hreads
  exact ⟨hvalues, fun scope f => Interpreter.reach_iff_region hanalysed hvalues⟩

/-- After any steps of any session the store is well formed, everything that bundles offer and all
numbered scopes were made, and every scope is a chain of frames from younger to older ones that ends at
a frame without parent.  Further steps show no value with a closure that was not made, give no frame
another parent and unbind no name. -/
theorem Session.heap_wellFormed (host : Host) (steps more : List Step) :
    let s := (host.session.reportAll steps).2
    let outcome := s.reportAll more
    let t := outcome.2
    t.store.WellFormed ∧ t.interpreter.OffersMade t.store ∧
      (∀ scope, t.frame scope < t.store.frames.size) ∧
      (∀ report ∈ outcome.1, ∀ v, report.answer = .value v → t.store.Knows v) ∧
      s.store.Extends t.store ∧
      ∀ f < t.store.frames.size, ∃ frames, t.store.Walks f frames := by
  obtain ⟨hs, _, _⟩ := (HostInvariant.heap host.session.interpreter).reportAll host.holds_heap steps
  obtain ⟨ht, hextends, hvalues⟩ := (HostInvariant.heap host.session.interpreter).reportAll hs more
  refine ⟨ht.state.1, ?_, ht.frame, hvalues, hextends, ?_⟩
  · rw [ht.interpreter]
    exact ht.state.2
  · exact fun f hf => ⟨_, ht.state.1.walks hf⟩

end MiniLisp
