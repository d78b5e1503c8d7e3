import MiniLisp.Proofs.Eval.Primitives
import MiniLisp.Proofs.Session.Frames

/-!
# Equality in whole sessions

Callable values are equal if they are copies of one that was made.  A closure is made whenever a
function is evaluated, and differs from everything that was there; a primitive is made by the host, once
for all programs if it stands in a registered bundle and at each import otherwise.
-/

namespace MiniLisp

/-! ## Primitives of a session -/

/-- Hosts put no primitives together without making them. -/
def HostInvariant.primitives (ip : Interpreter) : HostInvariant ip where
  toInvariant := Invariant.primitives ip
  scope _ _ := True
  scope_mono _ _ := ⟨⟩
  parent _ _ _ := ⟨⟩
  analysed {σ f d e} _ he := by
    have hover : e.Over (Expr.OfKind fun _ => True) := Expr.over_ofDatum (fun _ _ _ _ => ⟨⟩) ⟨⟩ he
    refine hover.mono fun v hv => ?_
    obtain ⟨d', _, rfl⟩ := hv
    exact σ.registers_ofDatum d'
  blank {σ f} _ := Expr.over_literal σ.registers_unspecified
  supply {σ f} s hσ _ := by
    have hmade := (s.blueprint f).make_stampsOnly σ
    refine ⟨hσ.made hmade ((s.blueprint f).stamped_make hσ.stamped), hmade.primitives, ?_⟩
    intro p hp
    refine ((s.blueprint f).part_make rfl σ hp).registered hmade.primitives hσ.values ?_
    intro v hgives
    exact Store.registers_of_not_part fun q => s.not_part_of_gives rfl f hgives
  frame {σ parent entries} hσ _ hentries :=
    ⟨hσ.withStore rfl (hσ.values.addFrame fun x v => hentries (x, v)), .refl _, ⟨⟩⟩

theorem Store.accounted_root (sink : Sink) : (Store.root sink).Accounted := by
  have hplace : ∀ {i : Nat} {p : Primitive},
      (Operation.primitivesFrom 0 Operation.standard)[i]? = some p → p.stamp = i := by
    intro i p hp
    obtain ⟨op, _, rfl⟩ := Operation.getElem?_primitivesFrom hp
    exact Nat.zero_add i
  have hprimitives : (Store.root sink).primitives.toList =
      Operation.primitivesFrom 0 Operation.standard := rfl
  constructor
  · intro i p hp
    rw [← Array.getElem?_toList, hprimitives] at hp
    exact hplace hp
  · refine ⟨fun f x v hv => ?_, fun id c hc => by cases hc⟩
    rcases Store.root_binds hv with ⟨b, rfl⟩ | rfl | ⟨p, hp, rfl⟩
    · refine Store.registers_of_not_part fun q hq => ?_
      cases hq
    · exact Store.registers_nil _
    · intro q hq
      cases hq
      obtain ⟨i, hi⟩ := List.mem_iff_getElem?.mp hp
      rw [hplace hi, ← Array.getElem?_toList, hprimitives]
      exact hi

/-- Loading the standard unit puts no primitives together. -/
theorem Host.accounted_loadPrelude (host : Host) {σ : Store} (h : σ.Accounted) :
    (host.loader.loadPrelude Store.rootFrame σ).2.Accounted := by
  have hoffers : host.loader.OffersRegistered σ := by
    intro name bundle hbundle
    cases hbundle
  have hloaded : (Invariant.primitives host.loader).Keeps Store.Registers σ
      (host.loader.loadPrelude Store.rootFrame σ) := by
    refine Invariant.keeps_loadUnit ⟨h, hoffers⟩ ?_
    intro _ _ d _ e he
    exact (HostInvariant.primitives host.loader).analysed (f := Store.rootFrame) ⟨⟩ he
  exact hloaded.state.toAccounted

/-- Neither does making the values that a host describes. -/
theorem BundleSource.accounted_make (source : BundleSource) :
    Registry.Makes Store.Accounted Store.Registers source.bundle := by
  intro σ hσ
  have hmade := source.bundle.make_stampsOnly σ
  refine ⟨hσ.made hmade (source.bundle.stamped_make hσ.stamped), ?_, ?_⟩
  · exact fun v hv => hv.mono hmade.primitives
  · intro entry hentry
    refine Store.registers_make hσ.values (fun described hmem v hgives => ?_) hentry
    exact Store.registers_of_not_part fun p => source.not_part_of_gives rfl described hmem hgives

/-- In the first store of a session every primitive was made. -/
theorem Host.holds_primitives (host : Host) :
    (HostInvariant.primitives host.session.interpreter).Holds host.session := by
  have hstart : host.session.store.Accounted ∧
      host.session.registry.Over host.session.store.Registers := by
    refine host.start (Store.accounted_root host.sink) (fun _ => host.accounted_loadPrelude) ?_
    intro sources _ source hsource
    obtain ⟨described, _, rfl⟩ := List.mem_map.mp hsource
    exact described.2.accounted_make
  obtain ⟨hstore, hregistry⟩ := hstart
  have hoffers : host.session.interpreter.OffersRegistered host.session.store := by
    intro name bundle hbundle entry hentry v hgives
    rcases host.offered hregistry hbundle hentry with ⟨w, hw, hregisters⟩ | ⟨source, hsource⟩
    · rw [hw] at hgives
      cases hgives
      exact hregisters
    · exact Store.registers_of_not_part fun p => source.not_part_of_gives rfl entry hsource hgives
  exact ⟨rfl, ⟨hstore, hoffers⟩, ⟨⟩, fun _ _ => ⟨⟩, fun e he => absurd he (Array.not_mem_empty e)⟩

/-! ## Identity -/

/-- A value that is present was made. -/
theorem Interpreter.Present.registered {ip : Interpreter} {σ : Store} {given : Value → Prop} {v : Value}
    (h : ip.Present σ given v) (hσ : ip.Accounts σ) (hgiven : ∀ v, given v → σ.Registers v) :
    σ.Registers v := by
  cases h with
  | bound hbinds => exact hσ.values.bound _ _ _ hbinds
  | offered hbundle hentry hgives => exact hσ.offers _ _ hbundle _ hentry v hgives
  | given h => exact hgiven v h

/-- Among the callable values that are present, equal ones are copies of one: equal closures have the
same parameters, body and scope, and primitives are equal just if they were made as one. -/
structure Interpreter.Identifies (ip : Interpreter) (σ : Store) (given : Value → Prop) : Prop where
  closures : ∀ v w, ip.Present σ given v → ip.Present σ given w → ∀ i j,
    (Value.closure i).Part v → (Value.closure j).Part w → (Value.closure i == Value.closure j) = true →
    ∃ c : Closure, σ.closures[i]? = some c ∧ σ.closures[j]? = some c
  primitives : ∀ v w, ip.Present σ given v → ip.Present σ given w → ∀ p q,
    (Value.primitive p).Part v → (Value.primitive q).Part w →
    ((Value.primitive p == Value.primitive q) = true ↔ σ.SameOrigin p q)

/-- If a function is evaluated at the moment, it makes a closure that differs from all values that are
present, and equals nothing but itself. -/
def Interpreter.MakesNew (ip : Interpreter) (given : Value → Prop) (m : Moment) : Prop :=
  ∀ n parameters body scope, m.levels = n + 1 → m.task = .evaluate (.lambda parameters body) scope →
    ∃ id τ, ip.eval m.levels (.lambda parameters body) scope m.store = (.ok (.closure id), τ) ∧
      τ.closures[id]? = some ⟨parameters, body, scope⟩ ∧
      (∀ v, (v == Value.closure id) = true ↔ v = Value.closure id) ∧
      ∀ v, ip.Present m.store given v → ∀ w, w.Part v →
        (w == Value.closure id) = false ∧ (Value.closure id == w) = false

theorem Interpreter.makesNew {ip : Interpreter} {given : Value → Prop} {m : Moment}
    (hknown : ∀ v, ip.Present m.store given v → m.store.Knows v) : ip.MakesNew given m := by
  intro n parameters body scope hlevels _
  rw [hlevels]
  refine ⟨m.store.closures.size, _, rfl, Array.getElem?_push_size, fun v => Value.beq_closure_iff, ?_⟩
  intro v hv w hw
  have hne : (w == Value.closure m.store.closures.size) ≠ true := by
    intro heq
    obtain rfl := Value.beq_closure_iff.mp heq
    obtain ⟨c, hc, _⟩ := hknown v hv _ (Value.holds_iff_part.mpr hw)
    exact absurd (Array.getElem?_eq_some_iff.mp hc).1 (Nat.lt_irrefl _)
  refine ⟨Bool.eq_false_iff.mpr hne, Bool.eq_false_iff.mpr fun heq => hne ?_⟩
  exact Value.equalityLaws.symm _ _ heq

/-! ## Imports -/

/-- Every import binds the same values, and makes none. -/
def Bundle.Shared (bundle : Bundle) : Prop := ∃ entries, ∀ σ, bundle.make σ = (entries, σ)

theorem Bundle.make_ofValues (entries : List (String × Value)) (σ : Store) :
    (Bundle.ofValues entries).make σ = (entries, σ) := by
  induction entries with
  | nil => rfl
  | cons entry rest ih =>
    have hrest : Bundle.make σ (rest.map fun entry => (entry.1, .value entry.2)) = (rest, σ) := ih
    simp [ofValues, make, Blueprint.make, hrest]

/-- What programs import from a registered bundle was made before. -/
theorem Host.shared {host : Host} {sources : List (String × BundleSource)} {name : String}
    {bundle : Bundle} (hprovision : host.provision = .registered sources)
    (hbundle : host.session.interpreter.bundles name = some bundle) : bundle.Shared := by
  have hget : host.session.registry.bundles.get? name = some bundle := by
    simpa [Host.session, Provision.bundles, hprovision] using hbundle
  rw [Registry.bundles, Bindings.get?_map, Option.map_eq_some_iff] at hget
  obtain ⟨entries, _, rfl⟩ := hget
  exact ⟨entries, Bundle.make_ofValues entries⟩

/-- The primitives that a bundle describes are made at each import, and differ from those that are made
at a later one. -/
structure Bundle.MadeAnew (bundle : Bundle) : Prop where
  made : ∀ x name arity operation, (x, .primitive name arity operation) ∈ bundle →
    ∀ σ, ∃ p, (x, .primitive p) ∈ (bundle.make σ).1 ∧ σ.Builds (bundle.make σ).2 p
  apart : ∀ (other : Bundle) (σ τ : Store) p q, (bundle.make σ).2.KeepsPrimitives τ →
    σ.Builds (bundle.make σ).2 p → τ.Builds (other.make τ).2 q →
    (Value.primitive p == Value.primitive q) = false

theorem Bundle.madeAnew (bundle : Bundle) : bundle.MadeAnew where
  made _ _ _ _ hmem _ := Bundle.builds_make hmem
  apart _ _ _ _ _ hlater hp hq := hp.bne hlater hq

/-! ## Whole sessions -/

/-- Equality is reflexive on values without NaN, symmetric and transitive.  Wherever a session comes to,
a function that is evaluated makes a closure that differs from everything that is there, and the
callable values in frames, lists, bundles and results are equal just if they are copies of one.  Imports
from registered bundles bind copies of the same primitives, while those that are made at imports differ
from import to import. -/
theorem Session.equality_sound (host : Host) (steps : List Step) :
    let reports := (host.session.reportAll steps).1
    let s := (host.session.reportAll steps).2
    Value.EqualityLaws ∧
    (∀ step m, s.Visits step m →
      s.interpreter.MakesNew (fun v => Shown reports v ∨ v ∈ m.values) m) ∧
    (∀ σ given, s.Comes reports σ given → s.interpreter.Identifies σ given) ∧
    (∀ name bundle, s.interpreter.bundles name = some bundle →
      bundle.MadeAnew ∧ ∀ sources, host.provision = .registered sources → bundle.Shared) ∧
    (∀ n e scope (σ : Store), σ.KeepsPrimitives (s.interpreter.eval n e scope σ).2) ∧
    ∀ more, s.store.KeepsPrimitives (s.reportAll more).2.store := by
  intro reports s
  have hholds := (HostInvariant.reportAll host.holds_primitives steps).1
  have hsame : s.interpreter = host.session.interpreter := hholds.interpreter
  refine ⟨Value.equalityLaws, ?_, ?_, ?_, ?_, ?_⟩
  · intro step m hvisits
    obtain ⟨hheap, _, hgiven⟩ := HostInvariant.comes host.holds_heap steps (.inside hvisits)
    exact Interpreter.makesNew fun v hv => hv.made (hsame ▸ hheap) hgiven
  · intro σ given hcomes
    obtain ⟨hheap, _, hknown⟩ := HostInvariant.comes host.holds_heap steps hcomes
    -- primitives are told apart by the record of those that were made, closures by the heap
    obtain ⟨haccounts, _, hregistered⟩ := HostInvariant.comes host.holds_primitives steps hcomes
    constructor
    · intro v w hv _ i j hi _ heq
      obtain ⟨c, hc, _⟩ := hv.made (hsame ▸ hheap) hknown i (Value.holds_iff_part.mpr hi)
      obtain rfl : i = j := eq_of_beq heq
      exact ⟨c, hc, hc⟩
    · intro v w hv hw p q hp hq
      have hv := hv.registered (hsame ▸ haccounts) hregistered
      have hw := hw.registered (hsame ▸ haccounts) hregistered
      exact hv.beq_iff haccounts.stamped hw hp hq
  · intro name bundle hbundle
    refine ⟨bundle.madeAnew, fun sources hprovision => ?_⟩
    exact Host.shared hprovision (hsame ▸ hbundle)
  · intro n e scope σ
    exact StepOrder.primitives.eval s.interpreter n e scope σ
  · intro more
    exact (HostInvariant.reportAll hholds more).2.1

/-- A second function of the same text, and a primitive of a registered bundle. -/
theorem Session.equality_sound_second :
    let source : BundleSource := .described [("t", .primitive "t" .any)]
    let host : Host := ⟨⟨20, 5⟩, .registered [("tools", source)], .unlimited, false⟩
    let steps := [Step.run 0 "(define f (lambda (x) x))"]
    let s := (host.session.reportAll steps).2
    let m : Moment := ⟨20, .evaluate (.lambda ["x"] (.name "x")) 0, s.store, []⟩
    let p : Primitive := ⟨12, "t", .any, .collect⟩
    s.Visits (.run 0 "(lambda (x) x)") m ∧
      (∃ id τ, s.interpreter.eval 20 (.lambda ["x"] (.name "x")) 0 s.store = (.ok (.closure id), τ) ∧
        (Value.closure 0 == Value.closure id) = false) ∧
      s.interpreter.bundles "tools" = some (.ofValues [("t", .primitive p)]) ∧
      Bundle.Shared (.ofValues [("t", .primitive p)]) ∧ s.store.SameOrigin p p := by
  intro source host steps
  let e := Expr.lambda ["x"] (.name "x")
  let bundle := Bundle.ofValues [("t", .primitive ⟨12, "t", .any, .collect⟩)]
  let ip := host.session.interpreter
  have hdefine : ip.read "(define f (lambda (x) x))" = .ok [.list [.sym "define", .sym "f",
      .list [.sym "lambda", .list [.sym "x"], .sym "x"]]] :=
    Interpreter.read_of_scan rfl rfl (by decide)
  have hlambda : ip.read "(lambda (x) x)" = .ok [.list [.sym "lambda", .list [.sym "x"], .sym "x"]] :=
    Interpreter.read_of_scan rfl rfl (by decide)
  have hanalyze : ip.analyze "(lambda (x) x)" = .ok ([] ++ e :: []) :=
    Interpreter.analyze_eq_ok hlambda
  have hsound := Session.equality_sound host steps
  have hsession : (host.session.reportAll steps).2 = _ :=
    Session.snd_perform_run (Interpreter.analyze_eq_ok hdefine) 0
  have hsame : (host.session.reportAll steps).2.interpreter = ip := by rw [hsession]
  have hbundle : (host.session.reportAll steps).2.interpreter.bundles "tools" = some bundle :=
    hsame ▸ rfl
  have hbound : (host.session.reportAll steps).2.store.Binds 0 "f" (.closure 0) := by
    rw [hsession]
    rfl
  have hframe : (host.session.reportAll steps).2.frame 0 = 0 := by
    rw [hsession]
    rfl
  -- how the first step has come to this does not matter any more
  generalize host.session.reportAll steps = outcome at *
  intro s m p
  obtain ⟨hlaws, hnew, hidentifies, himports, _⟩ := hsound
  have hvisits : s.Visits (.run 0 "(lambda (x) x)") m := by
    have hstarts : s.Starts (.run 0 "(lambda (x) x)")
        ⟨s.interpreter.limits.eval, .evaluate e (s.frame 0), s.store, []⟩ :=
      .run (hsame ▸ hanalyze) rfl
    rw [hsame, hframe] at hstarts
    exact ⟨_, hstarts, .refl⟩
  obtain ⟨id, τ, heval, _, _, hapart⟩ := hnew _ m hvisits 19 _ _ _ rfl rfl
  have hp : s.interpreter.Present s.store (Shown outcome.1) (.primitive p) :=
    .offered hbundle List.mem_cons_self .value
  have hmade := (hidentifies _ _ .between).primitives _ _ hp hp p p .self .self
  refine ⟨hvisits, ⟨id, τ, heval, (hapart _ (.bound hbound) _ .self).1⟩, hbundle, ?_, ?_⟩
  · exact (himports "tools" bundle hbundle).2 _ rfl
  · refine hmade.mp (hlaws.refl _ fun x hx => ?_)
    cases hx

end MiniLisp
