import Mathlib.Data.List.Nodup
import MiniLisp.Proofs.Session.Heap
import MiniLisp.Proofs.Session.Visits

/-!
# What calls and imports bind

A call evaluates the body of a closure in a new frame that binds its parameters, and an import evaluates
its body in a new frame that binds the names of a bundle.  Each parameter is bound to the argument at its
place because the parameters are distinct: analysis rejects functions with repeated ones, and all closures
of a session come from analysed functions.
-/

namespace MiniLisp

/-! ## Entries of a new frame -/

/-- The entries of a call stand at the places of the parameters. -/
theorem getElem?_bindArguments (parameters : List String) (args : List Value) (i : Nat) :
    (bindArguments parameters args)[i]? =
      parameters[i]?.map fun x => (x, args[i]?.getD .unspecified) := by
  induction parameters generalizing args i with
  | nil => rfl
  | cons p ps ih =>
    cases args with
    | nil =>
      cases i with
      | zero => rfl
      | succ i => simpa [bindArguments] using ih [] i
    | cons w ws =>
      cases i with
      | zero => rfl
      | succ i => simpa [bindArguments] using ih ws i

theorem names_bindArguments (parameters : List String) (args : List Value) :
    (bindArguments parameters args).map (·.1) = parameters := by
  refine List.ext_getElem? fun i => ?_
  rw [List.getElem?_map, getElem?_bindArguments, Option.map_map]
  exact Option.map_id'

/-- With distinct parameters, each is bound to the argument at its place. -/
theorem lookup_bindArguments {parameters : List String} (h : parameters.Nodup) (args : List Value)
    (x : String) (v : Value) :
    (bindArguments parameters args).reverse.lookup x = some v ↔
      ∃ i : Nat, parameters[i]? = some x ∧ v = args[i]?.getD .unspecified := by
  have hnames : ((bindArguments parameters args).reverse.map (·.1)).Nodup := by
    rw [List.map_reverse, names_bindArguments]
    exact List.nodup_reverse.mpr h
  have hplaces : (bindArguments parameters args).reverse.lookup x = some v ↔
      (x, v) ∈ bindArguments parameters args := by
    rw [← List.mem_reverse]
    exact ⟨Bindings.mem_of_lookup, Bindings.lookup_of_mem hnames⟩
  rw [hplaces, List.mem_iff_getElem?]
  simp only [getElem?_bindArguments, Option.map_eq_some_iff, Prod.mk.injEq]
  constructor
  · rintro ⟨i, _, hx, rfl, rfl⟩
    exact ⟨i, hx, rfl⟩
  · rintro ⟨i, hx, rfl⟩
    exact ⟨i, x, hx, rfl, rfl⟩

/-! ## Opening a frame -/

/-- The second store is the first one with one more frame, which stands inside another one and binds
just these names. -/
structure Store.Opens (σ τ : Store) (parent : FrameId) (binds : String → Value → Prop) : Prop where
  size : τ.frames.size = σ.frames.size + 1
  older : ∀ g < σ.frames.size, τ.frames[g]? = σ.frames[g]?
  parent : τ.parent? σ.frames.size = some parent
  binds : ∀ x v, τ.Binds σ.frames.size x v ↔ binds x v
  closures : τ.closures = σ.closures
  sink : τ.sink = σ.sink

theorem Store.opens_addFrame (σ : Store) (parent : FrameId) (entries : List (String × Value)) :
    σ.Opens (σ.addFrame (some parent) entries).2 parent
      fun x v => entries.reverse.lookup x = some v where
  size := size_addFrame
  older _ hg := frames_addFrame_of_lt hg
  parent := by rw [parent?_addFrame, if_pos rfl]
  binds x v := by rw [Binds, localBindings_addFrame, if_pos rfl, Bindings.get?_ofList]
  closures := rfl
  sink := rfl

/-- Every call of the closure evaluates its body in a new frame inside the one that it was made in, and
this frame binds each parameter to the argument at its place. -/
def Interpreter.BindsByPlace (ip : Interpreter) (σ : Store) (id : ClosureId) : Prop :=
  ∃ c : Closure, σ.closures[id]? = some c ∧ c.parameters.Nodup ∧
    ∀ levels args, ∃ τ,
      ip.applyAt levels (.closure id) args σ = ip.eval (levels - 1) c.body σ.frames.size τ ∧
      σ.Opens τ c.scope fun x v =>
        ∃ i : Nat, c.parameters[i]? = some x ∧ v = args[i]?.getD .unspecified

theorem Interpreter.bindsByPlace {ip : Interpreter} {σ : Store} {id : ClosureId} {c : Closure}
    (hc : σ.closures[id]? = some c) (hdistinct : c.parameters.Nodup) : ip.BindsByPlace σ id := by
  refine ⟨c, hc, hdistinct, fun levels args => ?_⟩
  have hopens := σ.opens_addFrame c.scope (bindArguments c.parameters args)
  refine ⟨_, ?_, { hopens with binds := fun x v => ?_ }⟩
  · rw [applyAt_eq_applyWith]
    unfold applyWith
    dsimp only
    rw [hc]
    rfl
  · exact (hopens.binds x v).trans (lookup_bindArguments hdistinct args x v)

/-- Making values opens no frame. -/
theorem Store.StampsOnly.opens {σ σ' τ : Store} {parent : FrameId} {binds : String → Value → Prop}
    (hstamps : σ.StampsOnly σ') (h : σ'.Opens τ parent binds) : σ.Opens τ parent binds := by
  have hframes : σ.frames = σ'.frames := hstamps.frames.symm
  refine ⟨?_, ?_, ?_, ?_, h.closures.trans hstamps.closures, h.sink.trans hstamps.sink⟩
  · rw [hframes]
    exact h.size
  · rw [hframes]
    exact h.older
  · rw [hframes]
    exact h.parent
  · rw [hframes]
    exact h.binds

/-- An import evaluates its body in a new frame inside the scope, which binds the names of the bundle. -/
theorem Interpreter.import_opens (ip : Interpreter) {name : String} {bundle : Bundle}
    (hbundle : ip.bundles name = some bundle) (n : Nat) (body : Expr) (scope : FrameId) (σ : Store) :
    ∃ τ, ip.eval (n + 1) (.withBundle name body) scope σ = ip.eval n body σ.frames.size τ ∧
      σ.Opens τ scope fun x v => (bundle.make σ).1.reverse.lookup x = some v := by
  have hstamps := bundle.make_stampsOnly σ
  refine ⟨((bundle.make σ).2.addFrame (some scope) (bundle.make σ).1).2, ?_,
    hstamps.opens ((bundle.make σ).2.opens_addFrame scope (bundle.make σ).1)⟩
  have hopened : openBundle ip.bundles scope name σ =
      openFrame scope (bundle.make σ).1 (bundle.make σ).2 := by
    unfold openBundle
    rw [hbundle]
  rw [Interpreter.eval, Action.bind_apply, hopened, ← hstamps.frames]
  rfl

/-! ## Functions come from programs -/

namespace Expr

/-- The expression is what a datum stands for, or a literal. -/
def Analysed (e : Expr) : Prop := (∃ d, ofDatum d = .ok e) ∨ ∃ v, e = .literal v

variable {e e' body : Expr} {names : List String}

theorem analysed_of_standsFor {d : Datum} (h : d.StandsFor e) : e.Analysed :=
  .inl ⟨d, ofDatum_of_standsFor h⟩

theorem analysed_of_standFor {ds : List Datum} {es : List Expr} (h : Datum.StandFor ds es) :
    ∀ e ∈ es, e.Analysed := by
  induction es generalizing ds with
  | nil => exact fun _ => nofun
  | cons e es ih =>
    cases h with
    | cons h hrest => exact List.forall_mem_cons.mpr ⟨analysed_of_standsFor h, ih hrest⟩

/-- The parts of an analysed expression were analysed. -/
theorem Analysed.parts (h : e.Analysed) :
    (∀ e' ∈ e.operands, e'.Analysed) ∧ ∀ e' ∈ e.bodies, e'.Analysed := by
  rcases h with ⟨d, hd⟩ | ⟨v, rfl⟩
  case inr => exact ⟨fun _ => nofun, fun _ => nofun⟩
  -- each rule gives the data of the operands and bodies along with their expressions
  cases ofDatum_eq_ok_iff.mp hd with
  | num x => exact ⟨fun _ => nofun, fun _ => nofun⟩
  | str text => exact ⟨fun _ => nofun, fun _ => nofun⟩
  | sym name => exact ⟨fun _ => nofun, fun _ => nofun⟩
  | quote _ d => exact ⟨fun _ => nofun, fun _ => nofun⟩
  | empty => exact ⟨List.forall_mem_singleton.mpr (.inr ⟨_, rfl⟩), fun _ => nofun⟩
  | ifThen _ htest hyes =>
    refine ⟨?_, fun _ => nofun⟩
    simp [analysed_of_standsFor htest, analysed_of_standsFor hyes]
  | ifElse _ htest hyes hno =>
    refine ⟨?_, fun _ => nofun⟩
    simp [analysed_of_standsFor htest, analysed_of_standsFor hyes, analysed_of_standsFor hno]
  | assign _ _ hvalue =>
    exact ⟨List.forall_mem_singleton.mpr (analysed_of_standsFor hvalue), fun _ => nofun⟩
  | define _ _ hvalue =>
    exact ⟨List.forall_mem_singleton.mpr (analysed_of_standsFor hvalue), fun _ => nofun⟩
  | lambda _ _ hbody =>
    exact ⟨fun _ => nofun, List.forall_mem_singleton.mpr (analysed_of_standsFor hbody)⟩
  | sequence _ hsteps => exact ⟨analysed_of_standFor hsteps, fun _ => nofun⟩
  | withBundle _ hbody =>
    exact ⟨fun _ => nofun, List.forall_mem_singleton.mpr (analysed_of_standsFor hbody)⟩
  | @named symbol _ _ _ hoperands =>
    have hname : (name symbol).Analysed := analysed_of_standsFor (.sym symbol)
    exact ⟨List.forall_mem_cons.mpr ⟨hname, analysed_of_standFor hoperands⟩, fun _ => nofun⟩
  | application _ hhead hoperands =>
    have hcallee := analysed_of_standsFor hhead
    exact ⟨List.forall_mem_cons.mpr ⟨hcallee, analysed_of_standFor hoperands⟩, fun _ => nofun⟩

/-- The parameters of an analysed function are distinct. -/
theorem Analysed.nodup (h : (lambda names body).Analysed) : names.Nodup := by
  rcases h with ⟨d, hd⟩ | ⟨v, hv⟩
  · cases ofDatum_eq_ok_iff.mp hd with
    | lambda _ hnames _ => exact hnames
  · cases hv

end Expr

/-- All functions of the store were analysed. -/
def Store.FunctionsAnalysed (σ : Store) : Prop :=
  ∀ (id : ClosureId) (c : Closure), σ.closures[id]? = some c →
    (Expr.lambda c.parameters c.body).Analysed

theorem Store.FunctionsAnalysed.congr {σ τ : Store} (h : σ.FunctionsAnalysed)
    (hclosures : τ.closures = σ.closures) : τ.FunctionsAnalysed := by
  intro id c hc
  exact h id c (hclosures ▸ hc)

/-- Runs of analysed expressions make only functions that were analysed. -/
def Invariant.functions (ip : Interpreter) : Invariant ip where
  state := Store.FunctionsAnalysed
  change _ _ := True
  value _ _ := True
  runs _ _ e := e.Analysed
  refl _ := ⟨⟩
  trans _ _ := ⟨⟩
  value_mono _ _ := ⟨⟩
  runs_mono _ he := he
  operand he hmem := he.parts.1 _ hmem
  nil _ := ⟨⟩
  unspecified _ := ⟨⟩
  literal _ := ⟨⟩
  quote _ := ⟨⟩
  lookup _ _ _ := ⟨⟩
  assign {σ f x e v} hσ _ _ := by
    refine ⟨?_, ⟨⟩⟩
    rcases σ.assign_cases f x v with hsame | ⟨g, _, _, hdefine⟩
    · rwa [hsame]
    · rw [hdefine]
      exact hσ.congr rfl
  define hσ _ _ := ⟨hσ.congr rfl, ⟨⟩⟩
  closure {σ f parameters body} hσ he := by
    refine ⟨?_, ⟨⟩, ⟨⟩⟩
    intro id c hc
    rcases Store.closure_of_addClosure hc with rfl | hc
    · exact he
    · exact hσ id c hc
  bundle {σ f name bundle body} hσ he _ :=
    ⟨hσ.congr (bundle.make_stampsOnly σ).closures, ⟨⟩, he.parts.2 body List.mem_cons_self⟩
  call {σ id c args} hσ _ hc _ :=
    ⟨hσ.congr rfl, ⟨⟩, (hσ id c hc).parts.2 c.body List.mem_cons_self⟩
  primitive {σ p args} hσ _ _ := by
    refine ⟨hσ.congr ?_, ⟨⟩, fun _ _ => ⟨⟩⟩
    rw [p.call_sinkOnly args σ]

/-- Hosts make no functions at all. -/
def HostInvariant.functions (ip : Interpreter) : HostInvariant ip where
  toInvariant := Invariant.functions ip
  scope _ _ := True
  scope_mono _ _ := ⟨⟩
  parent _ _ _ := ⟨⟩
  analysed _ he := .inl ⟨_, he⟩
  blank _ := .inr ⟨_, rfl⟩
  supply {σ f} s hσ _ := ⟨hσ.congr ((s.blueprint f).make_stampsOnly σ).closures, ⟨⟩, ⟨⟩⟩
  frame hσ _ _ := ⟨hσ.congr rfl, ⟨⟩, ⟨⟩⟩

/-- In every session all functions were analysed from the start. -/
theorem Host.holds_functions (host : Host) :
    (HostInvariant.functions host.session.interpreter).Holds host.session := by
  have hload : ∀ σ : Store, σ.FunctionsAnalysed →
      (host.loader.loadPrelude Store.rootFrame σ).2.FunctionsAnalysed := by
    intro σ hσ
    have hloaded : (Invariant.functions host.loader).Keeps (fun _ _ => True) σ
        (host.loader.loadPrelude Store.rootFrame σ) :=
      Invariant.keeps_loadUnit hσ fun _ _ _ _ e he => .inl ⟨_, he⟩
    exact hloaded.state
  have hmakes : ∀ bundle, Registry.Makes Store.FunctionsAnalysed (fun _ _ => True) bundle :=
    fun bundle σ hσ => ⟨hσ.congr (bundle.make_stampsOnly σ).closures, fun _ _ => ⟨⟩, fun _ _ => ⟨⟩⟩
  have hroot : (Store.root host.sink).FunctionsAnalysed := by
    intro id c hc
    cases hc
  have hstart := host.start hroot hload fun _ _ source _ => hmakes source.2
  exact ⟨rfl, hstart.1, ⟨⟩, fun _ _ => ⟨⟩, fun _ => nofun⟩

/-! ## Whole sessions -/

/-- The closures in what is bound, offered and given were made. -/
theorem Interpreter.Present.made {ip : Interpreter} {σ : Store} {given : Value → Prop} {v : Value}
    (h : ip.Present σ given v) (hσ : (Invariant.heap ip).state σ) (hgiven : ∀ v, given v → σ.Knows v) :
    σ.Knows v := by
  cases h with
  | bound hbinds => exact hσ.1.bound _ _ _ hbinds
  | offered hbundle hentry hgives =>
    intro id hid
    exact hσ.2 _ _ hbundle _ hentry id (hgives.holds hid)
  | given h => exact hgiven v h

theorem Store.Knows.bindsByPlace {ip : Interpreter} {σ : Store} {v : Value} (hv : σ.Knows v)
    (hσ : σ.FunctionsAnalysed) {id : ClosureId} (hid : v.Holds id) : ip.BindsByPlace σ id := by
  obtain ⟨c, hc, _⟩ := hv id hid
  exact ip.bindsByPlace hc (hσ id c hc).nodup

/-- Wherever a session comes to, between its steps or inside one of them, every closure in a frame, a
bundle, a list or a result was made from a function with distinct parameters, and every call of it
evaluates its body in a new frame that binds each parameter to the argument at its place, or to the
unspecified value.  Every import evaluates its body in a new frame that binds the names of the bundle to
their last values. -/
theorem Session.calls_bind (host : Host) (steps : List Step) :
    let reports := (host.session.reportAll steps).1
    let s := (host.session.reportAll steps).2
    (∀ σ given, s.Comes reports σ given → ∀ v, s.interpreter.Present σ given v →
      ∀ id, v.Holds id → s.interpreter.BindsByPlace σ id) ∧
    ∀ name bundle, s.interpreter.bundles name = some bundle → ∀ n body scope σ, ∃ τ,
      s.interpreter.eval (n + 1) (.withBundle name body) scope σ =
        s.interpreter.eval n body σ.frames.size τ ∧
      σ.Opens τ scope fun x v => (bundle.make σ).1.reverse.lookup x = some v := by
  intro reports s
  constructor
  · intro σ given hcomes v hv id hid
    obtain ⟨hheap, _, hgiven⟩ := HostInvariant.comes host.holds_heap steps hcomes
    obtain ⟨hfunctions, _, _⟩ := HostInvariant.comes host.holds_functions steps hcomes
    have hsame : s.interpreter = host.session.interpreter :=
      (HostInvariant.reportAll host.holds_heap steps).1.interpreter
    exact (hv.made (hsame ▸ hheap) hgiven).bindsByPlace hfunctions hid
  · intro name bundle hbundle n body scope σ
    exact s.interpreter.import_opens hbundle n body scope σ

/-- A function of two parameters that is called with one argument, and a bundle that offers a name
twice. -/
theorem Session.calls_bind_second :
    let host : Host := ⟨⟨20, 5⟩, .registered [("pair", .described [("x", .str "a"), ("x", .str "b")])],
      .unlimited, false⟩
    let steps := [Step.run 0 "(define second (lambda (x y) y))"]
    let s := (host.session.reportAll steps).2
    let m : Moment := ⟨19, .apply (.closure 0) [.str "a"], s.store, []⟩
    s.Visits (.run 0 "(second 'a')") m ∧ s.interpreter.BindsByPlace s.store 0 ∧
      s.interpreter.BindsByPlace m.store 0 ∧
      ∃ τ, s.interpreter.eval 1 (.withBundle "pair" (.name "x")) 0 s.store =
          s.interpreter.eval 0 (.name "x") s.store.frames.size τ ∧
        τ.Binds s.store.frames.size "x" (.str "b") := by
  intro host steps
  let e := Expr.application (.name "second") [.literal (.str "a")]
  let bundle : Bundle := [("x", .value (.str "a")), ("x", .value (.str "b"))]
  let ip := host.session.interpreter
  have hdefine : ip.read "(define second (lambda (x y) y))" = .ok [.list [.sym "define",
      .sym "second", .list [.sym "lambda", .list [.sym "x", .sym "y"], .sym "y"]]] :=
    Interpreter.read_of_scan rfl rfl (by decide)
  have hcall : ip.read "(second 'a')" = .ok [.list [.sym "second", .str "a"]] :=
    Interpreter.read_of_scan rfl rfl (by decide)
  have hanalyze : ip.analyze "(second 'a')" = .ok ([] ++ e :: []) := Interpreter.analyze_eq_ok hcall
  have hcalls := Session.calls_bind host steps
  have hsession : (host.session.reportAll steps).2 = _ :=
    Session.snd_perform_run (Interpreter.analyze_eq_ok hdefine) 0
  have hsame : (host.session.reportAll steps).2.interpreter = ip := by rw [hsession]
  have hbound : (host.session.reportAll steps).2.store.Binds 0 "second" (.closure 0) := by
    rw [hsession]
    rfl
  have hframe : (host.session.reportAll steps).2.frame 0 = 0 := by
    rw [hsession]
    rfl
  -- how the first step has come to this does not matter any more
  generalize host.session.reportAll steps = outcome at *
  intro s m
  obtain ⟨hfound, himports⟩ := hcalls
  have hvisits : s.Visits (.run 0 "(second 'a')") m := by
    have hstarts : s.Starts (.run 0 "(second 'a')")
        ⟨s.interpreter.limits.eval, .evaluate e (s.frame 0), s.store, []⟩ :=
      .run (hsame ▸ hanalyze) rfl
    have hcallee : s.interpreter.eval 19 (.name "second") (s.frame 0) s.store =
        (.ok (.closure 0), s.store) := by
      show lookupName (s.frame 0) "second" s.store = _
      unfold lookupName
      rw [hframe, hbound.lookup?]
    rw [hsame] at hstarts
    exact ⟨_, hstarts, .single (.call hcallee rfl)⟩
  obtain ⟨τ, heval, hopens⟩ := himports "pair" bundle (hsame ▸ rfl) 0 (.name "x") 0 s.store
  exact ⟨hvisits, hfound _ _ .between _ (.bound hbound) 0 .closure,
    hfound _ _ (.inside hvisits) _ (.given (.inr List.mem_cons_self)) 0 .closure, τ, heval,
    (hopens.binds "x" (.str "b")).mpr rfl⟩

end MiniLisp
