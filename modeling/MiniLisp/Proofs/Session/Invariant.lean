import MiniLisp.Proofs.Program.Composition
import MiniLisp.Session.Setup

/-!
# Invariants of sessions

A host runs programs, and it changes the store itself: it defines and assigns names, opens scopes, and
passes values that it describes.  A `HostInvariant` is an invariant of runs with the obligations for
these steps.  `HostInvariant.perform` says that every step of a session keeps it, whatever the step
answers, and `HostInvariant.reportAll` that every sequence of steps does.
-/

namespace MiniLisp

variable {α β : Type} {ip : Interpreter}

/-! ## Programs -/

namespace Invariant

variable {I : Invariant ip} {good : Store → α → Prop} {σ : Store} {scope : FrameId} {text : String}

theorem keeps_ofExcept {r : Except Error α} (hstate : I.state σ) (h : ∀ a, r = .ok a → good σ a) :
    I.Keeps good σ (Action.ofExcept r σ) :=
  ⟨hstate, I.refl σ, h⟩

theorem keeps_evaluate {e : Expr} (hstate : I.state σ) (hruns : I.runs σ scope e) :
    I.Keeps I.value σ (ip.evaluate e scope σ) :=
  I.eval ip.limits.eval hstate hruns

theorem keeps_evaluateAll {es : List Expr} (hstate : I.state σ) (hes : ∀ e ∈ es, I.runs σ scope e) :
    I.Keeps I.value σ (ip.evaluateAll es scope σ) := by
  refine .foldlM hstate (I.unspecified σ) ?_
  intro e he τ hτ hστ
  exact keeps_evaluate hτ (I.runs_mono hστ (hes e he))

/-- A program keeps an invariant if its forms can be evaluated under it. -/
theorem keeps_run (hstate : I.state σ)
    (hforms : ∀ forms, ip.read text = .ok forms →
      ∀ d ∈ forms, ∀ e, Expr.ofDatum d = .ok e → I.runs σ scope e) :
    I.Keeps I.value σ (ip.run text scope σ) := by
  have hanalysed : I.Keeps (fun τ es => ∀ e ∈ es, I.runs τ scope e) σ
      (Action.ofExcept (ip.analyze text) σ) := by
    refine keeps_ofExcept hstate fun es hes e he => ?_
    obtain ⟨forms, hread, hmem⟩ := Interpreter.exists_of_mem_analyze hes
    obtain ⟨d, hd, hde⟩ := hmem e he
    exact hforms forms hread d hd e hde
  refine hanalysed.bind ?_
  intro es τ hτ _ hes
  exact keeps_evaluateAll hτ hes

/-- So does a unit, if its first form can. -/
theorem keeps_loadUnit (hstate : I.state σ)
    (hforms : ∀ forms, ip.read text = .ok forms →
      ∀ d ∈ forms, ∀ e, Expr.ofDatum d = .ok e → I.runs σ scope e) :
    I.Keeps I.value σ (ip.loadUnit text scope σ) := by
  have hread : I.Keeps (fun τ forms => ∀ d ∈ forms, ∀ e, Expr.ofDatum d = .ok e → I.runs τ scope e) σ
      (Action.ofExcept (ip.read text) σ) := keeps_ofExcept hstate hforms
  refine hread.bind ?_
  intro forms τ hτ _ hruns
  cases forms with
  | nil => exact .ok hτ (I.refl τ) (I.unspecified τ)
  | cons form forms =>
    have hform : I.Keeps (fun υ e => I.runs υ scope e) τ
        (Action.ofExcept (Expr.ofDatum form) τ) :=
      keeps_ofExcept hτ (hruns form List.mem_cons_self)
    refine hform.bind ?_
    intro e υ hυ _ he
    exact keeps_evaluate hυ he

end Invariant

/-! ## Steps of a host -/

/-- An action changes nothing but the store of a session. -/
theorem Session.snd_act (s : Session) (action : Action α) (answer : α → Answer) :
    (s.act action answer).2 = { s with store := (action s.store).2 } := by
  unfold Session.act
  rcases action s.store with ⟨result, σ⟩
  cases result <;> rfl

/-- What a program does to a session is what its expressions do to the store. -/
theorem Session.snd_perform_run {s : Session} {text : String} {es : List Expr}
    (h : s.interpreter.analyze text = .ok es) (scope : Nat) :
    (s.perform (.run scope text)).2 =
      { s with store := (s.interpreter.evaluateAll es (s.frame scope) s.store).2 } := by
  rw [perform, snd_act, Interpreter.run_of_analyze_ok h]

/-- An invariant of runs that a host keeps too. -/
structure HostInvariant (ip : Interpreter) extends Invariant ip where
  /-- What holds of a frame that the host has a number for. -/
  scope : Store → FrameId → Prop
  scope_mono : ∀ {σ τ f}, change σ τ → scope σ f → scope τ f
  parent : ∀ {σ f p}, state σ → scope σ f → σ.parent? f = some p → scope σ p
  analysed : ∀ {σ f d e}, scope σ f → Expr.ofDatum d = .ok e → runs σ f e
  blank : ∀ {σ f}, scope σ f → runs σ f (.literal .unspecified)
  supply : ∀ {σ f} (s : Supply), state σ → scope σ f →
    let made := (s.blueprint f).make σ
    state made.2 ∧ change σ made.2 ∧ value made.2 made.1
  frame : ∀ {σ} {parent : Option FrameId} {entries}, state σ → (∀ p, parent = some p → scope σ p) →
    (∀ entry ∈ entries, value σ entry.2) →
    let opened := σ.addFrame parent entries
    state opened.2 ∧ change σ opened.2 ∧ scope opened.2 opened.1

namespace HostInvariant

variable {I : HostInvariant ip} {good : Store → α → Prop} {σ : Store} {f : FrameId} {x : String}
variable {v : Value} {s : Session}

/-! ### What the host does to the store -/

theorem keeps_lookupName (hstate : I.state σ) (hf : I.scope σ f) :
    I.Keeps I.value σ (lookupName f x σ) :=
  Invariant.keeps_lookupName hstate (I.analysed (d := .sym x) hf rfl)

/-- The host defines a name as a definition in the scope does. -/
theorem keeps_define (hstate : I.state σ) (hf : I.scope σ f) (hv : I.value σ v) :
    I.state (σ.define f x v) ∧ I.change σ (σ.define f x v) :=
  I.define hstate (I.analysed (d := .list [.sym "define", .sym x, .list []]) hf rfl) hv

/-- The host assigns a name as an assignment in the scope does. -/
theorem keeps_assign (hstate : I.state σ) (hf : I.scope σ f) (hv : I.value σ v) :
    I.state (σ.assign f x v).2 ∧ I.change σ (σ.assign f x v).2 :=
  I.assign hstate (I.analysed (d := .list [.sym "set!", .sym x, .list []]) hf rfl) hv

theorem keeps_make (supply : Supply) (hstate : I.state σ) (hf : I.scope σ f) :
    I.Keeps I.value σ (supply.make f σ) := by
  obtain ⟨hmade, hchange, hvalue⟩ := I.supply supply hstate hf
  exact .ok hmade hchange hvalue

theorem keeps_makeAll (supplies : List Supply) (hstate : I.state σ) (hf : I.scope σ f) :
    I.Keeps (fun τ vs => ∀ v ∈ vs, I.value τ v) σ (Supply.makeAll f supplies σ) :=
  .mapM hstate fun supply _ _ hτ hστ => keeps_make supply hτ (I.scope_mono hστ hf)

/-- Bindings are made in order, and the earlier ones stay good while the later ones are made. -/
theorem keeps_makeBundle (bindings : List (String × Supply)) (hstate : I.state σ)
    (hf : I.scope σ f) :
    let made := (Supply.bundle f bindings).make σ
    I.state made.2 ∧ I.change σ made.2 ∧ ∀ entry ∈ made.1, I.value made.2 entry.2 := by
  induction bindings generalizing σ with
  | nil => exact ⟨hstate, I.refl σ, fun _ => nofun⟩
  | cons binding rest ih =>
    obtain ⟨name, supply⟩ := binding
    obtain ⟨hfirst, hchange, hvalue⟩ := I.supply supply hstate hf
    obtain ⟨hlast, hchanges, hvalues⟩ := ih hfirst (I.scope_mono hchange hf)
    refine ⟨hlast, I.trans hchange hchanges, ?_⟩
    intro entry hentry
    rcases List.mem_cons.mp hentry with rfl | hentry
    · exact I.value_mono hchanges hvalue
    · exact hvalues entry hentry

theorem keeps_openFrame (hstate : I.state σ) (hf : I.scope σ f) :
    I.Keeps I.scope σ (openFrame f [] σ) := by
  have hparent : ∀ p, some f = some p → I.scope σ p := by
    rintro p hp
    obtain rfl := Option.some.inj hp
    exact hf
  have hentries : ∀ entry ∈ ([] : List (String × Value)), I.value σ entry.2 := fun _ => nofun
  obtain ⟨hopened, hchange, hscope⟩ := I.frame hstate hparent hentries
  exact .ok hopened hchange hscope

theorem keeps_openRoot (bindings : List (String × Supply)) (hstate : I.state σ)
    (hroot : I.scope σ Store.rootFrame) : I.Keeps I.scope σ (Session.openRoot bindings σ) := by
  obtain ⟨hmade, hchange, hvalues⟩ := keeps_makeBundle bindings hstate hroot
  have hparent : ∀ p, (none : Option FrameId) = some p →
      I.scope ((Supply.bundle Store.rootFrame bindings).make σ).2 p := fun _ => nofun
  obtain ⟨hopened, hchange', hscope⟩ := I.frame hmade hparent hvalues
  exact .ok hopened (I.trans hchange hchange') hscope

/-! ### Sessions -/

/-- The session is in good order: its store and its scopes are good, and the expressions it keeps were
analysed. -/
structure Holds (I : HostInvariant ip) (s : Session) : Prop where
  interpreter : s.interpreter = ip
  state : I.state s.store
  root : I.scope s.store Store.rootFrame
  scopes : ∀ f ∈ s.scopes, I.scope s.store f
  program : ∀ e ∈ s.program, ∃ d, Expr.ofDatum d = .ok e

theorem Holds.frame (h : I.Holds s) (scope : Nat) : I.scope s.store (s.frame scope) := by
  rw [Session.frame]
  cases hf : s.scopes[scope]? with
  | none => exact h.root
  | some f => exact h.scopes f (Array.mem_of_getElem? hf)

/-- What a step does to a session in good order. -/
structure Performed (I : HostInvariant ip) (s : Session) (outcome : Answer × Session) : Prop where
  holds : I.Holds outcome.2
  change : I.change s.store outcome.2.store
  value : ∀ v, outcome.1 = .value v → I.value outcome.2.store v

/-- A step that leaves the session as it is and shows no value. -/
theorem Performed.same {answer : Answer} (h : I.Holds s) (hanswer : ∀ v, answer ≠ .value v) :
    I.Performed s (answer, s) :=
  ⟨h, I.refl s.store, fun v hv => absurd hv (hanswer v)⟩

/-- The session with a later store. -/
theorem Holds.withStore (h : I.Holds s) (hstate : I.state σ) (hchange : I.change s.store σ) :
    I.Holds { s with store := σ } where
  interpreter := h.interpreter
  state := hstate
  root := I.scope_mono hchange h.root
  scopes f hf := I.scope_mono hchange (h.scopes f hf)
  program := h.program

/-- The session with the expressions of one more text. -/
theorem Holds.compile {text : String} {es : List Expr} (h : I.Holds s)
    (hes : ip.analyze text = .ok es) : I.Holds { s with program := s.program.appendList es } where
  interpreter := h.interpreter
  state := h.state
  root := h.root
  scopes := h.scopes
  program e he := by
    obtain ⟨forms, _, hmem⟩ := Interpreter.exists_of_mem_analyze hes
    rw [← Array.mem_toList_iff, Array.appendList_eq_append, Array.toList_appendList,
      List.mem_append] at he
    rcases he with he | he
    · exact h.program e (Array.mem_toList_iff.mp he)
    · obtain ⟨d, _, hd⟩ := hmem e he
      exact ⟨d, hd⟩

theorem Performed.act {action : Action α} {answer : α → Answer} (h : I.Holds s)
    (haction : I.Keeps good s.store (action s.store))
    (hanswer : ∀ a τ, good τ a → ∀ v, answer a = .value v → I.value τ v) :
    I.Performed s (s.act action answer) := by
  unfold Session.act
  rcases hrun : action s.store with ⟨result, σ⟩
  rw [hrun] at haction
  have hholds := h.withStore haction.state haction.change
  cases result with
  | ok a => exact ⟨hholds, haction.change, hanswer a σ (haction.result a rfl)⟩
  | error e => exact ⟨hholds, haction.change, fun _ => nofun⟩

/-- An action that shows no value. -/
theorem Performed.act_hidden {action : Action α} {answer : α → Answer} (h : I.Holds s)
    (haction : I.Keeps (fun _ _ => True) s.store (action s.store))
    (hanswer : ∀ a v, answer a ≠ .value v) : I.Performed s (s.act action answer) :=
  .act h haction fun a _ _ v hv => absurd hv (hanswer a v)

/-- An action whose value is shown. -/
theorem Performed.act_value {action : Action Value} (h : I.Holds s)
    (haction : I.Keeps I.value s.store (action s.store)) : I.Performed s (s.act action .value) := by
  refine .act h haction ?_
  intro v τ hv w hw
  obtain rfl := Answer.value.inj hw
  exact hv

theorem Performed.enter {action : Action FrameId} (h : I.Holds s)
    (haction : I.Keeps I.scope s.store (action s.store)) : I.Performed s (s.enter action) := by
  unfold Session.enter
  rcases hrun : action s.store with ⟨result, σ⟩
  rw [hrun] at haction
  have hholds := h.withStore haction.state haction.change
  cases result with
  | ok f =>
    refine ⟨{ hholds with scopes := ?_ }, haction.change, fun _ => nofun⟩
    intro g hg
    rcases Array.mem_push.mp hg with hg | rfl
    · exact hholds.scopes g hg
    · exact haction.result g rfl
  | error e => exact ⟨hholds, haction.change, fun _ => nofun⟩

/-- Every step keeps the session in good order. -/
theorem perform (h : I.Holds s) (step : Step) : I.Performed s (s.perform step) := by
  have hforms : ∀ {text scope} forms, ip.read text = .ok forms →
      ∀ d ∈ forms, ∀ e, Expr.ofDatum d = .ok e → I.runs s.store (s.frame scope) e := by
    intro _ scope _ _ d _ e he
    exact I.analysed (h.frame scope) he
  have hsame : s.interpreter = ip := h.interpreter
  subst hsame
  cases step with
  | run scope text =>
    exact .act_value h (Invariant.keeps_run h.state hforms)
  | load scope text =>
    exact .act_value h (Invariant.keeps_loadUnit h.state hforms)
  | loadPrelude scope =>
    exact .act_value h (Invariant.keeps_loadUnit h.state hforms)
  | compile text =>
    simp only [Session.perform]
    cases hes : s.interpreter.analyze text with
    | error e => exact .same h fun _ => nofun
    | ok es => exact ⟨h.compile hes, I.refl s.store, fun _ => nofun⟩
  | execute scope index =>
    -- an index beyond the program stands for an empty one
    have hruns : I.runs s.store (s.frame scope) (s.program[index]?.getD (.literal .unspecified)) := by
      cases he : s.program[index]? with
      | none => exact I.blank (h.frame scope)
      | some e =>
        obtain ⟨d, hd⟩ := h.program e (Array.mem_of_getElem? he)
        exact I.analysed (h.frame scope) hd
    exact .act_value h (Invariant.keeps_evaluate h.state hruns)
  | apply scope callee args =>
    simp only [Session.perform]
    refine .act_value h ?_
    -- values of the step are made one after the other, so each finds the store of the one before
    refine (keeps_make callee h.state (h.frame scope)).bind ?_
    intro v τ hτ hστ hv
    refine (keeps_makeAll args hτ (I.scope_mono hστ (h.frame scope))).bind ?_
    intro vs υ hυ hτυ hvs
    exact I.applyAt _ hυ (I.value_mono hτυ hv) hvs
  | newScope bindings => exact .enter h (keeps_openRoot bindings h.state h.root)
  | childScope scope => exact .enter h (keeps_openFrame h.state (h.frame scope))
  | parentScope scope =>
    simp only [Session.perform]
    cases hp : s.store.parent? (s.frame scope) with
    | none => exact .same h fun _ => nofun
    | some p =>
      exact .enter h (.ok h.state (I.refl s.store) (I.parent h.state (h.frame scope) hp))
  | lookup scope name =>
    exact .act_value h (keeps_lookupName h.state (h.frame scope))
  | define scope name value =>
    simp only [Session.perform]
    refine .act_hidden h ?_ fun _ _ => nofun
    refine (keeps_make value h.state (h.frame scope)).bind ?_
    intro v τ hτ hστ hv
    obtain ⟨hdefined, hchange⟩ := keeps_define hτ (I.scope_mono hστ (h.frame scope)) hv
    exact .ok hdefined hchange ⟨⟩
  | assign scope name value =>
    simp only [Session.perform]
    refine .act_hidden h ?_ fun _ _ => nofun
    refine (keeps_make value h.state (h.frame scope)).bind ?_
    intro v τ hτ hστ hv
    obtain ⟨hassigned, hchange⟩ := keeps_assign hτ (I.scope_mono hστ (h.frame scope)) hv
    exact .ok hassigned hchange ⟨⟩
  | inspect scope name =>
    exact .act h (keeps_lookupName h.state (h.frame scope)) fun _ _ _ _ => nofun
  | contains scope name => exact .same h fun _ => nofun
  | localBindings scope => exact .same h fun _ => nofun
  | allBindings scope => exact .same h fun _ => nofun
  | describe scope => exact .same h fun _ => nofun
  | bundleNames => exact .same h fun _ => nofun
  | showBundle name => exact .same h fun _ => nofun

/-- What a sequence of steps does to a session in good order. -/
theorem reportAll (h : I.Holds s) (steps : List Step) :
    let outcome := s.reportAll steps
    I.Holds outcome.2 ∧ I.change s.store outcome.2.store ∧
      ∀ report ∈ outcome.1, ∀ v, report.answer = .value v → I.value outcome.2.store v := by
  induction steps generalizing s with
  | nil => exact ⟨h, I.refl s.store, fun _ => nofun⟩
  | cons step steps ih =>
    have hstep := I.perform h step
    obtain ⟨hlast, hchange, hvalues⟩ := ih hstep.holds
    refine ⟨hlast, I.trans hstep.change hchange, ?_⟩
    intro report hreport v hv
    rcases List.mem_cons.mp hreport with rfl | hreport
    · exact I.value_mono hchange (hstep.value v hv)
    · exact hvalues report hreport v hv

end HostInvariant

end MiniLisp
