import MiniLisp.Proofs.Program.Textual
import MiniLisp.Proofs.Session.Start

/-!
# What sessions print

A session that starts with the root scope and has no other bundle than the math bundle holds only values
that texts can spell, whatever programs it runs.  So the values that it prints as data can be read back
under its own limit.
-/

namespace MiniLisp

variable {s : Session}

/-- A step that evaluates program text. -/
inductive Step.IsProgram : Step → Prop where
  | run (scope : Nat) (text : String) : IsProgram (.run scope text)
  | load (scope : Nat) (text : String) : IsProgram (.load scope text)
  | loadPrelude (scope : Nat) : IsProgram (.loadPrelude scope)

namespace Session

/-! ## Steps -/

/-- What the session holds and offers could be spelled within the limit of its reader. -/
structure Textual (s : Session) : Prop where
  store : s.store.Over (Value.Textual s.interpreter.limits.read)
  offers : s.interpreter.Offers (Value.Textual s.interpreter.limits.read)

/-- What a program does to such a session. -/
structure Spelled (s : Session) (outcome : Answer × Session) : Prop where
  textual : outcome.2.Textual
  interpreter : outcome.2.interpreter = s.interpreter
  value : ∀ v, outcome.1 = .value v → v.Textual s.interpreter.limits.read

theorem Textual.act {action : Action Value} (h : s.Textual)
    (haction : Action.Within (Value.Textual s.interpreter.limits.read) (action s.store)) :
    s.Spelled (s.act action .value) := by
  unfold Session.act
  rcases hrun : action s.store with ⟨result, σ⟩
  rw [hrun] at haction
  have htextual : Textual { s with store := σ } := ⟨haction.store, h.offers⟩
  cases result with
  | ok v =>
    refine ⟨htextual, rfl, fun w hw => ?_⟩
    obtain rfl := Answer.value.inj hw
    exact haction.result v rfl
  | error fault => exact ⟨htextual, rfl, fun _ => nofun⟩

theorem Textual.perform {step : Step} (h : s.Textual) (hstep : step.IsProgram) :
    s.Spelled (s.perform step) := by
  cases hstep with
  | run scope text => exact h.act (Interpreter.textual_run h.offers h.store)
  | load scope text => exact h.act (Interpreter.textual_loadUnit h.offers h.store)
  | loadPrelude scope => exact h.act (Interpreter.textual_loadUnit h.offers h.store)

/-- Whatever programs a session runs, they answer with values that could be spelled. -/
theorem Textual.reportAll {steps : List Step} (h : s.Textual)
    (hsteps : ∀ step ∈ steps, step.IsProgram) :
    ∀ report ∈ (s.reportAll steps).1, ∀ v, report.answer = .value v →
      v.Textual s.interpreter.limits.read := by
  induction steps generalizing s with
  | nil => exact fun _ => nofun
  | cons step steps ih =>
    obtain ⟨hfirst, hrest⟩ := List.forall_mem_cons.mp hsteps
    have hstep := h.perform hfirst
    have hlater := ih hstep.textual hrest
    rw [hstep.interpreter] at hlater
    intro report hreport v hv
    rcases List.mem_cons.mp hreport with rfl | hreport
    · exact hstep.value v hv
    · exact hlater report hreport v hv

/-! ## The start -/

variable {depth : Nat}

theorem over_root (sink : Sink) : (Store.root sink).Over (Value.Textual depth) where
  bound f x v hv := by
    rcases Store.root_binds hv with ⟨b, rfl⟩ | rfl | ⟨p, hp, rfl⟩
    · exact .bool b
    · exact .nil
    · have hstandard : ∀ p ∈ Operation.primitivesFrom 0 Operation.standard, p.operation ≠ .collect := by
        decide
      exact .primitive (hstandard p hp)
  bodies id c hc := by cases hc

/-- The values of the math bundle could be spelled. -/
theorem makes_math : Registry.Makes (Store.Over (Value.Textual depth))
    (fun _ => Value.Textual depth) Bundle.math := by
  intro σ hσ
  have hstamps := Bundle.math.make_stampsOnly σ
  refine ⟨hσ.congr hstamps.frames hstamps.closures, fun _ hv => hv, ?_⟩
  intro entry hentry
  refine hσ.makeBundle ?_ entry.1 entry.2 hentry
  intro described hdescribed τ _
  rcases Bundle.mem_math hdescribed with ⟨op, hop, rfl⟩ | ⟨x, rfl⟩
  · exact .primitive hop
  · exact .num x

/-- Every session without other bundles than the math bundle starts with values that could be
spelled. -/
theorem textual_session {host : Host} {sources : List (String × BundleSource)}
    (hprovision : host.provision = .registered sources) (hmath : ∀ source ∈ sources, source.2 = .math) :
    host.session.Textual := by
  have hnone : host.loader.Offers (Value.Textual host.limits.read) := fun _ _ => nofun
  have hmakes : ∀ sources', host.provision = .registered sources' →
      ∀ source ∈ BundleSource.bundles sources', Registry.Makes
        (Store.Over (Value.Textual host.limits.read)) (fun _ => Value.Textual host.limits.read)
        source.2 := by
    intro sources' hsources source hsource
    obtain rfl := Provision.registered.inj (hprovision.symm.trans hsources)
    obtain ⟨described, hdescribed, rfl⟩ := List.mem_map.mp hsource
    rw [hmath described hdescribed]
    exact makes_math
  obtain ⟨hstore, hregistry⟩ := host.start (over_root host.sink)
    (fun _ hσ => (Interpreter.textual_loadUnit hnone hσ).store) hmakes
  refine ⟨hstore, ?_⟩
  intro name bundle hbundle
  have hget : host.session.registry.bundles.get? name = some bundle := by
    simpa [Host.session, Provision.bundles, hprovision] using hbundle
  exact hregistry.offer hget

/-! ## Whole sessions -/

/-- In a session without other bundles than the math bundle, whatever its limits and whatever programs it
runs, the text of every answer that is made of finite numbers, strings, symbols and lists is read as one
datum, and the value of this datum is the answer. -/
theorem read_text_of_answer {host : Host} {sources : List (String × BundleSource)} {steps : List Step}
    (hprovision : host.provision = .registered sources) (hmath : ∀ source ∈ sources, source.2 = .math)
    (hsteps : ∀ step ∈ steps, step.IsProgram) :
    ∀ report ∈ (host.session.reportAll steps).1, ∀ v, report.answer = .value v → v.IsData →
      ∃ d, host.session.interpreter.read v.text = .ok [d] ∧ Value.ofDatum d = v := by
  intro report hreport v hv hdata
  have htextual := (textual_session hprovision hmath).reportAll hsteps report hreport v hv
  exact Interpreter.read_text htextual hdata

/-- A list of a string that was put together and a symbol. -/
theorem read_text_of_answer_cons :
    let host : Host := ⟨⟨20, 3⟩, .registered [("math", .math)], .unlimited, false⟩
    let steps := [Step.run 0 "(cons (+ 'a' 'b') (quote (x)))"]
    let v := Value.list [.str "ab", .sym "x"]
    (host.session.reportAll steps).1 = [⟨.value v, ""⟩] ∧ v.IsData ∧
      ∃ d, host.session.interpreter.read v.text = .ok [d] ∧ Value.ofDatum d = v := by
  intro host steps v
  have hanswers : (host.session.reportAll steps).1 = [⟨.value v, ""⟩] := by
    simp only [host, steps, Host.session, Provision.registry, BundleSource.bundles,
      BundleSource.bundle, List.map, Bundle.math]
    -- the run does not depend on the number of the math bundle
    generalize (3.141592653589793 : Float) = x
    cbv
  have hprovision : host.provision = .registered [("math", .math)] := rfl
  have hmath : ∀ source ∈ [("math", BundleSource.math)], source.2 = .math := by simp
  have hsteps : ∀ step ∈ steps, step.IsProgram := List.forall_mem_singleton.mpr (.run 0 _)
  have hreport : ⟨.value v, ""⟩ ∈ (host.session.reportAll steps).1 := by
    rw [hanswers]
    exact List.mem_singleton_self _
  have hdata : v.IsData := .list (by simp [Value.IsData.str, Value.IsData.sym])
  exact ⟨hanswers, hdata, read_text_of_answer hprovision hmath hsteps _ hreport v rfl hdata⟩

end Session

end MiniLisp
