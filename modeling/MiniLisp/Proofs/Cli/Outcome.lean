import MiniLisp.Proofs.Cli.Loading
import MiniLisp.Proofs.Cli.Repl

/-!
# The outcome of a run

A run is told from how its units are loaded.  `Cli.Fails` says how a run with accepted arguments fails: its
standard unit does, or its script does behind the standard unit.  `Cli.InputFails` says how a run without a
script fails behind its standard unit: the line reader cannot be set up, or cannot read a line.
-/

namespace MiniLisp.Cli

variable {world world' : World} {args args' : List String} {options options' : Options}
variable {failure : Failure} {v w : Value} {vs ws : List Value} {σ τ υ : Store} {path : String}

/-! ## Arguments -/

theorem Options.readFrom_allForms {start : Options} (h : readFrom start args = .ok options) :
    readFrom start (args ++ ["--all-forms"]) = .ok { options with allForms := true } := by
  fun_induction readFrom start args with
  | case1 start =>
    obtain rfl := Except.ok.inj h
    simp [readFrom]
  | case2 | case5 | case6 | case7 => cases h
  | case3 start path rest ih => simpa [readFrom] using ih h
  | case4 start rest hstdlib ih =>
    rw [List.cons_append, readFrom.eq_def]
    simpa [hstdlib] using ih h
  | case8 start arg rest hstdlib hall hhelp hoption hscript ih =>
    rw [List.cons_append, readFrom.eq_def]
    simpa [hstdlib, hall, hhelp, hoption, hscript] using ih h

/-- A last argument `--all-forms` is accepted behind accepted arguments. -/
theorem Options.ofArgs_allForms (h : ofArgs args = .ok options) :
    ofArgs (args ++ ["--all-forms"]) = .ok { options with allForms := true } :=
  readFrom_allForms h

/-- The units that a command line asks for. -/
def Options.sources (options : Options) : List Source :=
  .stdlib options.stdlib :: (options.script.map Source.script).toList

/-! ## Parts of a run -/

theorem loadStdlib_apply (world : World) (options : Options) (σ : Store) :
    loadStdlib world world.interpreter options σ =
      match load world options.allForms (.stdlib options.stdlib) σ with
      | (.ok _, τ) => (.ok (), τ)
      | (.error failure, τ) => (.error failure, τ) := by
  have hstdlib : loadStdlib world world.interpreter options =
      load world options.allForms (.stdlib options.stdlib) >>= fun _ => pure () := by
    unfold loadStdlib load Source.read Source.path?
    cases options.stdlib <;> simp only [bind_assoc] <;> rfl
  rw [hstdlib, Action.bind_apply]
  rcases load world options.allForms (.stdlib options.stdlib) σ with ⟨_ | _, τ⟩ <;> rfl

theorem runScript_eq (world : World) (options : Options) (path : String) :
    runScript world world.interpreter options path =
      load world options.allForms (.script path) >>= fun v =>
        match v with
        | .unspecified => pure ()
        | v => modify (·.printLine v.text) := by
  simp only [runScript, load, bind_assoc]
  rfl

theorem perform_of_stdlib_error
    (h : load world options.allForms (.stdlib options.stdlib) σ = (.error failure, τ)) :
    perform world world.interpreter options σ = (.error failure, τ) := by
  have hstdlib : loadStdlib world world.interpreter options σ = (.error failure, τ) := by
    rw [loadStdlib_apply, h]
  rw [perform, Action.bind_apply, hstdlib]

theorem perform_of_stdlib_ok
    (h : load world options.allForms (.stdlib options.stdlib) σ = (.ok v, τ)) :
    perform world world.interpreter options σ =
      match options.script with
      | some path => runScript world world.interpreter options path τ
      | none => runInput world world.interpreter τ := by
  have hstdlib : loadStdlib world world.interpreter options σ = (.ok (), τ) := by
    rw [loadStdlib_apply, h]
  rw [perform, Action.bind_apply, hstdlib]
  cases options.script <;> rfl

theorem runScript_of_error
    (h : load world options.allForms (.script path) σ = (.error failure, τ)) :
    runScript world world.interpreter options path σ = (.error failure, τ) := by
  rw [runScript_eq, Action.bind_apply, h]

theorem runScript_of_ok (h : load world options.allForms (.script path) σ = (.ok v, τ)) :
    runScript world world.interpreter options path σ = (.ok (), Repl.printResult (.ok v) τ) := by
  rw [runScript_eq, Action.bind_apply, h]
  cases v <;> rfl

theorem run_of_error (hoptions : Options.ofArgs args = .ok options)
    (h : perform world world.interpreter options world.start = (.error failure, τ)) :
    run world args = ⟨1, τ.sink.text, diagnostics world args ++ failure.message ++ "\n"⟩ := by
  unfold run
  rw [hoptions]
  dsimp only
  rw [World.interpreter, World.start] at h
  rw [h]

theorem run_of_ok (hoptions : Options.ofArgs args = .ok options)
    (h : perform world world.interpreter options world.start = (.ok (), τ)) :
    run world args = ⟨0, τ.sink.text, diagnostics world args⟩ := by
  unfold run
  rw [hoptions]
  dsimp only
  rw [World.interpreter, World.start] at h
  rw [h]

theorem runInput_of_noReader {ip : Interpreter} {reason : String}
    (h : world.reader.readings world.input = .error reason) :
    (runInput world ip σ).1 = .error (.noReader reason) := by
  unfold runInput
  rw [h]

theorem runInput_of_readings {ip : Interpreter} {readings : List Repl.Reading}
    (h : world.reader.readings world.input = .ok readings) :
    (runInput world ip σ).1 =
      (Repl.answerAll ip (σ.printLines Repl.banner) readings).1.mapError .unreadLine := by
  unfold runInput
  rw [h]

/-! ## What stands on the sink -/

/-- A sink that takes everything and holds the lines of the values, and nothing else. -/
structure Logged (sink : Sink) (vs : List Value) : Prop where
  unfailing : sink.Unfailing
  text : sink.text = Value.lines vs

theorem logged_start (world : World) : Logged world.start.sink [] :=
  ⟨unfailing_start world, rfl⟩

theorem Logged.writeLines {sink : Sink} (h : Logged sink vs) (ws : List Value) :
    Logged (sink.writeLines ws) (vs ++ ws) := by
  rw [h.unfailing.writeLines_eq]
  refine ⟨h.unfailing.put _, ?_⟩
  rw [h.unfailing.text_put, h.text, Value.lines_append]

/-! ## Whole runs -/

/-- How the standard unit of a command line is loaded. -/
abbrev StdlibLoads (world : World) (options : Options) :
    Except Failure Value → List Value → Store → Prop :=
  Loads world options.allForms (.stdlib options.stdlib) world.start

/-- How the script of a command line is loaded into a store. -/
abbrev ScriptLoads (world : World) (options : Options) (path : String) (σ : Store) :
    Except Failure Value → List Value → Store → Prop :=
  Loads world options.allForms (.script path) σ

/-- A run with accepted arguments fails, and values were logged by then. -/
inductive Fails (world : World) (options : Options) : Failure → List Value → Prop
  | stdlib {failure : Failure} {vs : List Value} {τ : Store}
      (hstdlib : StdlibLoads world options (.error failure) vs τ) : Fails world options failure vs
  | script {v : Value} {failure : Failure} {vs ws : List Value} {τ υ : Store} {path : String}
      (hstdlib : StdlibLoads world options (.ok v) vs τ) (hpath : options.script = some path)
      (hscript : ScriptLoads world options path τ (.error failure) ws υ) :
      Fails world options failure (vs ++ ws)

theorem logged_stdlib {result : Except Failure Value} (h : StdlibLoads world options result vs τ) :
    Logged τ.sink vs := by
  rw [h.load.2]
  exact (logged_start world).writeLines vs

theorem logged_script {result : Except Failure Value} (hτ : Logged τ.sink vs)
    (h : ScriptLoads world options path τ result ws υ) : Logged υ.sink (vs ++ ws) := by
  rw [h.load.2]
  exact hτ.writeLines ws

/-- A run that fails prints what was logged, and nothing else. -/
theorem Fails.run (hoptions : Options.ofArgs args = .ok options) (h : Fails world options failure vs) :
    run world args = ⟨1, Value.lines vs, diagnostics world args ++ failure.message ++ "\n"⟩ := by
  cases h with
  | stdlib hstdlib =>
    rw [run_of_error hoptions (perform_of_stdlib_error hstdlib.load.1), (logged_stdlib hstdlib).text]
  | @script v _ vs ws τ υ path hstdlib hpath hscript =>
    have hperform : perform world world.interpreter options world.start = (.error failure, υ) := by
      rw [perform_of_stdlib_ok hstdlib.load.1, hpath]
      exact runScript_of_error hscript.load.1
    rw [run_of_error hoptions hperform, (logged_script (logged_stdlib hstdlib) hscript).text]

/-- A script that was loaded is followed by the line of its value. -/
theorem run_script (hoptions : Options.ofArgs args = .ok options)
    (hstdlib : StdlibLoads world options (.ok v) vs τ) (hpath : options.script = some path)
    (hscript : ScriptLoads world options path τ (.ok w) ws υ) :
    run world args =
      ⟨0, Value.lines (vs ++ ws) ++ Repl.shown (.value w), diagnostics world args⟩ := by
  have hlogged := logged_script (logged_stdlib hstdlib) hscript
  have hperform : perform world world.interpreter options world.start =
      (.ok (), Repl.printResult (.ok w) υ) := by
    rw [perform_of_stdlib_ok hstdlib.load.1, hpath]
    exact runScript_of_ok hscript.load.1
  have hprinted : Repl.printResult (.ok w) υ = υ.onSink (υ.sink.put (Repl.shown (.value w))) :=
    @Repl.printResult_onSink υ υ.sink hlogged.unfailing (.ok w)
  rw [run_of_ok hoptions hperform, hprinted]
  show Outcome.mk 0 (υ.sink.put _).text _ = _
  rw [hlogged.unfailing.text_put, hlogged.text]

/-- A run without a script fails behind its standard unit: the line reader cannot be set up, or it cannot
read a line before the loop has stopped. -/
inductive InputFails (world : World) (options : Options) : Failure → Prop
  | noReader {v : Value} {vs : List Value} {τ : Store} {reason : String}
      (hstdlib : StdlibLoads world options (.ok v) vs τ) (hscript : options.script = none)
      (hreader : world.reader.readings world.input = .error reason) :
      InputFails world options (.noReader reason)
  | unreadLine {v : Value} {vs : List Value} {τ : Store} {readings : List Repl.Reading} {reason : String}
      (hstdlib : StdlibLoads world options (.ok v) vs τ) (hscript : options.script = none)
      (hreader : world.reader.readings world.input = .ok readings)
      (hline : Repl.FailsAt readings reason) : InputFails world options (.unreadLine reason)

theorem perform_of_no_script (hstdlib : StdlibLoads world options (.ok v) vs τ)
    (hscript : options.script = none) :
    perform world world.interpreter options world.start = runInput world world.interpreter τ := by
  rw [perform_of_stdlib_ok hstdlib.load.1, hscript]

theorem InputFails.run (hoptions : Options.ofArgs args = .ok options)
    (h : InputFails world options failure) :
    ∃ printed, run world args = ⟨1, printed, diagnostics world args ++ failure.message ++ "\n"⟩ := by
  -- either way the loop has ended with the failure, in some store
  have hended : ∃ τ, perform world world.interpreter options world.start = (.error failure, τ) := by
    cases h with
    | noReader hstdlib hscript hreader =>
      rw [perform_of_no_script hstdlib hscript]
      exact ⟨_, Prod.ext (runInput_of_noReader hreader) rfl⟩
    | unreadLine hstdlib hscript hreader hline =>
      rw [perform_of_no_script hstdlib hscript]
      refine ⟨_, Prod.ext ?_ rfl⟩
      rw [runInput_of_readings hreader, Repl.answerAll_eq_error_iff.mpr hline]
      rfl
  obtain ⟨τ, hperform⟩ := hended
  exact ⟨_, run_of_error hoptions hperform⟩

/-- Without a script a run either fails at its input or ends well. -/
theorem inputFails_or_ok (hoptions : Options.ofArgs args = .ok options)
    (hstdlib : StdlibLoads world options (.ok v) vs τ) (hscript : options.script = none) :
    (∃ failure, InputFails world options failure) ∨
      ∃ printed, run world args = ⟨0, printed, diagnostics world args⟩ := by
  cases hreader : world.reader.readings world.input with
  | error reason => exact .inl ⟨_, .noReader hstdlib hscript hreader⟩
  | ok readings =>
    have hanswered := @runInput_of_readings world τ world.interpreter readings hreader
    cases hresult : (Repl.answerAll world.interpreter (τ.printLines Repl.banner) readings).1 with
    | error reason =>
      exact .inl ⟨_, .unreadLine hstdlib hscript hreader (Repl.answerAll_eq_error_iff.mp hresult)⟩
    | ok =>
      have hended : runInput world world.interpreter τ = (.ok (), _) :=
        Prod.ext (hanswered.trans (by rw [hresult]; rfl)) rfl
      exact .inr ⟨_, run_of_ok hoptions ((perform_of_no_script hstdlib hscript).trans hended)⟩

/-- A run with accepted arguments that does not fail ends well. -/
theorem fails_or_ok (hoptions : Options.ofArgs args = .ok options) :
    ((∃ failure vs, Fails world options failure vs) ∨ ∃ failure, InputFails world options failure) ∨
      ∃ printed, run world args = ⟨0, printed, diagnostics world args⟩ := by
  obtain ⟨result, vs, τ, hstdlib⟩ :=
    exists_loads world options.allForms (.stdlib options.stdlib) world.start
  cases result with
  | error failure => exact .inl (.inl ⟨failure, vs, .stdlib hstdlib⟩)
  | ok v =>
    cases hpath : options.script with
    | none => exact (inputFails_or_ok hoptions hstdlib hpath).imp_left .inr
    | some path =>
      obtain ⟨result, ws, υ, hscript⟩ := exists_loads world options.allForms (.script path) τ
      cases result with
      | error failure => exact .inl (.inl ⟨failure, vs ++ ws, .script hstdlib hpath hscript⟩)
      | ok w => exact .inr ⟨_, run_script hoptions hstdlib hpath hscript⟩

/-- When the standard unit fails, what is behind it on the command line, its script and the input have no
effect. -/
theorem run_of_stdlib_error (hstdlib : StdlibLoads world options (.error failure) vs τ)
    (hoptions' : Options.ofArgs args' = .ok options') (hpath : options'.stdlib = options.stdlib)
    (hforms : options'.allForms = options.allForms) (hsetting : world'.setting = world.setting)
    (hfile : ∀ path, options.stdlib = some path → world'.file path = world.file path) :
    run world' args' = ⟨1, Value.lines vs, diagnostics world' args' ++ failure.message ++ "\n"⟩ := by
  have hsource : load world' options.allForms (.stdlib options.stdlib) =
      load world options.allForms (.stdlib options.stdlib) := load_congr hsetting hfile
  have hload : load world' options'.allForms (.stdlib options'.stdlib) world'.start =
      (.error failure, τ) := by
    rw [hforms, hpath, hsource, World.start, host_congr hsetting]
    exact hstdlib.load.1
  rw [run_of_error hoptions' (perform_of_stdlib_error hload), (logged_stdlib hstdlib).text]

/-- If no more than one form stands in each unit, it does not matter which ones are taken. -/
theorem perform_allForms (hforms : ∀ source ∈ options.sources, ∀ text forms,
      source.text world = .ok text → world.interpreter.read text = .ok forms → forms.length ≤ 1) :
    perform world world.interpreter { options with allForms := true } =
      perform world world.interpreter options := by
  -- this is needed of the units that are asked for, and of no others
  have hload : ∀ source ∈ options.sources,
      load world true source = load world options.allForms source := by
    intro source hsource
    cases options.allForms with
    | true => rfl
    | false => exact load_eq_of_length_le (hforms source hsource)
  have hstdlib : loadStdlib world world.interpreter { options with allForms := true } =
      loadStdlib world world.interpreter options := by
    funext σ
    rw [loadStdlib_apply, loadStdlib_apply, hload _ List.mem_cons_self]
  unfold perform
  rw [hstdlib]
  obtain ⟨stdlib, allForms, script⟩ := options
  cases script with
  | none => rfl
  | some path =>
    have hmem : Source.script path ∈ Options.sources ⟨stdlib, allForms, some path⟩ := by
      simp [Options.sources]
    dsimp only
    rw [runScript_eq, runScript_eq, hload _ hmem]

/-- A run that asks for all forms differs in nothing but what is written about trace events. -/
theorem run_allForms (hoptions : Options.ofArgs args = .ok options)
    (hforms : ∀ source ∈ options.sources, ∀ text forms, source.text world = .ok text →
      world.interpreter.read text = .ok forms → forms.length ≤ 1) :
    ∃ code stdout message, run world args = ⟨code, stdout, diagnostics world args ++ message⟩ ∧
      run world (args ++ ["--all-forms"]) =
        ⟨code, stdout, diagnostics world (args ++ ["--all-forms"]) ++ message⟩ := by
  have hperform := congrFun (perform_allForms hforms) world.start
  rcases hended : perform world world.interpreter options world.start with ⟨result, τ⟩
  rw [hended] at hperform
  cases result with
  | ok _ =>
    refine ⟨0, τ.sink.text, "", ?_, ?_⟩
    · rw [run_of_ok hoptions hended, String.append_empty]
    · rw [run_of_ok (Options.ofArgs_allForms hoptions) hperform, String.append_empty]
  | error failure =>
    refine ⟨1, τ.sink.text, failure.message ++ "\n", ?_, ?_⟩
    · rw [run_of_error hoptions hended, String.append_assoc]
    · rw [run_of_error (Options.ofArgs_allForms hoptions) hperform, String.append_assoc]

theorem append_newline_ne_empty (text : String) : text ++ "\n" ≠ "" := by
  intro h
  simpa using congrArg String.toList h

/-- Without a subscriber nothing is written about trace events. -/
theorem diagnostics_of_unset (h : world.setting traceVariable = none) (args : List String) :
    diagnostics world args = "" := by
  rw [diagnostics, h]
  rfl

theorem run_of_refused {fault : UsageFault} (h : Options.ofArgs args = .error fault) (world : World) :
    run world args = ⟨2, "", diagnostics world args ++ fault.message ++ "\n" ++ usage ++ "\n"⟩ := by
  unfold run
  rw [h]

/-- Accepted arguments give the code 1 if the run fails, and the code 0 if not. -/
theorem code_of_accepted (hoptions : Options.ofArgs args = .ok options) (world : World) :
    ((run world args).code = 1 ↔
      (∃ failure vs, Fails world options failure vs) ∨ ∃ failure, InputFails world options failure) ∧
      ((run world args).code = 0 ∨ (run world args).code = 1) ∧
      ((run world args).stderr = "" ↔ (run world args).code = 0 ∧ diagnostics world args = "") := by
  by_cases hfails : (∃ failure vs, Fails world options failure vs) ∨
      ∃ failure, InputFails world options failure
  · -- a failure of either kind leaves a message behind
    have hrun : ∃ printed message, run world args = ⟨1, printed, message ++ "\n"⟩ := by
      rcases hfails with ⟨failure, vs, h⟩ | ⟨failure, h⟩
      · exact ⟨_, _, h.run hoptions⟩
      · obtain ⟨printed, hrun⟩ := h.run hoptions
        exact ⟨printed, _, hrun⟩
    obtain ⟨printed, message, hrun⟩ := hrun
    rw [hrun]
    refine ⟨iff_of_true rfl hfails, .inr rfl, iff_of_false ?_ (by simp)⟩
    exact append_newline_ne_empty _
  · obtain ⟨printed, hrun⟩ := (fails_or_ok hoptions).resolve_left hfails
    rw [hrun]
    exact ⟨iff_of_false (by simp) hfails, .inl rfl, (and_iff_right rfl).symm⟩

/-- The outcome of a run is told from how its arguments are read, its units are loaded and its input is
read.  Refused arguments give the code 2, and then nothing else of the world counts.  A standard unit that
cannot be loaded, or a script that cannot be loaded behind it, gives the code 1: the output is what was
logged by then, and behind a failed standard unit neither the script nor the input counts.  So does, if
there is no script, a line reader that fails.  Otherwise the code is 0, and the line for the value of a
script stands behind what was logged.  Only the code 0 leaves no error message; what is written about trace
events, if they are asked for, stands before it.  If no more than one form stands in each unit, asking for
all forms changes no more than that. -/
theorem run_outcome (world : World) (args : List String) :
    let outcome := run world args
    (outcome.code = 2 ↔ ∃ fault, Options.ofArgs args = .error fault) ∧
    (outcome.code = 1 ↔ ∃ options, Options.ofArgs args = .ok options ∧
      ((∃ failure vs, Fails world options failure vs) ∨ ∃ failure, InputFails world options failure)) ∧
    (outcome.code = 0 ∨ outcome.code = 1 ∨ outcome.code = 2) ∧
    (outcome.stderr = "" ↔ outcome.code = 0 ∧ diagnostics world args = "") ∧
    (world.setting traceVariable = none → ∀ args', diagnostics world args' = "") ∧
    (∀ fault, Options.ofArgs args = .error fault →
      outcome = ⟨2, "", diagnostics world args ++ fault.message ++ "\n" ++ usage ++ "\n"⟩) ∧
    ∀ options, Options.ofArgs args = .ok options →
      (∀ failure vs, Fails world options failure vs →
        outcome = ⟨1, Value.lines vs, diagnostics world args ++ failure.message ++ "\n"⟩) ∧
      (∀ failure vs τ, StdlibLoads world options (.error failure) vs τ →
        ∀ (world' : World) args' options', Options.ofArgs args' = .ok options' →
          options'.stdlib = options.stdlib → options'.allForms = options.allForms →
          world'.setting = world.setting →
          (∀ path, options.stdlib = some path → world'.file path = world.file path) →
          run world' args' =
            ⟨1, Value.lines vs, diagnostics world' args' ++ failure.message ++ "\n"⟩) ∧
      (∀ path v vs τ w ws υ, StdlibLoads world options (.ok v) vs τ → options.script = some path →
        ScriptLoads world options path τ (.ok w) ws υ →
        outcome = ⟨0, Value.lines (vs ++ ws) ++ Repl.shown (.value w), diagnostics world args⟩) ∧
      ((∀ source ∈ options.sources, ∀ text forms, source.text world = .ok text →
          world.interpreter.read text = .ok forms → forms.length ≤ 1) →
        ∃ message, outcome.stderr = diagnostics world args ++ message ∧
          run world (args ++ ["--all-forms"]) = ⟨outcome.code, outcome.stdout,
            diagnostics world (args ++ ["--all-forms"]) ++ message⟩) := by
  intro outcome
  cases hoptions : Options.ofArgs args with
  | error fault =>
    -- nothing is said about accepted arguments here
    have houtcome : outcome =
        ⟨2, "", diagnostics world args ++ fault.message ++ "\n" ++ usage ++ "\n"⟩ :=
      run_of_refused hoptions world
    refine ⟨?_, ?_, ?_, ?_, diagnostics_of_unset, fun fault' hrefused => ?_,
      fun options haccepted => ?_⟩
    · exact iff_of_true (by rw [houtcome]) ⟨fault, rfl⟩
    · refine iff_of_false (by simp [houtcome]) ?_
      rintro ⟨_, haccepted, _⟩
      cases haccepted
    · exact .inr (.inr (by rw [houtcome]))
    · rw [houtcome]
      exact iff_of_false (append_newline_ne_empty _) (by simp)
    · obtain rfl := Except.error.inj hrefused
      exact houtcome
    · cases haccepted
  | ok options =>
    obtain ⟨hfails, hcodes, hquiet⟩ := code_of_accepted hoptions world
    refine ⟨?_, ?_, ?_, hquiet, diagnostics_of_unset, fun fault hrefused => ?_,
      fun options' haccepted => ?_⟩
    · refine iff_of_false ?_ (by rintro ⟨_, hrefused⟩; cases hrefused)
      rcases hcodes with hcode | hcode <;> simp [outcome, hcode]
    · refine hfails.trans ⟨fun h => ⟨options, rfl, h⟩, ?_⟩
      rintro ⟨_, haccepted, h⟩
      obtain rfl := Except.ok.inj haccepted
      exact h
    · exact hcodes.imp_right .inl
    · cases hrefused
    · obtain rfl := Except.ok.inj haccepted
      refine ⟨fun failure vs h => h.run hoptions, ?_, ?_, fun hforms => ?_⟩
      · intro failure vs τ hstdlib world' args' options' hoptions' hpath hforms hsetting hfile
        exact run_of_stdlib_error hstdlib hoptions' hpath hforms hsetting hfile
      · intro path v vs τ w ws υ hstdlib hpath hscript
        exact run_script hoptions hstdlib hpath hscript
      · obtain ⟨code, stdout, message, hrun, hmore⟩ := run_allForms hoptions hforms
        refine ⟨message, ?_, ?_⟩
        · exact congrArg Outcome.stderr hrun
        · rw [hmore, show outcome = _ from hrun]

/-! ## Concrete runs -/

/-- A script that fails behind a standard unit that was loaded: both have logged something by then. -/
theorem run_outcome_script :
    let file := fun path => if path = "lib.ji" then "(log 'lib')" else "(begin (log 'main') (car))"
    let world := World.ofTexts file id .empty
    let args := ["--stdlib", "lib.ji", "main.ji"]
    let options : Options := ⟨some "lib.ji", false, some "main.ji"⟩
    Options.ofArgs args = .ok options ∧
      (∀ source ∈ options.sources, ∀ text forms, source.text world = .ok text →
        world.interpreter.read text = .ok forms → forms.length ≤ 1) ∧
      ∃ e vs, Fails world options (.script "main.ji" e) vs ∧
        run world args = ⟨1, "lib\nmain\n", "main.ji: " ++ e.message ++ "\n"⟩ ∧
        run world (args ++ ["--all-forms"]) = run world args := by
  intro file world args options
  have hoptions : Options.ofArgs args = .ok options := by decide
  have hread : ∀ ip : Interpreter, ip.limits = .standard →
      ip.read "(log 'lib')" = .ok [.list [.sym "log", .str "lib"]] ∧
        ip.read "(begin (log 'main') (car))" =
          .ok [.list [.sym "begin", .list [.sym "log", .str "main"], .list [.sym "car"]]] := by
    intro ip hlimits
    constructor
    · exact Interpreter.read_of_scan rfl rfl (by rw [hlimits]; decide)
    · exact Interpreter.read_of_scan rfl rfl (by rw [hlimits]; decide)
  obtain ⟨hlib, hmain⟩ := hread world.interpreter rfl
  have hlibText : (Source.stdlib (some "lib.ji")).text world = .ok "(log 'lib')" :=
    World.text_ofTexts file id .empty "lib.ji"
  have hmainText : (Source.script "main.ji").text world = .ok "(begin (log 'main') (car))" :=
    World.text_ofTexts file id .empty "main.ji"
  have hsingle : ∀ source ∈ options.sources, ∀ text forms, source.text world = .ok text →
      world.interpreter.read text = .ok forms → forms.length ≤ 1 := by
    intro source hsource text forms htext hforms
    have hcases : source = .stdlib (some "lib.ji") ∨ source = .script "main.ji" := by
      simpa [options, Options.sources] using hsource
    rcases hcases with rfl | rfl
    · obtain rfl := Except.ok.inj (hlibText.symm.trans htext)
      obtain rfl := Except.ok.inj (hlib.symm.trans hforms)
      exact Nat.le_refl 1
    · obtain rfl := Except.ok.inj (hmainText.symm.trans htext)
      obtain rfl := Except.ok.inj (hmain.symm.trans hforms)
      exact Nat.le_refl 1
  let log : Expr := .application (.name "log") [.literal (.str "lib")]
  let fail : Expr :=
    .sequence [.application (.name "log") [.literal (.str "main")], .application (.name "car") []]
  have hloaded : (world.interpreter.evaluateAll [log] Store.rootFrame world.start).1.isOk = true := by
    decide +kernel
  have hfailed : (world.interpreter.evaluate fail Store.rootFrame
      (world.interpreter.evaluateAll [log] Store.rootFrame world.start).2).1.isOk = false := by
    decide +kernel
  have htext : (world.interpreter.evaluate fail Store.rootFrame
      (world.interpreter.evaluateAll [log] Store.rootFrame world.start).2).2.sink.text =
      "lib\nmain\n" := by
    decide +kernel
  rcases hlog : world.interpreter.evaluateAll [log] Store.rootFrame world.start with ⟨_ | v, τ⟩
  · rw [hlog] at hloaded
    cases hloaded
  rw [hlog] at hfailed htext
  dsimp only at hfailed htext
  rcases hfail : world.interpreter.evaluate fail Store.rootFrame τ with ⟨e | _, υ⟩
  · rw [hfail] at htext
    obtain ⟨vs, hvs⟩ := Interpreter.exists_lines hlog
    obtain ⟨ws, hws⟩ :=
      Interpreter.exists_lines ((congrFun (Interpreter.evaluateAll_singleton fail) τ).trans hfail)
    have hstdlib : StdlibLoads world options (.ok v) vs τ := .loaded hlibText hlib rfl hlog hvs
    have hforms : ∀ form, Expr.ofDatum form = .ok fail →
        Expr.ofData (taken false [form]) = .ok ([] ++ fail :: []) := by
      intro form hform
      show Expr.ofData [form] = _
      rw [Expr.ofData, hform]
      rfl
    have hscript : ScriptLoads world options "main.ji" τ (.error (.script "main.ji" e)) ws υ :=
      .failed hmainText hmain (hforms _ rfl) rfl hfail hws
    have hfails : Fails world options (.script "main.ji" e) (vs ++ ws) := .script hstdlib rfl hscript
    have hlogged : Value.lines (vs ++ ws) = "lib\nmain\n" :=
      (logged_script (logged_stdlib hstdlib) hscript).text.symm.trans htext
    obtain ⟨hends, _, _, hmore⟩ := (run_outcome world args).2.2.2.2.2.2 options hoptions
    have hrun : run world args = ⟨1, "lib\nmain\n", "main.ji: " ++ e.message ++ "\n"⟩ := by
      rw [hends _ _ hfails, hlogged]
      rfl
    obtain ⟨message, hstderr, hrunAll⟩ := hmore hsingle
    -- nothing is written about trace events, so the two error streams are the same message
    have hmessage : (run world args).stderr = message := hstderr.trans (String.empty_append)
    refine ⟨hoptions, hsingle, e, vs ++ ws, hfails, hrun, hrunAll.trans ?_⟩
    show Outcome.mk _ _ ("" ++ message) = _
    rw [String.empty_append, ← hmessage]
  · rw [hfail] at hfailed
    cases hfailed

/-- A unit that is one string is loaded without an effect. -/
theorem loads_string {source : Source} {allForms : Bool}
    (hlimits : world.interpreter.limits = .standard) (h : source.text world = .ok "'a'") :
    Loads world allForms source σ (.ok (.str "a")) [] σ := by
  have hunit : ∀ ip : Interpreter, ip.limits = .standard → ip.read "'a'" = .ok [.str "a"] ∧
      ip.evaluateAll [.literal (.str "a")] Store.rootFrame σ = (.ok (.str "a"), σ) := by
    intro ip hlimits
    refine ⟨Interpreter.read_of_scan rfl rfl (by rw [hlimits]; decide), ?_⟩
    obtain ⟨limits, bundles⟩ := ip
    obtain rfl := hlimits
    rfl
  obtain ⟨hread, hvalue⟩ := hunit _ hlimits
  exact .loaded h hread (by cases allForms <;> rfl) hvalue rfl

/-- A form that is not taken need not even be an expression; input that is not a text cannot be read as
lines; and a subscriber to trace events may write to the error stream of a run that does not fail, and not
of the one that asks for all forms. -/
theorem run_outcome_exceptions :
    (let file := fun path => if path = "lib.ji" then "'a' (define)" else "'a'"
      let world := World.ofTexts file id .empty
      (∃ e, world.interpreter.analyze "'a' (define)" = .error e) ∧
        run world ["--stdlib", "lib.ji", "main.ji"] = ⟨0, "\"a\"\n", ""⟩) ∧
    (let world := World.ofTexts (fun _ => "'a'") id ⟨#[255]⟩
      ∃ printed, run world ["--stdlib", "lib.ji"] =
        ⟨1, printed, "REPL error: stream did not contain valid UTF-8\n"⟩) ∧
    let world : World :=
      { World.ofTexts (fun _ => "'a'") id .empty with
        setting := fun name => if name = traceVariable then some "debug" else none
        traced := fun args => if "--all-forms" ∈ args then "" else
          "DEBUG jive::evaluator: loaded unit forms=1\nDEBUG jive::evaluator: loaded unit forms=1\n" }
    let args := ["--stdlib", "lib.ji", "main.ji"]
    run world args = ⟨0, "\"a\"\n",
        "DEBUG jive::evaluator: loaded unit forms=1\nDEBUG jive::evaluator: loaded unit forms=1\n"⟩ ∧
      run world (args ++ ["--all-forms"]) = ⟨0, "\"a\"\n", ""⟩ := by
  refine ⟨?unreached, ?undecodable, ?subscribed⟩
  case unreached =>
    intro file world
    have hanalyze : ∀ ip : Interpreter, ip.limits = .standard →
        ip.read "'a' (define)" = .ok [.str "a", .list [.sym "define"]] ∧
          ∃ e, ip.analyze "'a' (define)" = .error e := by
      intro ip hlimits
      have hread : ip.read "'a' (define)" = .ok [.str "a", .list [.sym "define"]] :=
        Interpreter.read_of_scan rfl rfl (by rw [hlimits]; decide)
      exact ⟨hread, .arityMismatch "define" (.exact 2) 0, Interpreter.analyze_eq_ok hread⟩
    obtain ⟨hread, hrefused⟩ := hanalyze world.interpreter rfl
    refine ⟨hrefused, ?_⟩
    -- only the first form is taken, and that is a string
    have hlib : StdlibLoads world ⟨some "lib.ji", false, some "main.ji"⟩ (.ok (.str "a")) []
        world.start :=
      .loaded (World.text_ofTexts file id .empty "lib.ji") hread rfl rfl rfl
    exact run_script (by decide) hlib rfl (loads_string rfl (World.text_ofTexts file id .empty "main.ji"))
  case undecodable =>
    intro world
    have hstdlib : StdlibLoads world ⟨some "lib.ji", false, none⟩ (.ok (.str "a")) []
        world.start :=
      loads_string rfl (World.text_ofTexts (fun _ => "'a'") id ⟨#[255]⟩ "lib.ji")
    have hundecodable : String.fromUTF8? ⟨#[255]⟩ = none := dif_neg (by decide)
    have hreadings : world.reader.readings world.input =
        .ok [.failed "stream did not contain valid UTF-8"] := by
      simp only [world, World.ofTexts, Repl.LineReader.ofEdit, hundecodable]
    have hfails : InputFails world ⟨some "lib.ji", false, none⟩
        (.unreadLine "stream did not contain valid UTF-8") :=
      .unreadLine hstdlib rfl hreadings ⟨[], [], rfl, by simp⟩
    have hoptions : Options.ofArgs ["--stdlib", "lib.ji"] = .ok ⟨some "lib.ji", false, none⟩ := by decide
    exact hfails.run hoptions
  case subscribed =>
    intro world args
    have htext : ∀ path, world.text path = .ok "'a'" := World.text_ofTexts (fun _ => "'a'") id .empty
    have hlimits : world.interpreter.limits = .standard := by decide
    have hrun : ∀ allForms args,
        Options.ofArgs args = .ok ⟨some "lib.ji", allForms, some "main.ji"⟩ →
          run world args = ⟨0, "\"a\"\n", diagnostics world args⟩ := by
      intro allForms args hoptions
      exact run_script hoptions (loads_string hlimits (htext "lib.ji")) rfl (loads_string hlimits (htext "main.ji"))
    exact ⟨hrun false _ (by decide), hrun true _ (by decide)⟩

end MiniLisp.Cli
