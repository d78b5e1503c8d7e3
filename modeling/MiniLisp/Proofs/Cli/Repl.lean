import MiniLisp.Cli.Command
import MiniLisp.Proofs.Program.Output
import MiniLisp.Proofs.Session.Invariant
import MiniLisp.Proofs.Session.Start

/-!
# The loop is a session

What the interactive loop prints is told from a session that runs the programs among its lines, one
after the other in the root scope.  `Repl.transcript` says what is printed for each line, and
`Cli.run_repl` that the program prints this between its banner and its farewell.  `Repl.FailsAt` says when
the loop ends because a line cannot be read, which no session can tell.
-/

namespace MiniLisp

/-! ## What the loop prints -/

namespace Repl

/-- The text of lines, each with its end. -/
def asText (lines : List String) : String := String.join (lines.map (· ++ "\n"))

/-- The loop stops at a line of this text. -/
def Stops (text : String) : Prop := text = ":quit" ∨ text = ":exit"

instance (text : String) : Decidable (Stops text) :=
  inferInstanceAs (Decidable (text = ":quit" ∨ text = ":exit"))

/-- The texts of the lines that are answered: those before the first one that stops the loop. -/
def answered (lines : List String) : List String :=
  (lines.map Text.trim).takeWhile fun text => ¬ Stops text

/-- The lines that are programs. -/
def programs (texts : List String) : List String :=
  texts.filter fun text => text ≠ "" ∧ text ≠ ":help" ∧ text ≠ ":env"

/-- What is printed of the answer to a program: its value, unless it is unspecified, or its error. -/
def shown : Answer → String
  | .value .unspecified => ""
  | .value v => v.text ++ "\n"
  | .error e => "Error: " ++ e.message ++ "\n"
  | _ => ""

/-- The answer of a session to a program with this result. -/
def answerOf : Except Error Value → Answer
  | .ok v => .value v
  | .error e => .error e

/-- What is printed for the text of a line, and the session behind it. -/
def interact (s : Session) (text : String) : String × Session :=
  if text = "" then ("", s)
  else if text = ":help" then (asText help, s)
  else if text = ":env" then (environment (s.store.allBindings (s.frame 0)).entries, s)
  else
    let (report, s) := s.report (.run 0 text)
    (report.log ++ shown report.answer, s)

/-- What is printed for lines, and the session behind them. -/
def transcript (s : Session) : List String → String × Session
  | [] => ("", s)
  | text :: texts =>
    let (printed, s) := interact s text
    let (more, s) := transcript s texts
    (printed ++ more, s)

section Answered

variable {line : String} {lines before rest : List String}

theorem answered_cons_of_stops (h : Stops (Text.trim line)) : answered (line :: lines) = [] :=
  List.takeWhile_cons_of_neg (by simpa using h)

theorem answered_cons_of_not_stops (h : ¬ Stops (Text.trim line)) :
    answered (line :: lines) = Text.trim line :: answered lines :=
  List.takeWhile_cons_of_pos (by simpa using h)

/-- What stands behind a line that stops the loop does not count. -/
theorem answered_append_of_stops (h : ∃ line ∈ before, Stops (Text.trim line)) :
    answered (before ++ rest) = answered before := by
  obtain ⟨stop, hmem, hstop⟩ := h
  induction before with
  | nil => cases hmem
  | cons line before ih =>
    rw [List.cons_append]
    by_cases hline : Stops (Text.trim line)
    · rw [answered_cons_of_stops hline, answered_cons_of_stops hline]
    · have hbehind : stop ∈ before := by
        rcases List.mem_cons.mp hmem with rfl | hmem
        · exact absurd hstop hline
        · exact hmem
      rw [answered_cons_of_not_stops hline, answered_cons_of_not_stops hline, ih hbehind]

/-- The lines of a text up to the one that stops the loop are all that counts, and they are answered as
they stand if none of them holds a backspace. -/
theorem answered_of_plain {reader : LineReader} {edit : String → String} {text : String}
    (hgives : reader.Gives edit text) (hlines : Repl.lines text = before ++ rest)
    (hplain : ∀ line ∈ before, '\x08' ∉ line.toList)
    (hrest : rest = [] ∨ ∃ line ∈ before, Stops (Text.trim line)) :
    answered ((Repl.lines text).map edit) = answered before := by
  have hbefore : before.map edit = before := by
    refine (List.map_congr_left fun line hline => ?_).trans (List.map_id before)
    exact hgives.plain line (hlines ▸ List.mem_append_left rest hline) (hplain line hline)
  rw [hlines, List.map_append, hbefore]
  rcases hrest with rfl | hstops
  · rw [List.map_nil, List.append_nil]
  · exact answered_append_of_stops hstops

end Answered

/-- A program prints what it writes to the sink, and its result. -/
theorem interact_program {s : Session} {text : String} (hblank : text ≠ "") (hhelp : text ≠ ":help")
    (henv : text ≠ ":env") :
    let outcome := s.interpreter.run text (s.frame 0) s.store
    interact s text =
      (Session.newText s.store.sink.text outcome.2.sink.text ++ shown (answerOf outcome.1),
        { s with store := outcome.2 }) := by
  intro outcome
  have hperform : ∀ result σ, outcome = (result, σ) →
      s.perform (.run 0 text) = (answerOf result, { s with store := σ }) := by
    intro result σ hrun
    change s.interpreter.run text (s.frame 0) s.store = (result, σ) at hrun
    show s.act (s.interpreter.run text (s.frame 0)) .value = _
    unfold Session.act
    rw [hrun]
    cases result <;> rfl
  rw [interact, if_neg hblank, if_neg hhelp, if_neg henv]
  unfold Session.report
  rw [hperform outcome.1 outcome.2 rfl]

/-- The session behind some lines is the one behind the programs among them. -/
theorem transcript_session (s : Session) (texts : List String) :
    (transcript s texts).2 = (s.reportAll ((programs texts).map (Step.run 0))).2 := by
  induction texts generalizing s with
  | nil => rfl
  | cons text texts ih =>
    show (transcript (interact s text).2 texts).2 = _
    rw [ih]
    -- a line that is no program leaves the session as it is, and is not among the programs
    by_cases hprogram : text ≠ "" ∧ text ≠ ":help" ∧ text ≠ ":env"
    · obtain ⟨hblank, hhelp, henv⟩ := hprogram
      have hprograms : programs (text :: texts) = text :: programs texts :=
        List.filter_cons_of_pos (by simp [hblank, hhelp, henv])
      have hstep : (interact s text).2 = (s.report (.run 0 text)).2 := by
        rw [interact, if_neg hblank, if_neg hhelp, if_neg henv]
      rw [hprograms, hstep]
      rfl
    · have hprograms : programs (text :: texts) = programs texts :=
        List.filter_cons_of_neg (by simpa using hprogram)
      have hstep : (interact s text).2 = s := by
        unfold interact
        split
        · rfl
        · split
          · rfl
          · split
            · rfl
            · exact absurd ⟨‹_›, ‹_›, ‹_›⟩ hprogram
      rw [hprograms, hstep]

end Repl

/-! ## The loop beside the session -/

/-- What was written behind an earlier text. -/
theorem Session.newText_append (earlier more : String) :
    Session.newText earlier (earlier ++ more) = more := by
  unfold newText
  rw [String.toList_append, ← String.length_toList, List.drop_left, String.ofList_toList]

namespace Repl

variable {σ : Store} {sink : Sink} {s : Session} {text : String}

theorem print_onSink (σ : Store) (sink : Sink) (text : String) :
    (σ.onSink sink).print text = σ.onSink (sink.put text) := rfl

theorem printLines_onSink (hsink : sink.Unfailing) (lines : List String) :
    (σ.onSink sink).printLines lines = σ.onSink (sink.put (asText lines)) := by
  induction lines generalizing sink with
  | nil =>
    rw [asText, List.map_nil, String.join_nil, hsink.put_empty]
    rfl
  | cons line lines ih =>
    have htext : asText (line :: lines) = (line ++ "\n") ++ asText lines := by
      rw [asText, List.map_cons, String.join_cons]
      rfl
    rw [htext, ← hsink.put_put]
    exact ih (hsink.put _)

/-- A session at work in the root scope, with a sink that takes everything. -/
structure AtWork (s : Session) : Prop where
  frame : s.frame 0 = Store.rootFrame
  unfailing : s.store.sink.Unfailing

/-- The loop answers a line as the session does, and prints what it should on its own sink. -/
structure Answers (s : Session) (sink : Sink) (text : String) (outcome : Store) : Prop where
  store : outcome = (interact s text).2.store.onSink (sink.put (interact s text).1)
  interpreter : (interact s text).2.interpreter = s.interpreter
  atWork : AtWork (interact s text).2

theorem printResult_onSink (hsink : sink.Unfailing) (result : Except Error Value) :
    printResult result (σ.onSink sink) =
      σ.onSink (sink.put (shown (answerOf result))) := by
  cases result with
  | error e => rfl
  | ok v => cases v with
    | unspecified => exact congrArg σ.onSink hsink.put_empty.symm
    | _ => rfl

/-- A program runs beside the session. -/
theorem answers_program (h : AtWork s) (hsink : sink.Unfailing) (hblank : text ≠ "")
    (hhelp : text ≠ ":help") (henv : text ≠ ":env") :
    Answers s sink text (runLine s.interpreter text (s.store.onSink sink)) := by
  obtain ⟨more, hwritten, hbeside⟩ :=
    s.interpreter.run_beside text Store.rootFrame h.unfailing hsink
  let outcome := s.interpreter.run text Store.rootFrame s.store
  have hinteract : interact s text =
      (more ++ shown (answerOf outcome.1), { s with store := outcome.2 }) := by
    rw [interact_program hblank hhelp henv, h.frame, hwritten, h.unfailing.text_put,
      Session.newText_append]
  have hline : runLine s.interpreter text (s.store.onSink sink) =
      printResult outcome.1 (outcome.2.onSink (sink.put more)) := by
    unfold runLine
    rw [hbeside]
  refine ⟨?_, by rw [hinteract], ?_⟩
  · rw [hline, printResult_onSink (hsink.put more), hsink.put_put, hinteract]
  · rw [hinteract]
    exact ⟨h.frame, hwritten ▸ h.unfailing.put more⟩

/-- The loop answers every line that does not stop it as the session does. -/
theorem answers (h : AtWork s) (hsink : sink.Unfailing) {line : String} (htext : Text.trim line = text)
    (hgoesOn : ¬ Stops text) :
    ∃ outcome, answer s.interpreter (s.store.onSink sink) (.ofLine line) = some outcome ∧
      Answers s sink text outcome := by
  unfold Request.ofLine
  rw [htext]
  dsimp only
  by_cases hblank : text = ""
  · refine ⟨_, congrArg _ (if_pos hblank), ?_, ?_, ?_⟩ <;> rw [interact, if_pos hblank]
    · rw [hsink.put_empty]
    · exact h
  by_cases hhelp : text = ":help"
  · rw [if_neg hblank, if_pos hhelp]
    refine ⟨_, rfl, ?_, ?_, ?_⟩ <;> rw [interact, if_neg hblank, if_pos hhelp]
    · exact printLines_onSink hsink help
    · exact h
  by_cases henv : text = ":env"
  · rw [if_neg hblank, if_neg hhelp, if_pos henv]
    refine ⟨_, rfl, ?_, ?_, ?_⟩ <;> rw [interact, if_neg hblank, if_neg hhelp, if_pos henv]
    · rw [Store.allBindings_onSink, print_onSink, h.frame]
    · exact h
  -- what is left is a program, as the line does not stop the loop
  have hprogram : (if text = ":quit" ∨ text = ":exit" then Request.stop else .program text) =
      .program text := if_neg hgoesOn
  rw [if_neg hblank, if_neg hhelp, if_neg henv, hprogram]
  exact ⟨_, rfl, answers_program h hsink hblank hhelp henv⟩

/-- The loop stops at the lines that ask for it, and at no other. -/
theorem answer_eq_none_iff {ip : Interpreter} {σ : Store} {line : String} :
    answer ip σ (.ofLine line) = none ↔ Stops (Text.trim line) := by
  unfold Request.ofLine
  dsimp only
  constructor
  · intro hnone
    by_contra hgoesOn
    rw [if_neg (show ¬ (Text.trim line = ":quit" ∨ Text.trim line = ":exit") from hgoesOn)] at hnone
    split_ifs at hnone <;> cases hnone
  · rintro (hquit | hexit)
    · rw [hquit]
      rfl
    · rw [hexit]
      rfl

/-- The loop answers all lines as the session does, and says farewell. -/
theorem answerAll_onSink (h : AtWork s) (hsink : sink.Unfailing) (lines : List String) :
    let outcome := transcript s (answered lines)
    answerAll s.interpreter (s.store.onSink sink) (lines.map .line) =
      (.ok (), (outcome.2.store.onSink (sink.put outcome.1)).printLine farewell) := by
  -- the induction is on the lines; what was printed for the ones before stands on `sink` already
  induction lines generalizing s sink with
  | nil =>
    show (_, (s.store.onSink sink).printLine farewell) =
      (_, (s.store.onSink (sink.put "")).printLine farewell)
    rw [hsink.put_empty]
  | cons line lines ih =>
    rw [List.map_cons, answerAll]
    by_cases hstop : Stops (Text.trim line)
    · rw [answered_cons_of_stops hstop, answer_eq_none_iff.mpr hstop]
      show (_, (s.store.onSink sink).printLine farewell) =
        (_, (s.store.onSink (sink.put "")).printLine farewell)
      rw [hsink.put_empty]
    · obtain ⟨outcome, hanswer, hanswers⟩ := answers h hsink rfl hstop
      rw [answered_cons_of_not_stops hstop, hanswer]
      dsimp only
      rw [hanswers.store, ← hanswers.interpreter, ih hanswers.atWork (hsink.put _), hsink.put_put]
      rfl

/-- Behind the banner stand the transcript of the lines and the farewell. -/
theorem text_answerAll (h : AtWork s) (lines : List String) :
    ∃ σ, answerAll s.interpreter (s.store.printLines banner) (lines.map .line) = (.ok (), σ) ∧
      σ.sink.text = s.store.sink.text ++ asText banner ++ (transcript s (answered lines)).1 ++
        farewell ++ "\n" := by
  have hsink := h.unfailing
  have hbanner : s.store.printLines banner = s.store.onSink (s.store.sink.put (asText banner)) :=
    printLines_onSink hsink banner
  rw [hbanner, answerAll_onSink h (hsink.put _)]
  refine ⟨_, rfl, ?_⟩
  rw [Store.printLine, print_onSink]
  show (((s.store.sink.put _).put _).put _).text = _
  rw [((hsink.put _).put _).text_put, (hsink.put _).text_put, hsink.text_put, ← String.append_assoc]

/-! ## Lines that cannot be read -/

/-- A line cannot be read, for the reason given, before any line has stopped the loop. -/
def FailsAt (readings : List Reading) (reason : String) : Prop :=
  ∃ (before : List String) (after : List Reading), readings = before.map .line ++ .failed reason :: after ∧
    ∀ line ∈ before, ¬ Stops (Text.trim line)

/-- The loop ends with a reason exactly if a line before its stop cannot be read, for this reason. -/
theorem answerAll_eq_error_iff {ip : Interpreter} {readings : List Reading} {reason : String} :
    (answerAll ip σ readings).1 = .error reason ↔ FailsAt readings reason := by
  -- the store is free: lines that are answered change it before a reading fails
  induction readings generalizing σ with
  | nil =>
    refine iff_of_false nofun ?_
    rintro ⟨before, after, hreadings, -⟩
    simp at hreadings
  | cons reading readings ih =>
    cases reading with
    | failed reason' =>
      constructor
      · intro h
        obtain rfl := Except.error.inj h
        exact ⟨[], readings, rfl, nofun⟩
      · rintro ⟨before, after, hreadings, -⟩
        cases before with
        | nil =>
          obtain ⟨rfl, -⟩ := List.cons.inj hreadings |>.imp_left Reading.failed.inj
          rfl
        | cons => cases hreadings
    | line text =>
      rw [answerAll]
      cases hanswer : answer ip σ (.ofLine text) with
      | none =>
        -- the loop stops here, so no reading behind this line is asked for
        have hstop := answer_eq_none_iff.mp hanswer
        refine iff_of_false nofun ?_
        rintro ⟨before, after, hreadings, hgoesOn⟩
        cases before with
        | nil => cases hreadings
        | cons line before =>
          obtain ⟨rfl, -⟩ := List.cons.inj hreadings |>.imp_left Reading.line.inj
          exact hgoesOn _ List.mem_cons_self hstop
      | some τ =>
        have hgoesOn : ¬ Stops (Text.trim text) := by
          intro hstop
          rw [answer_eq_none_iff.mpr hstop] at hanswer
          cases hanswer
        refine ih.trans ⟨?_, ?_⟩
        · rintro ⟨before, after, rfl, hbefore⟩
          exact ⟨text :: before, after, rfl, List.forall_mem_cons.mpr ⟨hgoesOn, hbefore⟩⟩
        · rintro ⟨before, after, hreadings, hbefore⟩
          cases before with
          | nil => cases hreadings
          | cons line before =>
            exact ⟨before, after, (List.cons.inj hreadings).2,
              fun line' hline' => hbefore line' (List.mem_cons_of_mem _ hline')⟩

end Repl

/-! ## The program -/

theorem StepOrder.unfailing_run (ip : Interpreter) (text : String) (scope : FrameId) {σ : Store}
    (h : σ.sink.Unfailing) : (ip.run text scope σ).2.sink.Unfailing :=
  (Invariant.keeps_run (I := StepOrder.unfailing.invariant ip) ⟨⟩ fun _ _ _ _ _ _ => ⟨⟩).change h

theorem StepOrder.unfailing_loadUnit (ip : Interpreter) (text : String) (scope : FrameId) {σ : Store}
    (h : σ.sink.Unfailing) : (ip.loadUnit text scope σ).2.sink.Unfailing :=
  (Invariant.keeps_loadUnit (I := StepOrder.unfailing.invariant ip) ⟨⟩ fun _ _ _ _ _ _ => ⟨⟩).change h

namespace Cli

/-- The sink of the program takes everything when the program starts. -/
theorem unfailing_start (world : World) : (host world).session.store.sink.Unfailing := by
  have hload : ∀ σ : Store, σ.sink.Unfailing →
      ((host world).loader.loadPrelude Store.rootFrame σ).2.sink.Unfailing :=
    fun σ h => StepOrder.unfailing_loadUnit _ _ _ h
  have hmakes : ∀ bundle : Bundle,
      Registry.Makes (fun σ => σ.sink.Unfailing) (fun _ _ => True) bundle := by
    intro bundle σ h
    refine ⟨?_, fun _ _ => ⟨⟩, fun _ _ => ⟨⟩⟩
    show (bundle.make σ).2.sink.Unfailing
    rwa [(bundle.make_stampsOnly σ).sink]
  exact ((host world).start Sink.unfailing_unlimited hload fun _ _ source _ => hmakes source.2).1

/-- An attempt that succeeded has the effects of its action. -/
theorem attempt_ok {action : Action Value} {wrap : Error → Failure} {σ τ : Store}
    (h : (attempt wrap action >>= fun _ => pure ()) σ = (.ok (), τ)) : τ = (action σ).2 := by
  have hattempt : attempt wrap action σ = ((action σ).1.mapError wrap, (action σ).2) := rfl
  rw [Action.bind_apply, hattempt] at h
  cases hresult : (action σ).1 with
  | ok v =>
    rw [hresult] at h
    exact (congrArg Prod.snd h).symm
  | error e =>
    rw [hresult] at h
    cases h

/-- Loading the standard unit that succeeded has the effects of the unit. -/
theorem exists_of_loadStdlib {world : World} {ip : Interpreter} {options : Options} {σ τ : Store}
    (h : loadStdlib world ip options σ = (.ok (), τ)) :
    ∃ text, τ = (loadText ip options.allForms text σ).2 := by
  obtain ⟨stdlib, allForms, script⟩ := options
  cases stdlib with
  | none => exact ⟨prelude, attempt_ok h⟩
  | some path =>
    change (readFile world path >>= fun text =>
      attempt .stdlib (loadText ip allForms text) >>= fun _ => pure ()) σ = (.ok (), τ) at h
    rw [Action.bind_apply] at h
    unfold readFile at h
    cases hfile : world.text path with
    | ok text =>
      rw [hfile] at h
      exact ⟨text, attempt_ok h⟩
    | error fault =>
      rw [hfile] at h
      cases h

/-- The sink still takes everything when the standard unit has been loaded. -/
theorem unfailing_loadStdlib {world : World} {ip : Interpreter} {options : Options} {σ τ : Store}
    (hσ : σ.sink.Unfailing) (h : loadStdlib world ip options σ = (.ok (), τ)) :
    τ.sink.Unfailing := by
  obtain ⟨text, rfl⟩ := exists_of_loadStdlib h
  unfold loadText
  split
  · exact StepOrder.unfailing_run ip text _ hσ
  · exact StepOrder.unfailing_loadUnit ip text _ hσ

/-- Without a script the program loads the standard unit and is the loop then. -/
theorem run_repl {world : World} {args : List String} {options : Options} {σ : Store}
    {edit : String → String} {text : String} (hoptions : Options.ofArgs args = .ok options)
    (hscript : options.script = none)
    (hstdlib : loadStdlib world (host world).session.interpreter options (host world).session.store =
      (.ok (), σ))
    (hinput : world.input = text.toUTF8) (hreader : world.reader.Gives edit text) :
    let s : Session := { (host world).session with store := σ }
    run world args = ⟨0, σ.sink.text ++ Repl.asText Repl.banner ++
      (Repl.transcript s (Repl.answered ((Repl.lines text).map edit))).1 ++ Repl.farewell ++ "\n",
      diagnostics world args⟩ := by
  intro s
  have hatWork : Repl.AtWork s := ⟨rfl, unfailing_loadStdlib (unfailing_start world) hstdlib⟩
  obtain ⟨τ, hanswered, hprinted⟩ := Repl.text_answerAll hatWork ((Repl.lines text).map edit)
  have hinputRun : runInput world s.interpreter σ = (.ok (), τ) := by
    rw [List.map_map] at hanswered
    unfold runInput
    rw [hinput, hreader.readings]
    show ((Repl.answerAll s.interpreter (s.store.printLines Repl.banner) _).1.mapError _, _) = _
    rw [show (fun line => Repl.Reading.line (edit line)) = Repl.Reading.line ∘ edit from rfl, hanswered]
    rfl
  have hperform : perform world s.interpreter options (host world).session.store = (.ok (), τ) := by
    unfold perform
    rw [Action.bind_apply, hstdlib, hscript]
    exact hinputRun
  unfold run
  rw [hoptions]
  dsimp only
  rw [hperform]
  exact congrArg (Outcome.mk 0 · _) hprinted

/-- Without a script the program is the session of the lines that its line reader gives: behind the output
of the standard unit and the banner it prints what the session prints for each line up to the first one
that stops the loop, and then its farewell; and the session behind these lines is the one behind the
programs among them.  If there are no backspaces up to this line, the lines are those of the input as they
stand, whatever stands behind it. -/
theorem run_interactive {world : World} {args : List String} {options : Options} {σ : Store}
    {edit : String → String} {text : String} (hoptions : Options.ofArgs args = .ok options)
    (hscript : options.script = none)
    (hstdlib : loadStdlib world (host world).session.interpreter options (host world).session.store =
      (.ok (), σ))
    (hinput : world.input = text.toUTF8) (hreader : world.reader.Gives edit text) :
    let s : Session := { (host world).session with store := σ }
    let texts := Repl.answered ((Repl.lines text).map edit)
    let printed := Repl.transcript s texts
    run world args = ⟨0, σ.sink.text ++ Repl.asText Repl.banner ++ printed.1 ++ Repl.farewell ++ "\n",
      diagnostics world args⟩ ∧
    printed.2 = (s.reportAll ((Repl.programs texts).map (Step.run 0))).2 ∧
    ∀ before rest, Repl.lines text = before ++ rest → (∀ line ∈ before, '\x08' ∉ line.toList) →
      (rest = [] ∨ ∃ line ∈ before, Repl.Stops (Text.trim line)) → texts = Repl.answered before := by
  intro s texts printed
  refine ⟨run_repl hoptions hscript hstdlib hinput hreader, Repl.transcript_session s texts, ?_⟩
  intro before rest hlines hplain hrest
  exact Repl.answered_of_plain hreader hlines hplain hrest

/-! ## A line reader -/

/-- What is kept of a line, last character first, when one more character is typed. -/
def Repl.type (kept : List Char) (c : Char) : List Char := if c = '\x08' then kept.tail else c :: kept

/-- A line in which every backspace has taken back the character before it. -/
def Repl.typed (line : String) : String := String.ofList (line.toList.foldl type []).reverse

theorem Repl.foldl_type {line kept : List Char} (h : '\x08' ∉ line) :
    line.foldl type kept = line.reverse ++ kept := by
  induction line generalizing kept with
  | nil => rfl
  | cons c line ih =>
    obtain ⟨hc, hline⟩ := not_or.mp (mt List.mem_cons.mpr h)
    rw [List.foldl_cons, type, if_neg (Ne.symm hc), ih hline, List.reverse_cons, List.append_assoc,
      List.singleton_append]

theorem Repl.typed_eq_self {line : String} (h : '\x08' ∉ line.toList) : typed line = line := by
  rw [typed, foldl_type h, List.append_nil, List.reverse_reverse, String.ofList_toList]

theorem fromUTF8?_toUTF8 (text : String) : String.fromUTF8? text.toUTF8 = some text :=
  dif_pos text.isValidUTF8

/-- A reader that edits the lines of a text gives them. -/
theorem Repl.gives_ofEdit {edit : String → String}
    (hplain : ∀ line : String, '\x08' ∉ line.toList → edit line = line) (text : String) :
    (Repl.LineReader.ofEdit edit).Gives edit text where
  readings := by
    unfold Repl.LineReader.ofEdit
    simp only [fromUTF8?_toUTF8]
  plain line _ := hplain line

/-- A world in which every file is a text and nothing is set in the environment. -/
def World.ofTexts (file edit : String → String) (input : ByteArray) : World where
  file path := .ok (file path).toUTF8
  setting _ := none
  input := input
  reader := .ofEdit edit
  traced _ := ""

theorem World.text_ofTexts (file edit : String → String) (input : ByteArray) (path : String) :
    (ofTexts file edit input).text path = .ok (file path) := by
  show fileText (file path).toUTF8 = _
  rw [fileText, fromUTF8?_toUTF8]

/-- An empty file in place of the standard unit does nothing. -/
theorem loadStdlib_ofTexts_empty (edit : String → String) (input : ByteArray) (ip : Interpreter)
    (path : String) (σ : Store) :
    loadStdlib (.ofTexts (fun _ => "") edit input) ip ⟨some path, false, none⟩ σ = (.ok (), σ) := by
  let world := World.ofTexts (fun _ => "") edit input
  have hfile : readFile world path σ = (.ok "", σ) := by
    rw [readFile, World.text_ofTexts]
  have hread : ip.read "" = .ok [] := Interpreter.read_of_scan rfl rfl (by simp)
  have hload : loadText ip false "" σ = (.ok .unspecified, σ) := by
    show ip.loadUnit "" Store.rootFrame σ = _
    rw [Interpreter.loadUnit, hread]
    rfl
  have hattempt : attempt .stdlib (loadText ip false "") σ = (.ok .unspecified, σ) := by
    rw [attempt, hload]
    rfl
  show (readFile world path >>= fun text =>
    attempt .stdlib (loadText ip false text) >>= fun _ => pure ()) σ = _
  rw [Action.bind_apply, hfile]
  dsimp only
  rw [Action.bind_apply, hattempt]
  rfl

/-- A definition, a line with a backspace in it, and a line behind the one that stops the loop. -/
theorem run_interactive_define :
    let text := "(define x True)\n y\x08x \n:quit\n(log x)\n"
    let world := World.ofTexts (fun _ => "") Repl.typed text.toUTF8
    let args := ["--stdlib", "empty.ji"]
    let options : Options := ⟨some "empty.ji", false, none⟩
    let s := (host world).session
    Options.ofArgs args = .ok options ∧ options.script = none ∧
      loadStdlib world s.interpreter options s.store = (.ok (), s.store) ∧
      world.reader.Gives Repl.typed text ∧
      run world args = ⟨0, Repl.asText Repl.banner ++ "True\n" ++ Repl.farewell ++ "\n", ""⟩ := by
  intro text world args options s
  have hoptions : Options.ofArgs args = .ok options := by decide
  have hload : ∀ (ip : Interpreter) (σ : Store), loadStdlib world ip options σ = (.ok (), σ) :=
    fun ip σ => loadStdlib_ofTexts_empty Repl.typed text.toUTF8 ip "empty.ji" σ
  have hgives : world.reader.Gives Repl.typed text :=
    Repl.gives_ofEdit (fun _ => Repl.typed_eq_self) text
  have hrun := (run_interactive hoptions rfl (hload _ _) rfl hgives).1
  have htexts : Repl.answered ((Repl.lines text).map Repl.typed) = ["(define x True)", "x"] := by
    decide +kernel
  have hanalyze : ∀ ip : Interpreter, ip.limits = .standard →
      ip.analyze "(define x True)" = .ok [.define "x" (.name "True")] ∧
        ip.analyze "x" = .ok [.name "x"] := by
    intro ip hlimits
    have hdefine : ip.read "(define x True)" = .ok [.list [.sym "define", .sym "x", .sym "True"]] :=
      Interpreter.read_of_scan rfl rfl (by rw [hlimits]; decide)
    have hname : ip.read "x" = .ok [.sym "x"] :=
      Interpreter.read_of_scan rfl rfl (by rw [hlimits]; decide)
    exact ⟨Interpreter.analyze_eq_ok hdefine, Interpreter.analyze_eq_ok hname⟩
  obtain ⟨hdefine, hname⟩ := hanalyze s.interpreter rfl
  let e := Expr.define "x" (.name "True")
  -- the second line is run in the session behind the definition
  let s' : Session := { s with store := (s.interpreter.evaluateAll [e] Store.rootFrame s.store).2 }
  have hfirst : Repl.interact s "(define x True)" = ("", s') := by
    rw [Repl.interact_program (by decide) (by decide) (by decide), Interpreter.run_of_analyze_ok hdefine]
    refine Prod.ext ?_ rfl
    decide +kernel
  have hsecond : (Repl.interact s' "x").1 = "True\n" := by
    rw [Repl.interact_program (by decide) (by decide) (by decide), Interpreter.run_of_analyze_ok hname]
    decide +kernel
  have hprinted : (Repl.transcript s ["(define x True)", "x"]).1 = "True\n" := by
    rw [Repl.transcript, hfirst]
    dsimp only
    rw [Repl.transcript]
    dsimp only
    rw [hsecond]
    rfl
  refine ⟨hoptions, rfl, hload _ _, hgives, ?_⟩
  rw [hrun, htexts, hprinted]
  rfl

/-- If a line were run with the backspace in it, the program would print something else. -/
theorem run_interactive_backspace :
    let text := "(= 'a\x08b' 'b')\n"
    let world := World.ofTexts (fun _ => "") Repl.typed text.toUTF8
    let args := ["--stdlib", "empty.ji"]
    let options : Options := ⟨some "empty.ji", false, none⟩
    let s := (host world).session
    Options.ofArgs args = .ok options ∧
      loadStdlib world s.interpreter options s.store = (.ok (), s.store) ∧
      run world args ≠ ⟨0, s.store.sink.text ++ Repl.asText Repl.banner ++
        (Repl.transcript s (Repl.answered (Repl.lines text))).1 ++ Repl.farewell ++ "\n", ""⟩ := by
  intro text world args options s
  have hoptions : Options.ofArgs args = .ok options := by decide
  have hload : ∀ (ip : Interpreter) (σ : Store), loadStdlib world ip options σ = (.ok (), σ) :=
    fun ip σ => loadStdlib_ofTexts_empty Repl.typed text.toUTF8 ip "empty.ji" σ
  have hgives : world.reader.Gives Repl.typed text :=
    Repl.gives_ofEdit (fun _ => Repl.typed_eq_self) text
  have hrun := run_repl hoptions rfl (hload _ _) rfl hgives
  have htyped : Repl.answered ((Repl.lines text).map Repl.typed) = ["(= 'b' 'b')"] := by
    decide +kernel
  have htexts : Repl.answered (Repl.lines text) = ["(= 'a\x08b' 'b')"] := by decide +kernel
  have hanalyze : ∀ ip : Interpreter, ip.limits = .standard →
      ip.analyze "(= 'b' 'b')" =
        .ok [.application (.name "=") [.literal (.str "b"), .literal (.str "b")]] ∧
      ip.analyze "(= 'a\x08b' 'b')" =
        .ok [.application (.name "=") [.literal (.str "a\x08b"), .literal (.str "b")]] := by
    intro ip hlimits
    have hsame : ip.read "(= 'b' 'b')" = .ok [.list [.sym "=", .str "b", .str "b"]] :=
      Interpreter.read_of_scan rfl rfl (by rw [hlimits]; decide)
    have hother : ip.read "(= 'a\x08b' 'b')" = .ok [.list [.sym "=", .str "a\x08b", .str "b"]] :=
      Interpreter.read_of_scan rfl rfl (by rw [hlimits]; decide)
    exact ⟨Interpreter.analyze_eq_ok hsame, Interpreter.analyze_eq_ok hother⟩
  obtain ⟨hsame, hother⟩ := hanalyze s.interpreter rfl
  have hprinted : (Repl.transcript s ["(= 'b' 'b')"]).1 = "True\n" := by
    rw [Repl.transcript, Repl.interact_program (by decide) (by decide) (by decide),
      Interpreter.run_of_analyze_ok hsame]
    decide +kernel
  have hunedited : (Repl.transcript s ["(= 'a\x08b' 'b')"]).1 = "False\n" := by
    rw [Repl.transcript, Repl.interact_program (by decide) (by decide) (by decide),
      Interpreter.run_of_analyze_ok hother]
    decide +kernel
  refine ⟨hoptions, hload _ _, ?_⟩
  rw [hrun, htyped, htexts, hunedited, hprinted]
  decide +kernel

end Cli

end MiniLisp
