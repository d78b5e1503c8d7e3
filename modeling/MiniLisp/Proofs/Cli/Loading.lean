import MiniLisp.Cli.Command
import MiniLisp.Proofs.Program.Output

/-!
# Loading a unit

The program loads a unit in stages: its text is found, read, analysed and evaluated, and the first stage
that fails is the end.  `Cli.Loads` has one rule for each way in which loading ends and says what was
written to the sink by then; `Cli.Loads.load` and `Cli.exists_loads` say that the program loads a unit in
exactly these ways.
-/

namespace MiniLisp.Cli

/-! ## Sources -/

/-- A unit that the program loads. -/
inductive Source where
  /-- The standard unit, or the file in its place. -/
  | stdlib (path : Option String)
  | script (path : String)

namespace Source

/-- The path of the unit, if it stands in a file. -/
def path? : Source → Option String
  | stdlib path => path
  | script path => some path

/-- The text of the unit. -/
def text (world : World) (source : Source) : Except FileFault String :=
  match source.path? with
  | some path => world.text path
  | none => .ok prelude

/-- How a run fails on an error of the unit. -/
def failure : Source → Error → Failure
  | stdlib _ => .stdlib
  | script path => .script path

end Source

/-! ## Stages -/

/-- The forms of a unit that are evaluated. -/
def taken (allForms : Bool) (forms : List Datum) : List Datum :=
  if allForms then forms else forms.take 1

/-- The interpreter of the program. -/
def World.interpreter (world : World) : Interpreter := (host world).session.interpreter

/-- The store that the program starts with. -/
def World.start (world : World) : Store := (host world).session.store

/-- A unit is loaded into a store: how this ends, what was written to the sink by then, and the store
behind it. -/
inductive Loads (world : World) (allForms : Bool) (source : Source) (σ : Store) :
    Except Failure Value → List Value → Store → Prop
  | unreadable {path : String} {fault : FileFault} (hpath : source.path? = some path)
      (hfile : world.text path = .error fault) :
      Loads world allForms source σ (.error (.unreadable path fault)) [] σ
  | unread {text : String} {e : Error} (htext : source.text world = .ok text)
      (hread : world.interpreter.read text = .error e) :
      Loads world allForms source σ (.error (source.failure e)) [] σ
  /-- Nothing is evaluated before all forms that are taken have been analysed. -/
  | unanalysed {text : String} {forms before after : List Datum} {d : Datum} {e : Error}
      (htext : source.text world = .ok text) (hread : world.interpreter.read text = .ok forms)
      (hforms : taken allForms forms = before ++ d :: after)
      (hbefore : ∀ d' ∈ before, ∃ x, Expr.ofDatum d' = .ok x) (hd : Expr.ofDatum d = .error e) :
      Loads world allForms source σ (.error (source.failure e)) [] σ
  /-- Nothing is evaluated behind the expression that fails. -/
  | failed {text : String} {forms : List Datum} {before after : List Expr} {x : Expr} {e : Error}
      {v : Value} {vs : List Value} {ρ τ : Store}
      (htext : source.text world = .ok text) (hread : world.interpreter.read text = .ok forms)
      (hforms : Expr.ofData (taken allForms forms) = .ok (before ++ x :: after))
      (hbefore : world.interpreter.evaluateAll before Store.rootFrame σ = (.ok v, ρ))
      (hx : world.interpreter.evaluate x Store.rootFrame ρ = (.error e, τ))
      (hwritten : τ.sink = σ.sink.writeLines vs) :
      Loads world allForms source σ (.error (source.failure e)) vs τ
  | loaded {text : String} {forms : List Datum} {es : List Expr} {v : Value} {vs : List Value}
      {τ : Store} (htext : source.text world = .ok text)
      (hread : world.interpreter.read text = .ok forms)
      (hforms : Expr.ofData (taken allForms forms) = .ok es)
      (hes : world.interpreter.evaluateAll es Store.rootFrame σ = (.ok v, τ))
      (hwritten : τ.sink = σ.sink.writeLines vs) :
      Loads world allForms source σ (.ok v) vs τ

variable {world world' : World} {ip : Interpreter} {source : Source} {allForms : Bool} {text : String}
variable {forms : List Datum} {σ τ : Store}

/-! ## Texts -/

theorem loadText_of_read_error {e : Error} (h : ip.read text = .error e) :
    loadText ip allForms text σ = (.error e, σ) := by
  unfold loadText
  split
  · exact ip.run_of_read_error h
  · exact ip.loadUnit_of_read_error h

/-- All forms of a text or only the first one are loaded in the same way. -/
theorem loadText_of_read_ok (h : ip.read text = .ok forms) :
    loadText ip allForms text = (Action.ofExcept (Expr.ofData (taken allForms forms)) >>= fun es =>
      ip.evaluateAll es Store.rootFrame) := by
  cases allForms with
  | true =>
    show ip.run text Store.rootFrame = _
    rw [Interpreter.run, Interpreter.analyze_eq_ok h]
    rfl
  | false =>
    show ip.loadUnit text Store.rootFrame = _
    cases forms with
    | nil =>
      rw [Interpreter.loadUnit, h]
      rfl
    | cons form forms =>
      -- the first form alone is a text of one form
      rw [Interpreter.loadUnit_of_read_ok h]
      show _ = (Action.ofExcept (Expr.ofData [form]) >>= _)
      rw [Expr.ofData, Expr.ofData]
      cases hform : Expr.ofDatum form with
      | error e => rfl
      | ok x => exact (ip.evaluateAll_singleton x).symm

/-- If no more than one form stands in a text, it does not matter which ones are taken. -/
theorem loadText_eq_of_length_le (h : ∀ forms, ip.read text = .ok forms → forms.length ≤ 1) :
    loadText ip true text = loadText ip false text := by
  cases hread : ip.read text with
  | error e =>
    funext σ
    rw [loadText_of_read_error hread, loadText_of_read_error hread]
  | ok forms =>
    have hall : taken false forms = taken true forms := List.take_of_length_le (h forms hread)
    rw [loadText_of_read_ok hread, loadText_of_read_ok hread, hall]

/-! ## Loading -/

/-- Finds the text of a unit. -/
def Source.read (world : World) (source : Source) : Command String :=
  match source.path? with
  | some path => readFile world path
  | none => pure prelude

/-- Loads a unit. -/
def load (world : World) (allForms : Bool) (source : Source) : Command Value := do
  let text ← source.read world
  attempt source.failure (loadText world.interpreter allForms text)

theorem load_of_unreadable {path : String} {fault : FileFault} (hpath : source.path? = some path)
    (hfile : world.text path = .error fault) :
    load world allForms source σ = (.error (.unreadable path fault), σ) := by
  have hread : source.read world σ = (.error (.unreadable path fault), σ) := by
    simp only [Source.read, hpath, readFile, hfile]
  rw [load, Action.bind_apply, hread]

theorem load_of_text (htext : source.text world = .ok text) :
    load world allForms source σ =
      attempt source.failure (loadText world.interpreter allForms text) σ := by
  have hread : source.read world σ = (.ok text, σ) := by
    unfold Source.text at htext
    unfold Source.read
    cases hpath : source.path? with
    | some path =>
      rw [hpath] at htext
      simp only [readFile, htext]
    | none =>
      rw [hpath] at htext
      obtain rfl := Except.ok.inj htext
      rfl
  rw [load, Action.bind_apply, hread]

theorem load_of_forms (htext : source.text world = .ok text)
    (hread : world.interpreter.read text = .ok forms) :
    load world allForms source σ = attempt source.failure
      (Action.ofExcept (Expr.ofData (taken allForms forms)) >>= fun es =>
        world.interpreter.evaluateAll es Store.rootFrame) σ := by
  rw [load_of_text htext, loadText_of_read_ok hread]

/-- Every way of loading is what the program does, and what it then wrote stands on the sink. -/
theorem Loads.load {result : Except Failure Value} {vs : List Value}
    (h : Loads world allForms source σ result vs τ) :
    load world allForms source σ = (result, τ) ∧ τ.sink = σ.sink.writeLines vs := by
  cases h with
  | unreadable hpath hfile => exact ⟨load_of_unreadable hpath hfile, rfl⟩
  | unread htext hread =>
    refine ⟨?_, rfl⟩
    rw [load_of_text htext]
    simp only [attempt, loadText_of_read_error hread, Except.mapError]
  | unanalysed htext hread hforms hbefore hd =>
    refine ⟨?_, rfl⟩
    rw [load_of_forms htext hread, hforms, Expr.ofData_eq_error hbefore hd]
    rfl
  | @failed _ _ before after x e v vs ρ τ htext hread hforms hbefore hx hwritten =>
    have hfails := Interpreter.evaluateAll_eq_error_iff.mpr ⟨before, x, after, v, ρ, rfl, hbefore, hx⟩
    refine ⟨?_, hwritten⟩
    rw [load_of_forms htext hread, hforms]
    simp only [attempt, Action.bind_apply, Action.ofExcept, hfails, Except.mapError]
  | loaded htext hread hforms hes hwritten =>
    refine ⟨?_, hwritten⟩
    rw [load_of_forms htext hread, hforms]
    simp only [attempt, Action.bind_apply, Action.ofExcept, hes, Except.mapError]

/-- The program loads every unit in one of these ways. -/
theorem exists_loads (world : World) (allForms : Bool) (source : Source) (σ : Store) :
    ∃ result vs τ, Loads world allForms source σ result vs τ := by
  -- one stage after the other: each either ends the loading or hands its result on
  cases htext : source.text world with
  | error fault =>
    unfold Source.text at htext
    split at htext
    · rename_i path hpath
      exact ⟨_, _, _, .unreadable hpath htext⟩
    · cases htext
  | ok text =>
    cases hread : world.interpreter.read text with
    | error e => exact ⟨_, _, _, .unread htext hread⟩
    | ok forms =>
      cases hforms : Expr.ofData (taken allForms forms) with
      | error e =>
        obtain ⟨before, d, after, hsplit, hbefore, hd⟩ := Expr.exists_of_ofData_eq_error hforms
        exact ⟨_, _, _, .unanalysed htext hread hsplit hbefore hd⟩
      | ok es =>
        obtain ⟨result, τ, hes⟩ :
            ∃ result τ, world.interpreter.evaluateAll es Store.rootFrame σ = (result, τ) := ⟨_, _, rfl⟩
        obtain ⟨vs, hwritten⟩ := Interpreter.exists_lines hes
        cases result with
        | ok v => exact ⟨_, _, _, .loaded htext hread hforms hes hwritten⟩
        | error e =>
          obtain ⟨before, x, after, v, ρ, rfl, hbefore, hx⟩ := Interpreter.evaluateAll_eq_error_iff.mp hes
          exact ⟨_, _, _, .failed htext hread hforms hbefore hx hwritten⟩

/-! ## What loading depends on -/

/-- The program is set up by the environment alone. -/
theorem host_congr (hsetting : world'.setting = world.setting) : host world' = host world := by
  unfold host
  rw [hsetting]

/-- Loading depends on the environment and on the file of the unit. -/
theorem load_congr (hsetting : world'.setting = world.setting)
    (hfile : ∀ path, source.path? = some path → world'.file path = world.file path) :
    load world' allForms source = load world allForms source := by
  have hinterpreter : world'.interpreter = world.interpreter := by
    rw [World.interpreter, host_congr hsetting, World.interpreter]
  have hread : source.read world' = source.read world := by
    unfold Source.read
    split
    · rename_i path hpath
      funext σ
      simp only [readFile, World.text, hfile path hpath]
    · rfl
  rw [load, load, hinterpreter, hread]

/-- If no more than one form stands in a unit, it does not matter which ones are taken. -/
theorem load_eq_of_length_le (h : ∀ text forms, source.text world = .ok text →
    world.interpreter.read text = .ok forms → forms.length ≤ 1) :
    load world true source = load world false source := by
  funext σ
  obtain ⟨result, vs, τ, hloads⟩ := exists_loads world false source σ
  cases htext : source.text world with
  | ok text =>
    rw [load_of_text htext, load_of_text htext,
      loadText_eq_of_length_le fun forms hread => h text forms htext hread]
  | error fault =>
    cases hloads with
    | unreadable hpath hfile => rw [load_of_unreadable hpath hfile, load_of_unreadable hpath hfile]
    | unread htext' | unanalysed htext' | failed htext' | loaded htext' =>
      rw [htext] at htext'
      cases htext'

end MiniLisp.Cli
