import MiniLisp.Prelude
import MiniLisp.Primitive.Root
import MiniLisp.Session.Supply
import MiniLisp.Value.Inspection

/-!
# Sessions

A session is a host at work: it holds an interpreter and a store, hands out numbers for the scopes it
has met and the expressions it has analysed, and performs steps one after the other.  A step that
fails leaves the session usable, with the effects it had before it failed.
-/

namespace MiniLisp

/-- The state of a host at work. -/
structure Session where
  interpreter : Interpreter
  /-- The bundles that the host registered. -/
  registry : Registry
  store : Store
  /-- The frames of the scopes that have a number. -/
  scopes : Array FrameId
  /-- The expressions that were analysed to be evaluated later. -/
  program : Array Expr

/-- What a host can do.  A scope is given by its number. -/
inductive Step where
  /-- Evaluates all forms of a text. -/
  | run (scope : Nat) (text : String)
  /-- Evaluates the first form of a text. -/
  | load (scope : Nat) (text : String)
  /-- Loads the standard unit. -/
  | loadPrelude (scope : Nat)
  /-- Analyses a text and keeps its expressions. -/
  | compile (text : String)
  /-- Evaluates an expression that was kept. -/
  | execute (scope : Nat) (index : Nat)
  /-- Applies a value to arguments. -/
  | apply (scope : Nat) (callee : Supply) (args : List Supply)
  /-- Makes a scope without parent. -/
  | newScope (bindings : List (String × Supply))
  /-- Makes an empty scope inside another one. -/
  | childScope (scope : Nat)
  /-- Gives a number to the scope around another one. -/
  | parentScope (scope : Nat)
  | lookup (scope : Nat) (name : String)
  | contains (scope : Nat) (name : String)
  | define (scope : Nat) (name : String) (value : Supply)
  | assign (scope : Nat) (name : String) (value : Supply)
  /-- Lists the bindings of one frame. -/
  | localBindings (scope : Nat)
  /-- Lists all bindings that are visible. -/
  | allBindings (scope : Nat)
  /-- Describes a frame. -/
  | describe (scope : Nat)
  /-- Looks closely at the value of a name. -/
  | inspect (scope : Nat) (name : String)
  /-- Lists the names of the registered bundles. -/
  | bundleNames
  /-- Shows the bindings of a registered bundle. -/
  | showBundle (name : String)

/-- What a step gives back. -/
inductive Answer where
  | value (v : Value)
  | error (e : Error)
  /-- The number of the first expression that was kept, and how many were. -/
  | expressions (first count : Nat)
  /-- The number of a scope, if there is one. -/
  | scope (number? : Option Nat)
  | flag (b : Bool)
  | done
  /-- Names with the written forms of their values. -/
  | listing (entries : List (String × String))
  | description (text : String)
  | inspection (typeName : String) (truthy callable : Bool) (text : String)
  | names (names : List String)
  /-- The bindings of a registered bundle, if there is one. -/
  | bundle (listing? : Option (List (String × String)))

namespace Session

/-- The frame of a numbered scope. -/
def frame (s : Session) (scope : Nat) : FrameId :=
  s.scopes[scope]?.getD Store.rootFrame

/-- Performs an action on the store. -/
def act {α : Type} (s : Session) (action : Action α) (answer : α → Answer) : Answer × Session :=
  let (result, σ) := action s.store
  let s := { s with store := σ }
  match result with
  | .ok a => (answer a, s)
  | .error e => (.error e, s)

/-- Performs an action that gives a scope, and gives this scope the next number. -/
def enter (s : Session) (action : Action FrameId) : Answer × Session :=
  let (result, σ) := action s.store
  match result with
  | .ok f => (.scope (some s.scopes.size), { s with store := σ, scopes := s.scopes.push f })
  | .error e => (.error e, { s with store := σ })

/-- Names with the written forms of their values. -/
def listing (entries : List (String × Value)) : List (String × String) :=
  entries.map fun entry => (entry.1, entry.2.text)

/-- A frame in words: the names it binds, and whether a frame is around it. -/
def describeFrame (σ : Store) (f : FrameId) : String :=
  "Scope \x7b bindings: " ++ Text.escapeAll (σ.localBindings f).names ++ ", has_parent: " ++
    (if (σ.parent? f).isSome then "true" else "false") ++ " \x7d"

/-- Opens a frame that ends its scope. -/
def openRoot (bindings : List (String × Supply)) : Action FrameId := do
  let entries ← Supply.makeBindings Store.rootFrame bindings
  fun σ =>
    let (f, σ) := σ.addFrame none entries
    (.ok f, σ)

/-- Performs a step. -/
def perform (s : Session) : Step → Answer × Session
  | .run scope text => s.act (s.interpreter.run text (s.frame scope)) .value
  | .load scope text => s.act (s.interpreter.loadUnit text (s.frame scope)) .value
  | .loadPrelude scope => s.act (s.interpreter.loadPrelude (s.frame scope)) .value
  | .compile text =>
    match s.interpreter.analyze text with
    | .ok es => (.expressions s.program.size es.length, { s with program := s.program.appendList es })
    | .error e => (.error e, s)
  | .execute scope index =>
    let e := s.program[index]?.getD (.literal .unspecified)
    s.act (s.interpreter.evaluate e (s.frame scope)) .value
  | .apply scope callee args =>
    s.act (do
      let callee ← callee.make (s.frame scope)
      let args ← Supply.makeAll (s.frame scope) args
      s.interpreter.apply callee args) .value
  | .newScope bindings => s.enter (openRoot bindings)
  | .childScope scope => s.enter (openFrame (s.frame scope) [])
  | .parentScope scope =>
    match s.store.parent? (s.frame scope) with
    | some f => s.enter (pure f)
    | none => (.scope none, s)
  | .lookup scope name => s.act (lookupName (s.frame scope) name) .value
  | .contains scope name => (.flag (s.store.contains (s.frame scope) name), s)
  | .define scope name value =>
    s.act (do defineName (s.frame scope) name (← value.make (s.frame scope))) fun _ => .done
  | .assign scope name value =>
    s.act (do
      let v ← value.make (s.frame scope)
      fun σ =>
        let (found, σ) := σ.assign (s.frame scope) name v
        (.ok found, σ)) .flag
  | .localBindings scope => (.listing (listing (s.store.localBindings (s.frame scope)).entries), s)
  | .allBindings scope => (.listing (listing (s.store.allBindings (s.frame scope)).entries), s)
  | .describe scope => (.description (describeFrame s.store (s.frame scope)), s)
  | .inspect scope name =>
    s.act (lookupName (s.frame scope) name) fun v =>
      .inspection v.typeName v.isTruthy v.isCallable (v.inspect s.store.parametersOf)
  | .bundleNames => (.names s.registry.names, s)
  | .showBundle name => (.bundle ((s.registry.get? name).map listing), s)

/-! ## Reports -/

/-- The answer to a step, with what the step wrote to the sink. -/
structure Report where
  answer : Answer
  log : String

/-- The part of `text` after a beginning that is as long as `earlier`. -/
def newText (earlier text : String) : String :=
  String.ofList (text.toList.drop earlier.length)

/-- Performs a step and reports what it wrote. -/
def report (s : Session) (step : Step) : Report × Session :=
  let earlier := s.store.sink.text
  let (answer, s) := s.perform step
  (⟨answer, newText earlier s.store.sink.text⟩, s)

/-- Performs steps in order. -/
def reportAll (s : Session) : List Step → List Report × Session
  | [] => ([], s)
  | step :: steps =>
    let (r, s) := s.report step
    let (rs, s) := s.reportAll steps
    (r :: rs, s)

end Session

end MiniLisp
