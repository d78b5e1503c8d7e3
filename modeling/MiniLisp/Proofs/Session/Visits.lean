import MiniLisp.Proofs.Eval.Moments
import MiniLisp.Proofs.Session.Invariant

/-!
# The moments of a session

A step of a session runs programs, evaluates expressions that were kept, and applies values.
`Session.Visits` are the moments of these runs.  An invariant that a host keeps holds at all of them
(`HostInvariant.visits`), and of everything that a run or its host can lay hands on there.
-/

namespace MiniLisp

namespace Session

/-- Where the runs of a step begin. -/
inductive Starts (s : Session) : Step → Moment → Prop where
  /-- At each expression of a program, once those before it have been evaluated. -/
  | run {scope : Nat} {text : String} {before after : List Expr} {e : Expr} {v : Value} {τ : Store}
      (hanalyze : s.interpreter.analyze text = .ok (before ++ e :: after))
      (hbefore : s.interpreter.evaluateAll before (s.frame scope) s.store = (.ok v, τ)) :
      Starts s (.run scope text) ⟨s.interpreter.limits.eval, .evaluate e (s.frame scope), τ, []⟩
  | load {scope : Nat} {text : String} {d : Datum} {ds : List Datum} {e : Expr}
      (hread : s.interpreter.read text = .ok (d :: ds)) (hd : Expr.ofDatum d = .ok e) :
      Starts s (.load scope text) ⟨s.interpreter.limits.eval, .evaluate e (s.frame scope), s.store, []⟩
  | loadPrelude {scope : Nat} {d : Datum} {ds : List Datum} {e : Expr}
      (hread : s.interpreter.read prelude = .ok (d :: ds)) (hd : Expr.ofDatum d = .ok e) :
      Starts s (.loadPrelude scope)
        ⟨s.interpreter.limits.eval, .evaluate e (s.frame scope), s.store, []⟩
  | execute {scope index : Nat} {e : Expr} (he : s.program[index]? = some e) :
      Starts s (.execute scope index)
        ⟨s.interpreter.limits.eval, .evaluate e (s.frame scope), s.store, []⟩
  | apply {scope : Nat} {callee : Supply} {args : List Supply} {v : Value} {vs : List Value}
      {τ υ : Store} (hcallee : callee.make (s.frame scope) s.store = (.ok v, τ))
      (hargs : Supply.makeAll (s.frame scope) args τ = (.ok vs, υ)) :
      Starts s (.apply scope callee args) ⟨s.interpreter.limits.eval, .apply v vs, υ, []⟩

/-- The moments of the runs of a step. -/
def Visits (s : Session) (step : Step) (m : Moment) : Prop :=
  ∃ start, s.Starts step start ∧ s.interpreter.Visits start m

/-- The value was shown in a report. -/
def Shown (reports : List Report) (v : Value) : Prop :=
  ∃ report ∈ reports, report.answer = .value v

/-- A store to which the session comes after these reports, between two steps or at a moment of one,
with the values that were shown before and those that a run holds there. -/
inductive Comes (s : Session) (reports : List Report) : Store → (Value → Prop) → Prop where
  | between : Comes s reports s.store (Shown reports)
  | inside {step : Step} {m : Moment} (h : s.Visits step m) :
      Comes s reports m.store fun v => Shown reports v ∨ v ∈ m.values

end Session

/-! ## Values that exist -/

/-- The value is bound in a frame, offered by a bundle, or given in another way. -/
inductive Interpreter.Present (ip : Interpreter) (σ : Store) (given : Value → Prop) (v : Value) : Prop
  | bound {f : FrameId} {x : String} (h : σ.Binds f x v)
  | offered {name : String} {bundle : Bundle} {entry : String × Blueprint}
      (hbundle : ip.bundles name = some bundle) (hentry : entry ∈ bundle) (h : entry.2.Gives v)
  | given (h : given v)

/-! ## Invariants at the moments of a session -/

namespace HostInvariant

variable {ip : Interpreter} {I : HostInvariant ip} {s : Session} {step : Step} {m : Moment}

theorem starts (h : I.Holds s) (hstarts : s.Starts step m) :
    I.At m ∧ I.change s.store m.store := by
  have hsame : s.interpreter = ip := h.interpreter
  subst hsame
  have hnone : ∀ {σ : Store}, ∀ v ∈ ([] : List Value), I.value σ v := fun _ => nofun
  cases hstarts with
  | @run scope text before after e v τ hanalyze hbefore =>
    have hruns : ∀ e' ∈ before ++ e :: after, I.runs s.store (s.frame scope) e' := by
      intro e' he'
      obtain ⟨_, _, hmem⟩ := Interpreter.exists_of_mem_analyze hanalyze
      obtain ⟨d, _, hd⟩ := hmem e' he'
      exact I.analysed (h.frame scope) hd
    have hkept := Invariant.keeps_evaluateAll h.state fun e' he' =>
      hruns e' (List.mem_append_left _ he')
    -- the forms before this one have ended, and what they did keeps the invariant
    obtain ⟨hτ, hchange, _⟩ := hkept.ended hbefore
    exact ⟨.evaluate hτ (I.runs_mono hchange (hruns e (by simp))) hnone, hchange⟩
  | load hread hd => exact ⟨.evaluate h.state (I.analysed (h.frame _) hd) hnone, I.refl _⟩
  | loadPrelude hread hd => exact ⟨.evaluate h.state (I.analysed (h.frame _) hd) hnone, I.refl _⟩
  | execute he =>
    obtain ⟨d, hd⟩ := h.program _ (Array.mem_of_getElem? he)
    exact ⟨.evaluate h.state (I.analysed (h.frame _) hd) hnone, I.refl _⟩
  | @apply scope callee args v vs τ υ hcallee hargs =>
    obtain ⟨hτ, hστ, hv⟩ := (keeps_make callee h.state (h.frame scope)).ended hcallee
    obtain ⟨hυ, hτυ, hvs⟩ :=
      (keeps_makeAll args hτ (I.scope_mono hστ (h.frame scope))).ended hargs
    exact ⟨.apply hυ (I.value_mono hτυ hv) hvs hnone, I.trans hστ hτυ⟩

/-- An invariant that a host keeps holds at every moment of its session. -/
theorem visits (h : I.Holds s) (hvisits : s.Visits step m) : I.At m ∧ I.change s.store m.store := by
  obtain ⟨start, hstarts, hbelow⟩ := hvisits
  have hsame : s.interpreter = ip := h.interpreter
  subst hsame
  obtain ⟨hat, hchange⟩ := I.starts h hstarts
  obtain ⟨hat', hchange'⟩ := Invariant.visits hat hbelow
  exact ⟨hat', I.trans hchange hchange'⟩

/-- So it holds in every store to which the session comes, and of the values that were shown or are
held there. -/
theorem comes {σ : Store} {given : Value → Prop} (h : I.Holds s) (steps : List Step)
    (hcomes : (s.reportAll steps).2.Comes (s.reportAll steps).1 σ given) :
    I.state σ ∧ I.change (s.reportAll steps).2.store σ ∧ ∀ v, given v → I.value σ v := by
  obtain ⟨hholds, _, hshown⟩ := I.reportAll h steps
  cases hcomes with
  | between =>
    refine ⟨hholds.state, I.refl _, ?_⟩
    rintro v ⟨report, hreport, hv⟩
    exact hshown report hreport v hv
  | inside hvisits =>
    obtain ⟨hat, hchange⟩ := I.visits hholds hvisits
    refine ⟨hat.state, hchange, ?_⟩
    rintro v (⟨report, hreport, hv⟩ | hv)
    · exact I.value_mono hchange (hshown report hreport v hv)
    · exact hat.values v hv

end HostInvariant

end MiniLisp
