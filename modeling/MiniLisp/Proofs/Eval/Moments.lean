import Mathlib.Logic.Relation
import MiniLisp.Proofs.Eval.Invariant

/-!
# The moments of a run

While an expression is evaluated its parts are, one after the other and each in the store that the ones
before it have left, and so are the bodies of the functions that it calls.  A `Moment` is the point at
which one of these evaluations or calls begins, and `Interpreter.Next` leads from a moment to those that
come directly below it.  Whatever keeps an invariant keeps it at all moments (`Invariant.visits`).
-/

namespace MiniLisp

/-- What a run is about to do. -/
inductive Task where
  | evaluate (e : Expr) (scope : FrameId)
  | apply (callee : Value) (args : List Value)

/-- The values of a call that is about to happen. -/
def Task.values : Task → List Value
  | evaluate _ _ => []
  | apply callee args => callee :: args

/-- The point of a run at which an evaluation or a call begins. -/
structure Moment where
  /-- The levels that are left. -/
  levels : Nat
  task : Task
  store : Store
  /-- The values of the applications around that are not complete yet. -/
  held : List Value

/-- The values that a run holds beside those in its store. -/
def Moment.values (m : Moment) : List Value := m.task.values ++ m.held

namespace Interpreter

/-- What a run does next below a moment, for the parts of an expression or of a call from left to
right. -/
inductive Next (ip : Interpreter) : Moment → Moment → Prop where
  | first {n : Nat} {e e' : Expr} {rest : List Expr} {scope : FrameId} {σ : Store} {held : List Value}
      (h : e.operands = e' :: rest) :
      Next ip ⟨n + 1, .evaluate e scope, σ, held⟩ ⟨n, .evaluate e' scope, σ, held⟩
  | thenYes {n : Nat} {test yes : Expr} {scope : FrameId} {σ τ : Store} {v : Value}
      {held : List Value} (htest : ip.eval n test scope σ = (.ok v, τ)) (hv : v.isTruthy = true) :
      Next ip ⟨n + 1, .evaluate (.ifThen test yes) scope, σ, held⟩ ⟨n, .evaluate yes scope, τ, held⟩
  | elseYes {n : Nat} {test yes no : Expr} {scope : FrameId} {σ τ : Store} {v : Value}
      {held : List Value} (htest : ip.eval n test scope σ = (.ok v, τ)) (hv : v.isTruthy = true) :
      Next ip ⟨n + 1, .evaluate (.ifElse test yes no) scope, σ, held⟩
        ⟨n, .evaluate yes scope, τ, held⟩
  | elseNo {n : Nat} {test yes no : Expr} {scope : FrameId} {σ τ : Store} {v : Value}
      {held : List Value} (htest : ip.eval n test scope σ = (.ok v, τ)) (hv : v.isTruthy = false) :
      Next ip ⟨n + 1, .evaluate (.ifElse test yes no) scope, σ, held⟩
        ⟨n, .evaluate no scope, τ, held⟩
  | step {n : Nat} {e : Expr} {before after : List Expr} {scope : FrameId} {σ τ : Store} {v : Value}
      {held : List Value}
      (hbefore : before.foldlM (fun _ e => ip.eval n e scope) .nil σ = (.ok v, τ)) :
      Next ip ⟨n + 1, .evaluate (.sequence (before ++ e :: after)) scope, σ, held⟩
        ⟨n, .evaluate e scope, τ, held⟩
  | imported {n : Nat} {name : String} {body : Expr} {scope f : FrameId} {σ τ : Store}
      {held : List Value} (hopened : openBundle ip.bundles scope name σ = (.ok f, τ)) :
      Next ip ⟨n + 1, .evaluate (.withBundle name body) scope, σ, held⟩
        ⟨n, .evaluate body f, τ, held⟩
  | argument {n : Nat} {callee e : Expr} {before after : List Expr} {scope : FrameId} {σ τ υ : Store}
      {v : Value} {vs held : List Value} (hcallee : ip.eval n callee scope σ = (.ok v, τ))
      (hbefore : before.mapM (fun e => ip.eval n e scope) τ = (.ok vs, υ)) :
      Next ip ⟨n + 1, .evaluate (.application callee (before ++ e :: after)) scope, σ, held⟩
        ⟨n, .evaluate e scope, υ, v :: vs ++ held⟩
  | call {n : Nat} {callee : Expr} {args : List Expr} {scope : FrameId} {σ τ υ : Store} {v : Value}
      {vs held : List Value} (hcallee : ip.eval n callee scope σ = (.ok v, τ))
      (hargs : args.mapM (fun e => ip.eval n e scope) τ = (.ok vs, υ)) :
      Next ip ⟨n + 1, .evaluate (.application callee args) scope, σ, held⟩ ⟨n, .apply v vs, υ, held⟩
  | body {n : Nat} {id : ClosureId} {c : Closure} {f : FrameId} {σ τ : Store} {vs held : List Value}
      (hc : σ.closures[id]? = some c)
      (hopened : openFrame c.scope (bindArguments c.parameters vs) σ = (.ok f, τ)) :
      Next ip ⟨n, .apply (.closure id) vs, σ, held⟩
        ⟨n - 1, .evaluate c.body f, τ, .closure id :: vs ++ held⟩

/-- What comes below a moment, at any depth. -/
def Visits (ip : Interpreter) : Moment → Moment → Prop := Relation.ReflTransGen ip.Next

end Interpreter

namespace Invariant

variable {ip : Interpreter} {I : Invariant ip} {m m' : Moment}

/-- What holds at a moment. -/
structure At (I : Invariant ip) (m : Moment) : Prop where
  state : I.state m.store
  runs : ∀ e scope, m.task = .evaluate e scope → I.runs m.store scope e
  values : ∀ v ∈ m.values, I.value m.store v

variable {α : Type} {good : Store → α → Prop} {n n' : Nat} {e e' : Expr} {es : List Expr}
variable {scope : FrameId} {σ τ : Store} {v : Value} {vs held : List Value}

/-- What an action that ended in a value has kept. -/
theorem Keeps.ended {outcome : Except Error α × Store} {a : α} (h : I.Keeps good σ outcome)
    (hended : outcome = (.ok a, τ)) : I.state τ ∧ I.change σ τ ∧ good τ a := by
  subst hended
  exact ⟨h.state, h.change, h.result a rfl⟩

theorem At.evaluate (hstate : I.state σ) (hruns : I.runs σ scope e)
    (hheld : ∀ v ∈ held, I.value σ v) : I.At ⟨n, .evaluate e scope, σ, held⟩ := by
  refine ⟨hstate, ?_, hheld⟩
  rintro _ _ ⟨⟩
  exact hruns

theorem At.apply (hstate : I.state σ) (hv : I.value σ v) (hvs : ∀ w ∈ vs, I.value σ w)
    (hheld : ∀ w ∈ held, I.value σ w) : I.At ⟨n, .apply v vs, σ, held⟩ := by
  refine ⟨hstate, fun _ _ => nofun, ?_⟩
  intro w hw
  rcases List.mem_append.mp hw with hw | hw
  · rcases List.mem_cons.mp hw with rfl | hw
    · exact hv
    · exact hvs w hw
  · exact hheld w hw

/-- An operand of the expression at a moment can be evaluated in every later store. -/
theorem At.operand (h : I.At ⟨n, .evaluate e scope, σ, held⟩) (hmem : e' ∈ e.operands)
    (hchange : I.change σ τ) : I.runs τ scope e' :=
  I.runs_mono hchange (I.operand (h.runs e scope rfl) hmem)

theorem At.held_mono (h : I.At ⟨n, .evaluate e scope, σ, held⟩) (hchange : I.change σ τ) :
    ∀ v ∈ held, I.value τ v :=
  fun v hv => I.value_mono hchange (h.values v hv)

/-- So the moment of such an operand keeps the invariant. -/
theorem At.below (h : I.At ⟨n, .evaluate e scope, σ, held⟩) (hmem : e' ∈ e.operands)
    (hstate : I.state τ) (hchange : I.change σ τ) : I.At ⟨n', .evaluate e' scope, τ, held⟩ :=
  .evaluate hstate (h.operand hmem hchange) (h.held_mono hchange)

/-- An operand that was evaluated has kept the invariant. -/
theorem At.evaluated (h : I.At ⟨n, .evaluate e scope, σ, held⟩) (hmem : e' ∈ e.operands)
    (heval : ip.eval n' e' scope σ = (.ok v, τ)) : I.state τ ∧ I.change σ τ ∧ I.value τ v :=
  (I.eval n' h.state (h.operand hmem (I.refl σ))).ended heval

/-- So have several ones. -/
theorem At.evaluatedAll {υ : Store} (h : I.At ⟨n, .evaluate e scope, σ, held⟩)
    (hmem : ∀ e' ∈ es, e' ∈ e.operands) (hstate : I.state τ) (hchange : I.change σ τ)
    (hevals : es.mapM (fun e' => ip.eval n' e' scope) τ = (.ok vs, υ)) :
    I.state υ ∧ I.change τ υ ∧ ∀ v ∈ vs, I.value υ v := by
  refine Keeps.ended (.mapM hstate ?_) hevals
  intro e' he' τ' hτ' hchange'
  exact I.eval n' hτ' (h.operand (hmem e' he') (I.trans hchange hchange'))

/-- An invariant is kept from a moment to what comes next below it. -/
theorem next (h : I.At m) (hnext : ip.Next m m') : I.At m' ∧ I.change m.store m'.store := by
  -- every step to a moment below first ends some runs, which keep the invariant
  cases hnext with
  | first hoperands =>
    exact ⟨h.below (by rw [hoperands]; exact List.mem_cons_self) h.state (I.refl _), I.refl _⟩
  | thenYes htest _ =>
    obtain ⟨hτ, hchange, _⟩ := h.evaluated (by simp) htest
    exact ⟨h.below (by simp) hτ hchange, hchange⟩
  | elseYes htest _ =>
    obtain ⟨hτ, hchange, _⟩ := h.evaluated (by simp) htest
    exact ⟨h.below (by simp) hτ hchange, hchange⟩
  | elseNo htest _ =>
    obtain ⟨hτ, hchange, _⟩ := h.evaluated (by simp) htest
    exact ⟨h.below (by simp) hτ hchange, hchange⟩
  | @step n e before after scope σ τ v held hbefore =>
    have hkept : I.Keeps I.value σ (before.foldlM (fun _ e => ip.eval n e scope) .nil σ) := by
      refine .foldlM h.state (I.nil σ) ?_
      intro e' he' τ' hτ' hchange
      exact I.eval n hτ' (h.operand (List.mem_append_left _ he') hchange)
    obtain ⟨hτ, hchange, _⟩ := hkept.ended hbefore
    exact ⟨h.below (by simp) hτ hchange, hchange⟩
  | @imported n name body scope f σ τ held hopened =>
    have hkept := keeps_openBundle h.state (h.runs (.withBundle name body) scope rfl)
    obtain ⟨hτ, hchange, hbody⟩ := hkept.ended hopened
    exact ⟨.evaluate hτ hbody (h.held_mono hchange), hchange⟩
  | @argument n callee e before after scope σ τ υ v vs held hcallee hbefore =>
    obtain ⟨hτ, hστ, hv⟩ := h.evaluated List.mem_cons_self hcallee
    obtain ⟨hυ, hτυ, hvs⟩ := h.evaluatedAll (by simp +contextual) hτ hστ hbefore
    have hchange := I.trans hστ hτυ
    refine ⟨.evaluate hυ (h.operand (by simp) hchange) ?_, hchange⟩
    exact (At.apply (n := n) hυ (I.value_mono hτυ hv) hvs (h.held_mono hchange)).values
  | @call n callee args scope σ τ υ v vs held hcallee hargs =>
    obtain ⟨hτ, hστ, hv⟩ := h.evaluated List.mem_cons_self hcallee
    obtain ⟨hυ, hτυ, hvs⟩ := h.evaluatedAll (by simp +contextual) hτ hστ hargs
    have hchange := I.trans hστ hτυ
    exact ⟨.apply hυ (I.value_mono hτυ hv) hvs (h.held_mono hchange), hchange⟩
  | @body n id c f σ τ vs held hc hopened =>
    have hcallee : I.value σ (.closure id) := h.values _ List.mem_cons_self
    have hargs : ∀ v ∈ vs, I.value σ v := fun v hv =>
      h.values v (List.mem_append_left _ (List.mem_cons_of_mem _ hv))
    obtain ⟨hτ, hchange, hbody⟩ := I.call h.state hcallee hc hargs
    cases hopened
    exact ⟨.evaluate hτ hbody fun v hv => I.value_mono hchange (h.values v hv), hchange⟩

/-- An invariant is kept at all moments below one. -/
theorem visits (h : I.At m) (hvisits : ip.Visits m m') : I.At m' ∧ I.change m.store m'.store := by
  induction hvisits with
  | refl => exact ⟨h, I.refl _⟩
  | tail _ hnext ih =>
    obtain ⟨hat, hchange⟩ := next ih.1 hnext
    exact ⟨hat, I.trans ih.2 hchange⟩

end Invariant

end MiniLisp
