import MiniLisp.Proofs.Eval.Sinks
import MiniLisp.Proofs.Program.Composition

/-!
# Programs and their output

A program reads and analyses its text without a look at the sink, so whole programs can be compared on
two sinks as runs can.  On sinks that take everything it does the same, whatever they hold, and appends
the same text to them.  What a program leaves on its sink are lines, each of a value that it wrote.
-/

namespace MiniLisp

/-- A whole program is run on two sinks in lockstep. -/
theorem Interpreter.run_onSinks (ip : Interpreter) (C : Sink.Comparison) (text : String)
    (scope : FrameId) {σ : Store} {sink : Sink} (h : C.rel σ.sink sink) :
    (Lockstep.onSinks ip C).Paired (ip.run text scope σ) (ip.run text scope (σ.onSink sink)) := by
  let S := Lockstep.onSinks ip C
  have hrel : S.rel σ (σ.onSink sink) := ⟨sink, h, rfl⟩
  cases hanalyze : ip.analyze text with
  | error e =>
    rw [run_of_analyze_error hanalyze, run_of_analyze_error hanalyze]
    exact .error e hrel
  | ok es =>
    rw [run_of_analyze_ok hanalyze]
    refine .foldlM .unspecified ⟨⟩ hrel ?_ ?_ ?_
    · intro e _ σ' _ _
      exact (StepOrder.trivial.invariant ip).eval ip.limits.eval ⟨⟩ ⟨⟩
    · intro e _ σ' τ' _ _ hrel'
      exact S.eval ip.limits.eval ⟨⟩ ⟨⟩ hrel'
    · intro e _
      exact S.order.eval ip ip.limits.eval e scope

/-- A program does the same on two sinks that take everything, and writes the same to both. -/
theorem Interpreter.run_beside (ip : Interpreter) (text : String) (scope : FrameId) {σ : Store}
    {sink : Sink} (hσ : σ.sink.Unfailing) (hsink : sink.Unfailing) :
    ∃ more, (ip.run text scope σ).2.sink = σ.sink.put more ∧
      ip.run text scope (σ.onSink sink) =
        ((ip.run text scope σ).1, (ip.run text scope σ).2.onSink (sink.put more)) := by
  have hstart : (Sink.Comparison.beside hσ hsink).rel σ.sink sink :=
    ⟨"", hσ.put_empty.symm, hsink.put_empty.symm⟩
  rcases ip.run_onSinks (.beside hσ hsink) text scope hstart with hagree | ⟨_, _, _, _, hstopped⟩
  · obtain ⟨hresult, _, ⟨more, hleft, rfl⟩, hstore⟩ := hagree
    exact ⟨more, hleft, Prod.ext hresult hstore⟩
  · cases hstopped

/-! ## Lines -/

/-- Lines were written between an earlier store and a later one. -/
def StepOrder.lines : StepOrder :=
  .ofSink (fun earlier later => ∃ vs, later = earlier.writeLines vs) (fun _ => ⟨[], rfl⟩)
    (fun {earlier _ _} hfirst hrest => by
      obtain ⟨vs, rfl⟩ := hfirst
      obtain ⟨ws, rfl⟩ := hrest
      exact ⟨vs ++ ws, (earlier.writeLines_append vs ws).symm⟩)
    fun _ v => ⟨[v], rfl⟩

namespace Interpreter

variable {ip : Interpreter} {es : List Expr} {scope : FrameId} {σ τ : Store}

/-- Expressions that are evaluated in order leave lines on the sink. -/
theorem exists_lines {result : Except Error Value} (h : ip.evaluateAll es scope σ = (result, τ)) :
    ∃ vs, τ.sink = σ.sink.writeLines vs := by
  have hascends : StepOrder.lines.Ascends (ip.evaluateAll es scope) :=
    .foldlM (fun _ e _ => StepOrder.lines.eval ip ip.limits.eval e scope) .unspecified
  have hlines := hascends σ
  rwa [h] at hlines

end Interpreter

end MiniLisp
