import MiniLisp.Proofs.Eval.Lockstep
import MiniLisp.Proofs.Store.Effects

/-!
# The limit of evaluation is a cut-off

Under a greater limit a run does what it did under the smaller one: it ends in the same way, unless it
stopped at the smaller limit, and then it goes on from there.  What was logged until then stays.
-/

namespace MiniLisp

/-- The interpreter with another limit of evaluation. -/
def Interpreter.withEvalLimit (ip : Interpreter) (limit : Nat) : Interpreter :=
  { ip with limits := { ip.limits with eval := limit } }

/-- How the outcome under a limit and the outcome under a greater one belong together. -/
structure CutOff (less more : Except Error Value × Store) : Prop where
  /-- A run that does not stop at its limit is not changed by a greater one. -/
  same : (∀ limit, less.1 ≠ .error (.tooDeep limit)) → more = less
  /-- A run that stops at its limit has logged the beginning of what the longer run logs. -/
  log : ∀ limit, less.1 = .error (.tooDeep limit) →
    ∃ rest, more.2.sink.text = less.2.sink.text ++ rest

/-- Every step of a run keeps what was logged before. -/
def StepOrder.log : StepOrder := .ofSink Sink.Grows .refl .trans Sink.writeLine_grows

/-- The runs under two limits do the same until the one with fewer levels stops. -/
def Lockstep.ofLimits (ip : Interpreter) (L L' : Nat) :
    Lockstep (StepOrder.trivial.invariant (ip.withEvalLimit L)) (ip.withEvalLimit L') (L' - L) where
  rel σ τ := σ = τ
  stopped e σ τ := (∃ limit, e = .tooDeep limit) ∧ σ.sink.Grows τ.sink
  order := .log
  stopped_mono hstopped hlog := ⟨hstopped.1, hstopped.2.trans hlog⟩
  stop := by
    intro σ τ scope e levels _ hrel
    subst hrel
    -- the longer run goes on, and can only add to what was logged
    exact .inr ⟨⟨_, rfl⟩, StepOrder.log.eval _ levels e scope σ⟩
  closures hrel := by rw [hrel]
  lookup _ _ hrel := by rw [hrel]
  assign _ _ _ hrel := by rw [hrel]
  define _ _ _ hrel := by rw [hrel]
  closure _ _ hrel := by rw [hrel]
  bundle _ _ hrel := by
    subst hrel
    exact ⟨rfl, rfl⟩
  call _ _ _ _ hrel := by
    subst hrel
    exact ⟨rfl, rfl⟩
  primitive _ _ _ hrel := by
    subst hrel
    exact .inl ⟨rfl, rfl⟩

/-- Runs in lockstep from one store belong together as under a cut-off. -/
theorem Lockstep.Paired.cutOff {ip : Interpreter} {L L' : Nat}
    {less more : Except Error Value × Store} (h : (Lockstep.ofLimits ip L L').Paired less more) :
    CutOff less more := by
  rcases h with ⟨hresult, hstore⟩ | ⟨e, herror, ⟨limit, htooDeep⟩, hlog⟩
  · have heq : more = less := Prod.ext hresult hstore.symm
    refine ⟨fun _ => heq, ?_⟩
    intro limit _
    exact ⟨"", by rw [heq, String.append_empty]⟩
  · refine ⟨?_, fun _ _ => hlog⟩
    intro hother
    exact absurd (htooDeep ▸ herror) (hother limit)

/-- The limit of evaluation is only a cut-off, for every expression in every scope and for every value
that the host applies. -/
theorem Interpreter.evalLimit_cutOff (ip : Interpreter) {L L' : Nat} (hL : L ≤ L') (σ : Store) :
    (∀ e scope, CutOff ((ip.withEvalLimit L).evaluate e scope σ)
      ((ip.withEvalLimit L').evaluate e scope σ)) ∧
    ∀ callee args, CutOff ((ip.withEvalLimit L).apply callee args σ)
      ((ip.withEvalLimit L').apply callee args σ) := by
  let S := Lockstep.ofLimits ip L L'
  have hlevels : L + (L' - L) = L' := by omega
  constructor
  · intro e scope
    have hpaired := (S.paired L).1 e scope σ σ ⟨⟩ ⟨⟩ rfl
    rw [hlevels] at hpaired
    exact hpaired.cutOff
  · intro callee args
    have hpaired := (S.paired L).2 callee args σ σ ⟨⟩ ⟨⟩ (fun _ _ => ⟨⟩) rfl
    rw [hlevels] at hpaired
    exact hpaired.cutOff

/-- A sequence that stops at one level and ends at two. -/
theorem Interpreter.evalLimit_cutOff_sequence :
    let ip : Interpreter := ⟨⟨0, 0⟩, fun _ => none⟩
    let σ := Store.empty .unlimited
    let e := Expr.sequence [.literal .nil]
    1 ≤ 2 ∧ ((ip.withEvalLimit 1).evaluate e 0 σ).1 = .error (.tooDeep 1) ∧
      ((ip.withEvalLimit 2).evaluate e 0 σ).1 = .ok .nil ∧
      CutOff ((ip.withEvalLimit 1).evaluate e 0 σ) ((ip.withEvalLimit 2).evaluate e 0 σ) :=
  ⟨by decide, rfl, rfl, (Interpreter.evalLimit_cutOff _ (by decide) _).1 _ _⟩

end MiniLisp
