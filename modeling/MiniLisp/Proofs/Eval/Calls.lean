import MiniLisp.Proofs.Eval.Cutoff

/-!
# Calls from the host and from programs

A host applies a value to arguments, and a program applies what it has evaluated; both run the same
application, only that a call in a program stands one level down.  With as many levels left, the limit
is visible in the number that the error for too deep nesting names and in nothing else
(`Interpreter.alike`), so a host's application under a limit is a program's call under the next greater
one, from whatever scope it is made.
-/

namespace MiniLisp

variable {α β : Type} {σ : Store}

/-- The same outcome, or two runs that stopped in the same store, each at its own limit. -/
inductive SameButLimit : Except Error α × Store → Except Error α × Store → Prop where
  | same (outcome : Except Error α × Store) : SameButLimit outcome outcome
  | tooDeep (limit limit' : Nat) (σ : Store) :
      SameButLimit (.error (.tooDeep limit), σ) (.error (.tooDeep limit'), σ)

/-- Two actions that differ from every store at most in the limit that they stop at. -/
def Action.Alike (x y : Action α) : Prop := ∀ σ, SameButLimit (x σ) (y σ)

namespace Action.Alike

variable {x y : Action α}

theorem refl (x : Action α) : Alike x x := fun σ => .same (x σ)

theorem bind {f g : α → Action β} (hx : Alike x y) (hf : ∀ a, Alike (f a) (g a)) :
    Alike (x >>= f) (y >>= g) := by
  intro σ
  have hfirst := hx σ
  rw [Action.bind_apply, Action.bind_apply]
  generalize x σ = left at hfirst ⊢
  generalize y σ = right at hfirst ⊢
  cases hfirst with
  | same =>
    obtain ⟨result, τ⟩ := left
    cases result with
    | ok a => exact hf a τ
    | error e => exact .same (.error e, τ)
  | tooDeep limit limit' τ => exact .tooDeep limit limit' τ

theorem mapM {f g : α → Action β} (h : ∀ a, Alike (f a) (g a)) (as : List α) :
    Alike (as.mapM f) (as.mapM g) := by
  induction as with
  | nil => exact .refl _
  | cons a as ih =>
    rw [List.mapM_cons, List.mapM_cons]
    exact .bind (h a) fun b => .bind ih fun bs => .refl _

theorem foldlM {f g : β → α → Action β} (h : ∀ b a, Alike (f b a) (g b a)) (as : List α) (b : β) :
    Alike (as.foldlM f b) (as.foldlM g b) := by
  induction as generalizing b with
  | nil => exact .refl _
  | cons a as ih =>
    rw [List.foldlM_cons, List.foldlM_cons]
    exact .bind (h b a) ih

/-- Whether bodies are run in one way or in a like one, a call does alike. -/
theorem applyWith {run run' : Expr → FrameId → Action Value} (hrun : ∀ e f, Alike (run e f) (run' e f))
    (callee : Value) (args : List Value) :
    Alike (applyWith run callee args) (applyWith run' callee args) := by
  intro σ
  unfold MiniLisp.applyWith
  split
  · exact .same _
  · split
    · rename_i c _
      exact (Alike.refl (openFrame c.scope _)).bind (fun f => hrun c.body f) σ
    · exact .same _
  · exact .same _

end Action.Alike

namespace Interpreter

variable {ip : Interpreter} {callee : Value} {args : List Value}

/-- With as many levels left, runs under two limits do alike.  Every operand gets the levels that are
left for it on both sides, so the induction is on the levels alone. -/
theorem alike (ip : Interpreter) (limit limit' n : Nat) :
    (∀ e scope, Action.Alike ((ip.withEvalLimit limit).eval n e scope)
      ((ip.withEvalLimit limit').eval n e scope)) ∧
    ∀ callee args, Action.Alike ((ip.withEvalLimit limit).applyAt n callee args)
      ((ip.withEvalLimit limit').applyAt n callee args) := by
  induction n with
  | zero =>
    -- without levels both runs stop at once, each with its own limit
    have hstop : ∀ (e : Expr) (f : FrameId), Action.Alike
        (throw (.tooDeep limit) : Action Value) (throw (.tooDeep limit')) :=
      fun _ _ σ => .tooDeep limit limit' σ
    constructor
    · intro e scope
      rw [eval, eval]
      exact hstop e scope
    · intro callee args
      rw [applyAt, applyAt]
      exact .applyWith hstop callee args
  | succ n ih =>
    obtain ⟨heval, happly⟩ := ih
    constructor
    · intro e scope
      cases e with
      | literal v => exact .refl _
      | quote v => exact .refl _
      | name x => exact .refl _
      | ifThen test yes =>
        rw [eval, eval]
        refine .bind (heval test scope) fun v => ?_
        split
        · exact heval yes scope
        · exact .refl _
      | ifElse test yes no =>
        rw [eval, eval]
        refine .bind (heval test scope) fun v => ?_
        split
        · exact heval yes scope
        · exact heval no scope
      | assign x value =>
        rw [eval, eval]
        exact .bind (heval value scope) fun v => .refl _
      | define x value =>
        rw [eval, eval]
        exact .bind (heval value scope) fun v => .refl _
      | lambda parameters body => exact .refl _
      | sequence steps =>
        rw [eval, eval]
        exact .foldlM (fun _ step => heval step scope) steps _
      | withBundle bundle body =>
        rw [eval, eval]
        exact .bind (.refl _) fun f => heval body f
      | application callee arguments =>
        rw [eval, eval]
        refine .bind (heval callee scope) fun v => ?_
        exact .bind (.mapM (fun argument => heval argument scope) arguments) fun args => happly v args
    · intro callee args
      rw [applyAt, applyAt]
      exact .applyWith heval callee args

/-! ## Calls in programs -/

/-- The call of a value with arguments as a program would have it, had it evaluated them. -/
def call (callee : Value) (args : List Value) : Expr :=
  .application (.quote callee) (args.map .quote)

/-- Quoted values are their own values where a level is left for them. -/
theorem mapM_quote (ip : Interpreter) (n : Nat) (args : List Value) (scope : FrameId) :
    (args.map .quote).mapM (fun argument => ip.eval (n + 1) argument scope) = pure args := by
  induction args with
  | nil => rfl
  | cons v vs ih =>
    rw [List.map_cons, List.mapM_cons, ih, eval]
    rfl

/-- A call is the application of its values one level down, in whatever scope it stands. -/
theorem eval_call (ip : Interpreter) (n : Nat) (callee : Value) (args : List Value)
    (scope : FrameId) :
    ip.eval (n + 2) (call callee args) scope = ip.applyAt (n + 1) callee args := by
  rw [call, eval, eval, mapM_quote]
  rfl

/-- What a host gets from applying a value under a limit is what a program gets from calling it under a
limit that is greater by one: the same value or error, but for the number of the limit, and the same
store.  The call may be made from any scope. -/
theorem apply_alike_call (ip : Interpreter) {limit : Nat} (hlimit : 1 ≤ limit) (callee : Value)
    (args : List Value) (σ : Store) :
    (∀ scope, SameButLimit ((ip.withEvalLimit limit).apply callee args σ)
      ((ip.withEvalLimit (limit + 1)).evaluate (call callee args) scope σ)) ∧
    ∀ scope scope', (ip.withEvalLimit (limit + 1)).evaluate (call callee args) scope σ =
      (ip.withEvalLimit (limit + 1)).evaluate (call callee args) scope' σ := by
  obtain ⟨n, rfl⟩ : ∃ n, limit = n + 1 := ⟨limit - 1, by omega⟩
  have hcall : ∀ scope, (ip.withEvalLimit (n + 2)).evaluate (call callee args) scope =
      (ip.withEvalLimit (n + 2)).applyAt (n + 1) callee args :=
    eval_call (ip.withEvalLimit (n + 2)) n callee args
  constructor
  · intro scope
    rw [hcall scope]
    exact (ip.alike (n + 1) (n + 2) (n + 1)).2 callee args σ
  · intro scope scope'
    rw [hcall scope, hcall scope']

/-- A function whose body is out of reach: its frame is made, and then both runs stop, at their own
limits. -/
theorem apply_alike_call_tooDeep :
    let ip : Interpreter := ⟨⟨0, 0⟩, fun _ => none⟩
    let σ := ((Store.addFrame (.empty .unlimited) none []).2.addClosure ⟨["x"], .name "x", 0⟩).2
    let host := (ip.withEvalLimit 1).apply (.closure 0) [.str "a"] σ
    let called := (ip.withEvalLimit 2).evaluate (call (.closure 0) [.str "a"]) 7 σ
    1 ≤ 1 ∧ host.1 = .error (.tooDeep 1) ∧ called.1 = .error (.tooDeep 2) ∧
      host.2.localBindings 1 = .ofList [("x", .str "a")] ∧ SameButLimit host called := by
  intro ip σ host called
  have hlimit : 1 ≤ 1 := Nat.le_refl 1
  exact ⟨hlimit, rfl, rfl, rfl, (ip.apply_alike_call hlimit (.closure 0) [.str "a"] σ).1 7⟩

end Interpreter

end MiniLisp
