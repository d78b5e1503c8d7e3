import Mathlib.Data.List.Forall2
import Mathlib.Data.Nat.Find
import MiniLisp.Proofs.Eval.Calls
import MiniLisp.Proofs.Value.Answers

/-!
# How many levels a run takes

A run takes some number of levels if it ends in one way with so many levels or more, and stops at the
limit with fewer, provided that it ends in a value (`Takes`).  The levels of composed runs are the
greatest number of levels of their parts, since levels are given back when a part has ended; only an
expression around another one and a call of a closure add a level.  What a host can apply under a limit
takes some number of levels up to this limit (`Interpreter.exists_takes_applyAt`), since a run that stops
always names the limit of its interpreter (`Interpreter.stopsAt`).
-/

namespace MiniLisp

variable {α β : Type}

/-- With so many levels or more the run from a store has this outcome.  If the outcome is a value, the
run stops at the limit with fewer levels. -/
structure Takes (limit levels : Nat) (run : Nat → Action α) (σ : Store)
    (outcome : Except Error α × Store) : Prop where
  ends : ∀ n, levels ≤ n → run n σ = outcome
  stops : ∀ a, outcome.1 = .ok a → ∀ n < levels, (run n σ).1 = .error (.tooDeep limit)

namespace Takes

variable {limit i j k : Nat} {σ τ : Store} {run inner : Nat → Action α} {next : Nat → α → Action β}
variable {outcome : Except Error α × Store} {result : Except Error β × Store} {a : α} {e : Error}

/-! ## Composition -/

theorem of_eq (h : Takes limit j run σ outcome) (hlevels : j = k) : Takes limit k run σ outcome :=
  hlevels ▸ h

/-- What does not depend on the levels takes none. -/
theorem const (action : Action α) (σ : Store) : Takes limit 0 (fun _ => action) σ (action σ) :=
  ⟨fun _ _ => rfl, fun _ _ _ hn => absurd hn (Nat.not_lt_zero _)⟩

/-- A run that fails may be given more levels. -/
theorem mono (h : Takes limit j run σ (.error e, τ)) (hle : j ≤ k) :
    Takes limit k run σ (.error e, τ) :=
  ⟨fun n hn => h.ends n (Nat.le_trans hle hn), fun _ => nofun⟩

theorem bind (hfirst : Takes limit j run σ (.ok a, τ))
    (hrest : Takes limit k (fun n => next n a) τ result) :
    Takes limit (max j k) (fun n => run n >>= next n) σ result where
  ends n hn := by
    rw [Action.bind_apply, hfirst.ends n (by omega)]
    exact hrest.ends n (by omega)
  stops b hb n hn := by
    rw [Action.bind_apply]
    by_cases hn' : n < j
    · have hstop := hfirst.stops a rfl n hn'
      rcases hrun : run n σ with ⟨r, υ⟩
      rw [hrun] at hstop
      obtain rfl : r = .error (.tooDeep limit) := hstop
      rfl
    · rw [hfirst.ends n (by omega)]
      exact hrest.stops b hb n (by omega)

theorem bind_error (h : Takes limit j run σ (.error e, τ)) :
    Takes limit j (fun n => run n >>= next n) σ (.error e, τ) where
  ends n hn := by rw [Action.bind_apply, h.ends n hn]
  stops _ := nofun

/-- A run that stops without levels and goes on with one level less takes a level more. -/
theorem down (hzero : (run 0 σ).1 = .error (.tooDeep limit)) (hsucc : ∀ n, run (n + 1) σ = inner n τ)
    (h : Takes limit k inner τ outcome) : Takes limit (k + 1) run σ outcome where
  ends n hn := by
    obtain ⟨n, rfl⟩ : ∃ m, n = m + 1 := ⟨n - 1, by omega⟩
    rw [hsucc]
    exact h.ends n (Nat.le_of_succ_le_succ hn)
  stops a ha n hn := by
    cases n with
    | zero => exact hzero
    | succ n =>
      rw [hsucc]
      exact h.stops a ha n (Nat.lt_of_succ_lt_succ hn)

end Takes

/-! ## Expressions -/

/-- An operand whose value is known: quoted data, a literal or a bound name. -/
inductive Store.Denotes (σ : Store) (scope : FrameId) : Expr → Value → Prop where
  | literal (v : Value) : Denotes σ scope (.literal v) v
  | quote (v : Value) : Denotes σ scope (.quote v) v
  | name {x : String} {v : Value} (h : σ.lookup? scope x = some v) : Denotes σ scope (.name x) v

namespace Interpreter

variable {ip : Interpreter} {i j k : Nat} {σ τ υ : Store} {scope : FrameId} {e test yes no : Expr}
variable {callee : Expr} {args : List Expr} {v c : Value} {vs : List Value} {fault : Error}
variable {outcome : Except Error Value × Store}

theorem takes_denoted (ip : Interpreter) (h : σ.Denotes scope e v) :
    Takes ip.limits.eval 1 (fun n => ip.eval n e scope) σ (.ok v, σ) := by
  cases h with
  | literal => exact .down rfl (fun n => by rw [eval]) (.const (pure v) σ)
  | quote => exact .down rfl (fun n => by rw [eval]) (.const (pure v) σ)
  | @name x _ hv =>
    have hfound : lookupName scope x σ = (.ok v, σ) := by
      unfold lookupName
      rw [hv]
    have hlookup : Takes ip.limits.eval 0 (fun _ => lookupName scope x) σ (.ok v, σ) :=
      hfound ▸ .const _ σ
    exact .down rfl (fun n => by rw [eval]) hlookup

theorem takes_ifElse (htest : Takes ip.limits.eval i (fun n => ip.eval n test scope) σ (.ok v, τ))
    (hbranch : Takes ip.limits.eval j (fun n => ip.eval n (if v.isTruthy then yes else no) scope) τ
      outcome) :
    Takes ip.limits.eval (max i j + 1) (fun n => ip.eval n (.ifElse test yes no) scope) σ outcome := by
  have hchosen : Takes ip.limits.eval j
      (fun n => if v.isTruthy then ip.eval n yes scope else ip.eval n no scope) τ outcome := by
    cases hv : v.isTruthy with
    | true => simpa [hv] using hbranch
    | false => simpa [hv] using hbranch
  exact .down rfl (fun n => by rw [eval]) (htest.bind hchosen)

theorem takes_application
    (hcallee : Takes ip.limits.eval i (fun n => ip.eval n callee scope) σ (.ok c, τ))
    (hargs : Takes ip.limits.eval j (fun n => args.mapM fun arg => ip.eval n arg scope) τ (.ok vs, υ))
    (hcall : Takes ip.limits.eval k (fun n => ip.applyAt n c vs) υ outcome) :
    Takes ip.limits.eval (max i (max j k) + 1) (fun n => ip.eval n (.application callee args) scope) σ
      outcome :=
  .down rfl (fun n => by rw [eval]) (hcallee.bind (hargs.bind hcall))

/-- Where an argument fails, the callee is not called. -/
theorem takes_application_error
    (hcallee : Takes ip.limits.eval i (fun n => ip.eval n callee scope) σ (.ok c, τ))
    (hargs : Takes ip.limits.eval j (fun n => args.mapM fun arg => ip.eval n arg scope) τ
      (.error fault, υ)) :
    Takes ip.limits.eval (max i j + 1) (fun n => ip.eval n (.application callee args) scope) σ
      (.error fault, υ) :=
  .down rfl (fun n => by rw [eval]) (hcallee.bind hargs.bind_error)

/-! ## Arguments -/

theorem takes_nil (ip : Interpreter) (scope : FrameId) (σ : Store) :
    Takes ip.limits.eval 0 (fun n => [].mapM fun arg => ip.eval n arg scope) σ (.ok [], σ) :=
  .const (pure []) σ

theorem takes_cons (hfirst : Takes ip.limits.eval i (fun n => ip.eval n e scope) σ (.ok v, τ))
    (hrest : Takes ip.limits.eval j (fun n => args.mapM fun arg => ip.eval n arg scope) τ (.ok vs, υ)) :
    Takes ip.limits.eval (max i j) (fun n => (e :: args).mapM fun arg => ip.eval n arg scope) σ
      (.ok (v :: vs), υ) := by
  simp only [List.mapM_cons]
  have hlast : Takes ip.limits.eval 0 (fun _ => (pure (v :: vs) : Action (List Value))) υ
      (.ok (v :: vs), υ) := .const _ υ
  exact hfirst.bind ((hrest.bind hlast).of_eq (Nat.max_zero j))

/-- A failing argument is the last one that is evaluated. -/
theorem takes_cons_error
    (h : Takes ip.limits.eval i (fun n => ip.eval n e scope) σ (.error fault, τ)) :
    Takes ip.limits.eval i (fun n => (e :: args).mapM fun arg => ip.eval n arg scope) σ
      (.error fault, τ) := by
  simp only [List.mapM_cons]
  exact h.bind_error

theorem takes_cons_error_behind
    (hfirst : Takes ip.limits.eval i (fun n => ip.eval n e scope) σ (.ok v, τ))
    (hrest : Takes ip.limits.eval j (fun n => args.mapM fun arg => ip.eval n arg scope) τ
      (.error fault, υ)) :
    Takes ip.limits.eval (max i j) (fun n => (e :: args).mapM fun arg => ip.eval n arg scope) σ
      (.error fault, υ) := by
  simp only [List.mapM_cons]
  exact hfirst.bind hrest.bind_error

/-! ## Calls -/

theorem takes_primitive (ip : Interpreter) (p : Primitive) (vs : List Value) (σ : Store) :
    Takes ip.limits.eval 0 (fun n => ip.applyAt n (.primitive p) vs) σ (p.call vs σ) := by
  have hcall : (fun n => ip.applyAt n (.primitive p) vs) = fun _ => p.call vs := by
    funext n
    rw [applyAt_eq_applyWith]
    rfl
  rw [hcall]
  exact .const _ σ

/-- A closure is called by evaluating its body, one level further down, in a new frame. -/
theorem takes_closure {id : ClosureId} {c : Closure} (hc : σ.closures[id]? = some c)
    (hbody : Takes ip.limits.eval k (fun n => ip.eval n c.body σ.frames.size)
      (σ.addFrame (some c.scope) (bindArguments c.parameters vs)).2 outcome) :
    Takes ip.limits.eval (k + 1) (fun n => ip.applyAt n (.closure id) vs) σ outcome := by
  have hopen : ∀ run, applyWith run (.closure id) vs σ =
      run c.body σ.frames.size (σ.addFrame (some c.scope) (bindArguments c.parameters vs)).2 := by
    intro run
    unfold applyWith
    dsimp only
    rw [hc]
    rfl
  refine .down ?_ (fun n => ?_) hbody
  · rw [applyAt, hopen]
    rfl
  · rw [applyAt, hopen]

/-- Operands whose values are known take one level, and so does the name of a callee. -/
theorem takes_operands (ip : Interpreter) (hargs : List.Forall₂ (σ.Denotes scope) args vs) :
    ∃ levels ≤ 1,
      Takes ip.limits.eval levels (fun n => args.mapM fun arg => ip.eval n arg scope) σ (.ok vs, σ) := by
  induction hargs with
  | nil => exact ⟨0, Nat.zero_le 1, ip.takes_nil scope σ⟩
  | cons harg _ ih =>
    obtain ⟨levels, hlevels, hrest⟩ := ih
    exact ⟨max 1 levels, by omega, takes_cons (ip.takes_denoted harg) hrest⟩

/-- A call whose callee and arguments are known takes a level more than what it calls, and two at
least. -/
theorem takes_call (hcallee : σ.Denotes scope callee c) (hargs : List.Forall₂ (σ.Denotes scope) args vs)
    (hcall : Takes ip.limits.eval k (fun n => ip.applyAt n c vs) σ outcome) :
    Takes ip.limits.eval (max 1 k + 1) (fun n => ip.eval n (.application callee args) scope) σ
      outcome := by
  obtain ⟨levels, hlevels, hoperands⟩ := ip.takes_operands hargs
  exact (takes_application (ip.takes_denoted hcallee) hoperands hcall).of_eq (by omega)

end Interpreter

/-! ## The limit that an error names -/

/-- An action that fails for too deep nesting names this limit. -/
def Action.StopsAt (limit : Nat) (x : Action α) : Prop :=
  ∀ σ limit', (x σ).1 = .error (.tooDeep limit') → limit' = limit

namespace Action.StopsAt

variable {limit : Nat} {x : Action α}

theorem pure (a : α) : StopsAt limit (pure a) := fun _ _ => nofun

theorem bind {f : α → Action β} (hx : StopsAt limit x) (hf : ∀ a, StopsAt limit (f a)) :
    StopsAt limit (x >>= f) := by
  intro σ limit' h
  rw [Action.bind_apply] at h
  rcases hrun : x σ with ⟨r, τ⟩
  rw [hrun] at h
  cases r with
  | ok a => exact hf a τ limit' h
  | error e => exact hx σ limit' (by rw [hrun]; exact congrArg _ (Except.error.inj h))

theorem mapM {f : α → Action β} (hf : ∀ a, StopsAt limit (f a)) (as : List α) :
    StopsAt limit (as.mapM f) := by
  induction as with
  | nil => exact .pure []
  | cons a as ih =>
    rw [List.mapM_cons]
    exact .bind (hf a) fun b => .bind ih fun bs => .pure (b :: bs)

theorem foldlM {f : β → α → Action β} (hf : ∀ b a, StopsAt limit (f b a)) (as : List α) (b : β) :
    StopsAt limit (as.foldlM f b) := by
  induction as generalizing b with
  | nil => exact .pure b
  | cons a as ih =>
    rw [List.foldlM_cons]
    exact .bind (hf b a) ih

theorem lookupName (scope : FrameId) (x : String) : StopsAt limit (lookupName scope x) := by
  intro σ limit' h
  unfold MiniLisp.lookupName at h
  split at h <;> cases h

theorem assignName (scope : FrameId) (x : String) (v : Value) : StopsAt limit (assignName scope x v) := by
  intro σ limit' h
  cases h

theorem defineName (scope : FrameId) (x : String) (v : Value) : StopsAt limit (defineName scope x v) := by
  intro σ limit' h
  cases h

theorem makeClosure (scope : FrameId) (parameters : List String) (body : Expr) :
    StopsAt limit (makeClosure scope parameters body) := by
  intro σ limit' h
  cases h

theorem openBundle (bundles : String → Option Bundle) (scope : FrameId) (name : String) :
    StopsAt limit (openBundle bundles scope name) := by
  intro σ limit' h
  unfold MiniLisp.openBundle at h
  split at h <;> cases h

theorem applyWith {run : Expr → FrameId → Action Value} (hrun : ∀ e f, StopsAt limit (run e f))
    (callee : Value) (args : List Value) : StopsAt limit (applyWith run callee args) := by
  intro σ limit' h
  unfold MiniLisp.applyWith at h
  split at h
  · cases Primitive.fault_call h
  · split at h
    · rename_i c _
      have hframe : StopsAt limit (openFrame c.scope (bindArguments c.parameters args)) :=
        fun _ _ => nofun
      exact hframe.bind (hrun c.body) σ limit' h
    · cases h
  · cases h

end Action.StopsAt

namespace Interpreter

/-- An error for too deep nesting names the limit of the interpreter.  The induction is on the levels,
since all operands get the same number of them. -/
theorem stopsAt (ip : Interpreter) (n : Nat) :
    (∀ e scope, (ip.eval n e scope).StopsAt ip.limits.eval) ∧
    ∀ callee args, (ip.applyAt n callee args).StopsAt ip.limits.eval := by
  induction n with
  | zero =>
    have hstop : (throw (.tooDeep ip.limits.eval) : Action Value).StopsAt ip.limits.eval :=
      fun _ _ h => (Error.tooDeep.inj (Except.error.inj h)).symm
    constructor
    · intro e scope
      rw [eval]
      exact hstop
    · intro callee args
      rw [applyAt]
      exact .applyWith (fun _ _ => hstop) callee args
  | succ n ih =>
    -- no step raises the error itself, so it comes from an operand or from the call
    obtain ⟨heval, happly⟩ := ih
    constructor
    · intro e scope
      cases e with
      | literal v => exact .pure v
      | quote v => exact .pure v
      | name x => exact .lookupName scope x
      | ifThen test yes =>
        rw [eval]
        refine .bind (heval test scope) fun v => ?_
        split
        · exact heval yes scope
        · exact .pure _
      | ifElse test yes no =>
        rw [eval]
        refine .bind (heval test scope) fun v => ?_
        split
        · exact heval yes scope
        · exact heval no scope
      | assign x value =>
        rw [eval]
        exact .bind (heval value scope) (.assignName scope x)
      | define x value =>
        rw [eval]
        exact .bind (heval value scope) (.defineName scope x)
      | lambda parameters body => exact .makeClosure scope parameters body
      | sequence steps =>
        rw [eval]
        exact .foldlM (fun _ step => heval step scope) steps _
      | withBundle bundle body =>
        rw [eval]
        exact .bind (.openBundle _ scope bundle) (heval body)
      | application callee arguments =>
        rw [eval]
        refine .bind (heval callee scope) fun v => ?_
        exact .bind (.mapM (fun argument => heval argument scope) arguments) (happly v)
    · intro callee args
      rw [applyAt]
      exact .applyWith heval callee args

end Interpreter

/-! ## Levels of an application -/

/-- Under another limit a run that does not stop does the same. -/
theorem SameButLimit.eq_of_finished {less more : Except Error Value × Store} (h : SameButLimit less more)
    (hless : ∀ limit, less.1 ≠ .error (.tooDeep limit)) : more = less := by
  cases h with
  | same => rfl
  | tooDeep limit => exact absurd rfl (hless limit)

namespace Interpreter

variable {ip : Interpreter} {f v : Value} {args : List Value} {k : Nat} {σ τ : Store}

/-- With more levels an application that does not stop does the same. -/
theorem applyAt_of_le {m n : Nat} (hle : m ≤ n)
    (hless : ∀ limit, (ip.applyAt m f args σ).1 ≠ .error (.tooDeep limit)) :
    ip.applyAt n f args σ = ip.applyAt m f args σ := by
  have hfewer : (ip.withEvalLimit m).applyAt m f args σ = ip.applyAt m f args σ :=
    ((ip.alike ip.limits.eval m m).2 f args σ).eq_of_finished hless
  have hpaired := ((Lockstep.ofLimits ip m n).paired m).2 f args σ σ ⟨⟩ ⟨⟩ (fun _ _ => ⟨⟩) rfl
  rw [Nat.add_sub_cancel' hle] at hpaired
  have hmore := hpaired.cutOff.same (by rw [hfewer]; exact hless)
  rw [hfewer] at hmore
  have hsame := ((ip.alike n ip.limits.eval n).2 f args σ).eq_of_finished (by rw [hmore]; exact hless)
  exact hsame.trans hmore

/-- What a host can apply under a limit takes no more levels than this limit. -/
theorem exists_takes_applyAt (h : (ip.withEvalLimit k).apply f args σ = (.ok v, τ)) :
    ∃ levels ≤ k, Takes ip.limits.eval levels (fun n => ip.applyAt n f args) σ (.ok v, τ) := by
  classical
  have hk : ip.applyAt k f args σ = (.ok v, τ) := by
    refine (((ip.alike k ip.limits.eval k).2 f args σ).eq_of_finished fun _ => ?_).trans h
    rw [show (ip.withEvalLimit k).applyAt k f args σ = (.ok v, τ) from h]
    exact nofun
  have hexists : ∃ n, ip.applyAt n f args σ = (.ok v, τ) := ⟨k, hk⟩
  have hfound := Nat.find_spec hexists
  refine ⟨Nat.find hexists, Nat.find_min' hexists hk, ?_, ?_⟩
  · intro n hn
    rw [← hfound]
    refine applyAt_of_le hn fun _ => ?_
    rw [hfound]
    exact nofun
  · intro w _ n hn
    by_contra hne
    have hless : ∀ limit, (ip.applyAt n f args σ).1 ≠ .error (.tooDeep limit) := by
      intro limit hlimit
      obtain rfl := (ip.stopsAt n).2 f args σ limit hlimit
      exact hne hlimit
    exact Nat.find_min hexists hn ((applyAt_of_le (Nat.le_of_lt hn) hless).symm.trans hfound)

/-- A value that a run comes to under a limit it comes to under every greater one. -/
theorem evaluate_of_le {L L' : Nat} {e : Expr} {scope : FrameId} (hle : L ≤ L')
    (h : (ip.withEvalLimit L).evaluate e scope σ = (.ok v, τ)) :
    (ip.withEvalLimit L').evaluate e scope σ = (.ok v, τ) := by
  have hpaired := ((Lockstep.ofLimits ip L L').paired L).1 e scope σ σ ⟨⟩ ⟨⟩ rfl
  rw [Nat.add_sub_cancel' hle] at hpaired
  refine (hpaired.cutOff.same fun _ => ?_).trans h
  rw [show (ip.withEvalLimit L).eval L e scope σ = (.ok v, τ) from h]
  exact nofun

end Interpreter

end MiniLisp
