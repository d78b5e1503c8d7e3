import MiniLisp.Proofs.Expr.Parts

/-!
# Invariants of runs

An `Invariant` says what holds of the store before and after every step of a run, how the store may
change, what holds of every value that a run holds, and what an expression needs to be evaluated in a
scope.  Its fields are the obligations, one for every way in which a run takes a step.
`Invariant.eval` and `Invariant.applyAt` say that then whole runs keep the invariant, at every limit
and whether they end in a value or in an error.
-/

namespace MiniLisp

variable {α β : Type}

/-! ## Actions and calls -/

namespace Action

/-- A composed action goes on if its first part ends in a value. -/
theorem bind_apply {ε : Type} (x : ExceptT ε (StateM Store) α)
    (f : α → ExceptT ε (StateM Store) β) (σ : Store) :
    (x >>= f) σ =
      match x σ with
      | (.ok a, τ) => f a τ
      | (.error e, τ) => (.error e, τ) := by
  change (match x σ with | (r, τ) => ExceptT.bindCont f r τ) = _
  rcases x σ with ⟨r, τ⟩
  cases r <;> rfl

/-- If a composed action ends in a value, then so does its first part. -/
theorem exists_of_bind_ok {x : Action α} {f : α → Action β} {σ υ : Store} {b : β}
    (h : (x >>= f) σ = (.ok b, υ)) : ∃ a τ, x σ = (.ok a, τ) ∧ f a τ = (.ok b, υ) := by
  rw [bind_apply] at h
  rcases hfirst : x σ with ⟨r, τ⟩
  rw [hfirst] at h
  cases r with
  | ok a => exact ⟨a, τ, rfl, h⟩
  | error e => cases h

end Action

/-- A closure is applied by evaluating its body one level further down. -/
theorem Interpreter.applyAt_eq_applyWith (ip : Interpreter) (levels : Nat) (callee : Value)
    (args : List Value) :
    ip.applyAt levels callee args = applyWith (ip.eval (levels - 1)) callee args := by
  cases levels with
  | zero =>
    have hstop : ip.eval 0 = fun _ _ => throw (.tooDeep ip.limits.eval) := by
      funext e scope
      rw [Interpreter.eval]
    rw [Interpreter.applyAt, Nat.zero_sub, hstop]
  | succ n => rw [Interpreter.applyAt, Nat.add_sub_cancel]

/-! ## The invariant and its steps -/

/-- What holds along the runs of an interpreter. -/
structure Invariant (ip : Interpreter) where
  /-- What holds of the store. -/
  state : Store → Prop
  /-- What an earlier store and a later one have to do with each other. -/
  change : Store → Store → Prop
  /-- What holds of a value that a run holds. -/
  value : Store → Value → Prop
  /-- What an expression needs to be evaluated in a scope. -/
  runs : Store → FrameId → Expr → Prop
  refl : ∀ σ, change σ σ
  trans : ∀ {σ τ υ}, change σ τ → change τ υ → change σ υ
  value_mono : ∀ {σ τ v}, change σ τ → value σ v → value τ v
  runs_mono : ∀ {σ τ scope e}, change σ τ → runs σ scope e → runs τ scope e
  operand : ∀ {σ scope e e'}, runs σ scope e → e' ∈ e.operands → runs σ scope e'
  nil : ∀ σ, value σ .nil
  unspecified : ∀ σ, value σ .unspecified
  literal : ∀ {σ scope v}, runs σ scope (.literal v) → value σ v
  quote : ∀ {σ scope v}, runs σ scope (.quote v) → value σ v
  lookup : ∀ {σ scope x v}, state σ → runs σ scope (.name x) → σ.lookup? scope x = some v → value σ v
  assign : ∀ {σ scope x e v}, state σ → runs σ scope (.assign x e) → value σ v →
    state (σ.assign scope x v).2 ∧ change σ (σ.assign scope x v).2
  define : ∀ {σ scope x e v}, state σ → runs σ scope (.define x e) → value σ v →
    state (σ.define scope x v) ∧ change σ (σ.define scope x v)
  closure : ∀ {σ scope parameters body}, state σ → runs σ scope (.lambda parameters body) →
    let made := σ.addClosure ⟨parameters, body, scope⟩
    state made.2 ∧ change σ made.2 ∧ value made.2 (.closure made.1)
  bundle : ∀ {σ scope name bundle body}, state σ → runs σ scope (.withBundle name body) →
    ip.bundles name = some bundle →
    let made := bundle.make σ
    let opened := made.2.addFrame (some scope) made.1
    state opened.2 ∧ change σ opened.2 ∧ runs opened.2 opened.1 body
  call : ∀ {σ id c args}, state σ → value σ (.closure id) → σ.closures[id]? = some c →
    (∀ v ∈ args, value σ v) →
    let opened := σ.addFrame (some c.scope) (bindArguments c.parameters args)
    state opened.2 ∧ change σ opened.2 ∧ runs opened.2 opened.1 c.body
  primitive : ∀ {σ p args}, state σ → value σ (.primitive p) → (∀ v ∈ args, value σ v) →
    let answered := p.call args σ
    state answered.2 ∧ change σ answered.2 ∧ ∀ v, answered.1 = .ok v → value answered.2 v

namespace Invariant

variable {ip : Interpreter}

/-! ## Outcomes -/

/-- An outcome that keeps the invariant from a store on, with a good result if it is one. -/
structure Keeps (I : Invariant ip) (good : Store → α → Prop) (σ : Store)
    (outcome : Except Error α × Store) : Prop where
  state : I.state outcome.2
  change : I.change σ outcome.2
  result : ∀ a, outcome.1 = .ok a → good outcome.2 a

variable {I : Invariant ip} {good : Store → α → Prop} {σ : Store}

theorem Keeps.ok {a : α} {τ : Store} (hstate : I.state τ) (hchange : I.change σ τ) (ha : good τ a) :
    I.Keeps good σ (.ok a, τ) := by
  refine ⟨hstate, hchange, ?_⟩
  intro b hb
  obtain rfl : a = b := Except.ok.inj hb
  exact ha

theorem Keeps.error {e : Error} {τ : Store} (hstate : I.state τ) (hchange : I.change σ τ) :
    I.Keeps good σ (.error e, τ) :=
  ⟨hstate, hchange, by intro a ha; cases ha⟩

/-- What was kept from an intermediate store on was kept from the start. -/
theorem Keeps.of_change {τ : Store} {outcome : Except Error α × Store} (hchange : I.change σ τ)
    (h : I.Keeps good τ outcome) : I.Keeps good σ outcome :=
  ⟨h.state, I.trans hchange h.change, h.result⟩

theorem Keeps.bind {good' : Store → β → Prop} {x : Action α} {f : α → Action β}
    (hx : I.Keeps good σ (x σ))
    (hf : ∀ a τ, I.state τ → I.change σ τ → good τ a → I.Keeps good' τ (f a τ)) :
    I.Keeps good' σ ((x >>= f) σ) := by
  rw [Action.bind_apply]
  rcases hrun : x σ with ⟨r, τ⟩
  rw [hrun] at hx
  cases r with
  | error e => exact .error hx.state hx.change
  | ok a => exact .of_change hx.change (hf a τ hx.state hx.change (hx.result a rfl))

/-- Arguments from left to right: each is a value of the invariant, and stays one while the others
are evaluated. -/
theorem Keeps.mapM {f : β → Action Value} {bs : List β} (hstate : I.state σ)
    (hf : ∀ b ∈ bs, ∀ τ, I.state τ → I.change σ τ → I.Keeps I.value τ (f b τ)) :
    I.Keeps (fun τ vs => ∀ v ∈ vs, I.value τ v) σ (bs.mapM f σ) := by
  induction bs generalizing σ with
  | nil => exact .ok hstate (I.refl σ) (by intro v hv; cases hv)
  | cons b bs ih =>
    rw [List.mapM_cons]
    refine .bind (hf b List.mem_cons_self σ hstate (I.refl σ)) ?_
    intro v τ hτ hστ hv
    refine .bind (ih hτ fun b' hb' υ hυ hτυ => ?_) ?_
    · exact hf b' (List.mem_cons_of_mem b hb') υ hυ (I.trans hστ hτυ)
    · intro vs υ hυ hτυ hvs
      refine .ok hυ (I.refl υ) ?_
      intro w hw
      rcases List.mem_cons.mp hw with rfl | hw
      · exact I.value_mono hτυ hv
      · exact hvs w hw

/-- Steps in order: the value of the last one counts. -/
theorem Keeps.foldlM {f : β → Action Value} {bs : List β} {v : Value} (hstate : I.state σ)
    (hv : I.value σ v)
    (hf : ∀ b ∈ bs, ∀ τ, I.state τ → I.change σ τ → I.Keeps I.value τ (f b τ)) :
    I.Keeps I.value σ (bs.foldlM (fun _ b => f b) v σ) := by
  induction bs generalizing σ v with
  | nil => exact .ok hstate (I.refl σ) hv
  | cons b bs ih =>
    rw [List.foldlM_cons]
    refine .bind (hf b List.mem_cons_self σ hstate (I.refl σ)) ?_
    intro w τ hτ hστ hw
    refine ih hτ hw ?_
    intro b' hb' υ hυ hτυ
    exact hf b' (List.mem_cons_of_mem b hb') υ hυ (I.trans hστ hτυ)

/-! ## Single steps -/

theorem keeps_lookupName {scope : FrameId} {x : String} (hstate : I.state σ)
    (hruns : I.runs σ scope (.name x)) : I.Keeps I.value σ (lookupName scope x σ) := by
  unfold lookupName
  split
  · rename_i v hv
    exact .ok hstate (I.refl σ) (I.lookup hstate hruns hv)
  · exact .error hstate (I.refl σ)

theorem keeps_openBundle {scope : FrameId} {name : String} {body : Expr} (hstate : I.state σ)
    (hruns : I.runs σ scope (.withBundle name body)) :
    I.Keeps (fun τ f => I.runs τ f body) σ (openBundle ip.bundles scope name σ) := by
  unfold openBundle
  split
  · exact .error hstate (I.refl σ)
  · rename_i bundle hbundle
    obtain ⟨hopened, hchange, hbody⟩ := I.bundle hstate hruns hbundle
    exact .ok hopened hchange hbody

/-- A call keeps the invariant if the runs of bodies do. -/
theorem keeps_applyWith {run : Expr → FrameId → Action Value} {callee : Value} {args : List Value}
    (hstate : I.state σ) (hcallee : I.value σ callee) (hargs : ∀ v ∈ args, I.value σ v)
    (hrun : ∀ e f τ, I.state τ → I.runs τ f e → I.Keeps I.value τ (run e f τ)) :
    I.Keeps I.value σ (applyWith run callee args σ) := by
  unfold applyWith
  split
  · obtain ⟨hanswered, hchange, hvalue⟩ := I.primitive hstate hcallee hargs
    exact ⟨hanswered, hchange, hvalue⟩
  · split
    · rename_i c hc
      obtain ⟨hopened, hchange, hbody⟩ := I.call hstate hcallee hc hargs
      have hframe : I.Keeps (fun τ f => I.runs τ f c.body) σ
          (openFrame c.scope (bindArguments c.parameters args) σ) := .ok hopened hchange hbody
      refine hframe.bind ?_
      intro f τ hτ _ hbody
      exact hrun c.body f τ hτ hbody
    · exact .error hstate (I.refl σ)
  · exact .error hstate (I.refl σ)

/-! ## Runs -/

theorem keeps (I : Invariant ip) (n : Nat) :
    (∀ e scope σ, I.state σ → I.runs σ scope e → I.Keeps I.value σ (ip.eval n e scope σ)) ∧
      ∀ callee args σ, I.state σ → I.value σ callee → (∀ v ∈ args, I.value σ v) →
        I.Keeps I.value σ (ip.applyAt n callee args σ) := by
  induction n with
  | zero =>
    constructor
    · intro e scope σ hstate _
      rw [Interpreter.eval]
      exact .error hstate (I.refl σ)
    · intro callee args σ hstate hcallee hargs
      rw [Interpreter.applyAt]
      refine keeps_applyWith hstate hcallee hargs ?_
      intro e f τ hτ _
      exact .error hτ (I.refl τ)
  | succ n ih =>
    obtain ⟨heval, happly⟩ := ih
    constructor
    · intro e scope σ hstate hruns
      -- an operand can be evaluated at any later point of the run
      have hoperand : ∀ e' ∈ e.operands, ∀ τ, I.state τ → I.change σ τ →
          I.Keeps I.value τ (ip.eval n e' scope τ) := by
        intro e' he' τ hτ hστ
        exact heval e' scope τ hτ (I.runs_mono hστ (I.operand hruns he'))
      cases e with
      | literal v => exact .ok hstate (I.refl σ) (I.literal hruns)
      | quote v => exact .ok hstate (I.refl σ) (I.quote hruns)
      | name x => exact keeps_lookupName hstate hruns
      | ifThen test yes =>
        rw [Interpreter.eval]
        refine .bind (hoperand test (by simp) σ hstate (I.refl σ)) ?_
        intro v τ hτ hστ _
        split
        · exact hoperand yes (by simp) τ hτ hστ
        · exact .ok hτ (I.refl τ) (I.unspecified τ)
      | ifElse test yes no =>
        rw [Interpreter.eval]
        refine .bind (hoperand test (by simp) σ hstate (I.refl σ)) ?_
        intro v τ hτ hστ _
        split
        · exact hoperand yes (by simp) τ hτ hστ
        · exact hoperand no (by simp) τ hτ hστ
      | assign x value =>
        rw [Interpreter.eval]
        refine .bind (hoperand value (by simp) σ hstate (I.refl σ)) ?_
        intro v τ hτ hστ hv
        obtain ⟨hassigned, hchange⟩ := I.assign hτ (I.runs_mono hστ hruns) hv
        exact .ok hassigned hchange (I.unspecified _)
      | define x value =>
        rw [Interpreter.eval]
        refine .bind (hoperand value (by simp) σ hstate (I.refl σ)) ?_
        intro v τ hτ hστ hv
        obtain ⟨hdefined, hchange⟩ := I.define hτ (I.runs_mono hστ hruns) hv
        exact .ok hdefined hchange (I.unspecified _)
      | lambda parameters body =>
        obtain ⟨hmade, hchange, hvalue⟩ := I.closure hstate hruns
        exact .ok hmade hchange hvalue
      | sequence steps =>
        rw [Interpreter.eval]
        exact .foldlM hstate (I.nil σ) hoperand
      | withBundle name body =>
        rw [Interpreter.eval]
        refine .bind (keeps_openBundle hstate hruns) ?_
        intro f τ hτ _ hbody
        exact heval body f τ hτ hbody
      | application callee arguments =>
        rw [Interpreter.eval]
        refine .bind (hoperand callee List.mem_cons_self σ hstate (I.refl σ)) ?_
        intro v τ hτ hστ hv
        refine .bind (.mapM hτ fun a ha υ hυ hτυ => ?_) ?_
        · exact hoperand a (List.mem_cons_of_mem callee ha) υ hυ (I.trans hστ hτυ)
        · intro args υ hυ hτυ hargs
          exact happly v args υ hυ (I.value_mono hτυ hv) hargs
    · intro callee args σ hstate hcallee hargs
      rw [Interpreter.applyAt]
      exact keeps_applyWith hstate hcallee hargs heval

theorem eval (I : Invariant ip) (n : Nat) {e : Expr} {scope : FrameId} (hstate : I.state σ)
    (hruns : I.runs σ scope e) : I.Keeps I.value σ (ip.eval n e scope σ) :=
  (I.keeps n).1 e scope σ hstate hruns

theorem applyAt (I : Invariant ip) (n : Nat) {callee : Value} {args : List Value}
    (hstate : I.state σ) (hcallee : I.value σ callee) (hargs : ∀ v ∈ args, I.value σ v) :
    I.Keeps I.value σ (ip.applyAt n callee args σ) :=
  (I.keeps n).2 callee args σ hstate hcallee hargs

end Invariant

end MiniLisp
