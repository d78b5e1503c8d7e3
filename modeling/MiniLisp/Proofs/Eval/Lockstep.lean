import MiniLisp.Proofs.Eval.Order

/-!
# Two runs in lockstep

A `Lockstep` compares the runs of two interpreters, a left one under an invariant and a right one that
may go further down.  Its fields say that every single step gives the same result from related stores
and leaves related stores, unless the left run stops there: at its limit, or at a call of a primitive.
`Lockstep.eval` and `Lockstep.applyAt` say that then whole runs give the same result, unless the left
one stopped and the right one went on.
-/

namespace MiniLisp

variable {α β : Type}

/-- Outcomes with the same result and related stores. -/
structure Agree (rel : Store → Store → Prop) (left right : Except Error α × Store) : Prop where
  result : right.1 = left.1
  store : rel left.2 right.2

/-- A comparison of the runs of `ip` with those of `ip'` that have `extra` more levels. -/
structure Lockstep {ip : Interpreter} (I : Invariant ip) (ip' : Interpreter) (extra : Nat) where
  /-- How the stores are related as long as both runs go on. -/
  rel : Store → Store → Prop
  /-- What holds of the stores once the left run has stopped with an error and the right one has not. -/
  stopped : Error → Store → Store → Prop
  /-- What the right run ascends while it goes on alone. -/
  order : StepOrder
  stopped_mono : ∀ {e σ τ υ}, stopped e σ τ → order.le τ υ → stopped e σ υ
  stop : ∀ {σ τ scope e levels}, levels ≤ extra → rel σ τ →
    Agree rel (.error (.tooDeep ip.limits.eval), σ) (ip'.eval levels e scope τ) ∨
      stopped (.tooDeep ip.limits.eval) σ (ip'.eval levels e scope τ).2
  closures : ∀ {σ τ}, rel σ τ → τ.closures = σ.closures
  lookup : ∀ {σ τ scope x}, I.state σ → I.runs σ scope (.name x) → rel σ τ →
    τ.lookup? scope x = σ.lookup? scope x
  assign : ∀ {σ τ scope x e v}, I.state σ → I.runs σ scope (.assign x e) → I.value σ v → rel σ τ →
    rel (σ.assign scope x v).2 (τ.assign scope x v).2
  define : ∀ {σ τ scope x e v}, I.state σ → I.runs σ scope (.define x e) → I.value σ v → rel σ τ →
    rel (σ.define scope x v) (τ.define scope x v)
  closure : ∀ {σ τ scope parameters body}, I.state σ → I.runs σ scope (.lambda parameters body) →
    rel σ τ → rel (σ.addClosure ⟨parameters, body, scope⟩).2 (τ.addClosure ⟨parameters, body, scope⟩).2
  bundle : ∀ {σ τ scope name body}, I.state σ → I.runs σ scope (.withBundle name body) → rel σ τ →
    Agree rel (openBundle ip.bundles scope name σ) (openBundle ip'.bundles scope name τ)
  call : ∀ {σ τ id c args}, I.state σ → I.value σ (.closure id) → σ.closures[id]? = some c →
    (∀ v ∈ args, I.value σ v) → rel σ τ →
    Agree rel (openFrame c.scope (bindArguments c.parameters args) σ)
      (openFrame c.scope (bindArguments c.parameters args) τ)
  primitive : ∀ {σ τ p args}, I.state σ → I.value σ (.primitive p) → (∀ v ∈ args, I.value σ v) →
    rel σ τ → Agree rel (p.call args σ) (p.call args τ) ∨
      ∃ e, (p.call args σ).1 = .error e ∧ stopped e (p.call args σ).2 (p.call args τ).2

namespace Lockstep

variable {ip ip' : Interpreter} {I : Invariant ip} {extra : Nat} {S : Lockstep I ip' extra}
variable {σ τ : Store}

/-! ## Pairs of outcomes -/

/-- Both runs came to the same, or the left one has stopped with an error. -/
def Paired (S : Lockstep I ip' extra) (left right : Except Error α × Store) : Prop :=
  Agree S.rel left right ∨ ∃ e, left.1 = .error e ∧ S.stopped e left.2 right.2

theorem Paired.ok (a : α) (hrel : S.rel σ τ) : S.Paired (.ok a, σ) (.ok a, τ) :=
  .inl ⟨rfl, hrel⟩

theorem Paired.error (e : Error) (hrel : S.rel σ τ) :
    S.Paired ((.error e : Except Error α), σ) (.error e, τ) :=
  .inl ⟨rfl, hrel⟩

theorem Paired.bind {good : Store → α → Prop} {x y : Action α} {f g : α → Action β}
    (hx : S.Paired (x σ) (y τ)) (hkeeps : I.Keeps good σ (x σ))
    (hf : ∀ a σ' τ', I.state σ' → I.change σ σ' → good σ' a → S.rel σ' τ' →
      S.Paired (f a σ') (g a τ'))
    (hg : ∀ a, S.order.Ascends (g a)) : S.Paired ((x >>= f) σ) ((y >>= g) τ) := by
  rw [Action.bind_apply, Action.bind_apply]
  rcases hleft : x σ with ⟨r, σ'⟩
  rcases hright : y τ with ⟨r', τ'⟩
  rw [hleft, hright] at hx
  rw [hleft] at hkeeps
  rcases hx with ⟨hresult, hrel⟩ | ⟨e, he, hstopped⟩
  · obtain rfl : r' = r := hresult
    cases r' with
    | error e => exact .error e hrel
    | ok a => exact hf a σ' τ' hkeeps.state hkeeps.change (hkeeps.result a rfl) hrel
  · obtain rfl : r = .error e := he
    refine .inr ⟨e, rfl, ?_⟩
    cases r' with
    | error e' => exact hstopped
    | ok a => exact S.stopped_mono hstopped (hg a τ')

theorem Paired.mapM {f g : β → Action Value} {bs : List β} (hstate : I.state σ) (hrel : S.rel σ τ)
    (hkeeps : ∀ b ∈ bs, ∀ σ', I.state σ' → I.change σ σ' → I.Keeps I.value σ' (f b σ'))
    (hf : ∀ b ∈ bs, ∀ σ' τ', I.state σ' → I.change σ σ' → S.rel σ' τ' →
      S.Paired (f b σ') (g b τ'))
    (hg : ∀ b ∈ bs, S.order.Ascends (g b)) : S.Paired (bs.mapM f σ) (bs.mapM g τ) := by
  -- the stores are free: the rest is run from the stores behind the first action
  induction bs generalizing σ τ with
  | nil => exact .ok [] hrel
  | cons b bs ih =>
    rw [List.mapM_cons, List.mapM_cons]
    have hrest : S.order.Ascends (bs.mapM g) :=
      .mapM fun b' hb' => hg b' (List.mem_cons_of_mem b hb')
    refine .bind (hf b List.mem_cons_self σ τ hstate (I.refl σ) hrel)
      (hkeeps b List.mem_cons_self σ hstate (I.refl σ)) ?_ ?_
    · intro v σ₁ τ₁ hσ₁ hchange₁ _ hrel₁
      have hkeeps' : ∀ b' ∈ bs, ∀ σ', I.state σ' → I.change σ₁ σ' → I.Keeps I.value σ' (f b' σ') :=
        fun b' hb' σ' hσ' hchange => hkeeps b' (List.mem_cons_of_mem b hb') σ' hσ' (I.trans hchange₁ hchange)
      refine .bind (ih hσ₁ hrel₁ hkeeps' ?_ ?_) (.mapM hσ₁ hkeeps') ?_ ?_
      · intro b' hb' σ' τ' hσ' hchange
        exact hf b' (List.mem_cons_of_mem b hb') σ' τ' hσ' (I.trans hchange₁ hchange)
      · intro b' hb'
        exact hg b' (List.mem_cons_of_mem b hb')
      · intro vs σ₂ τ₂ _ _ _ hrel₂
        exact .ok (v :: vs) hrel₂
      · intro vs
        exact .pure (v :: vs)
    · intro v
      exact .bind hrest fun vs => .pure (v :: vs)

theorem Paired.foldlM {f g : β → Action Value} {bs : List β} (v : Value) (hstate : I.state σ)
    (hrel : S.rel σ τ)
    (hkeeps : ∀ b ∈ bs, ∀ σ', I.state σ' → I.change σ σ' → I.Keeps I.value σ' (f b σ'))
    (hf : ∀ b ∈ bs, ∀ σ' τ', I.state σ' → I.change σ σ' → S.rel σ' τ' →
      S.Paired (f b σ') (g b τ'))
    (hg : ∀ b ∈ bs, S.order.Ascends (g b)) :
    S.Paired (bs.foldlM (fun _ b => f b) v σ) (bs.foldlM (fun _ b => g b) v τ) := by
  induction bs generalizing σ τ v with
  | nil => exact .ok v hrel
  | cons b bs ih =>
    rw [List.foldlM_cons, List.foldlM_cons]
    refine .bind (hf b List.mem_cons_self σ τ hstate (I.refl σ) hrel)
      (hkeeps b List.mem_cons_self σ hstate (I.refl σ)) ?_ ?_
    · intro w σ₁ τ₁ hσ₁ hchange₁ _ hrel₁
      refine ih w hσ₁ hrel₁ ?_ ?_ ?_
      · intro b' hb' σ' hσ' hchange
        exact hkeeps b' (List.mem_cons_of_mem b hb') σ' hσ' (I.trans hchange₁ hchange)
      · intro b' hb' σ' τ' hσ' hchange
        exact hf b' (List.mem_cons_of_mem b hb') σ' τ' hσ' (I.trans hchange₁ hchange)
      · intro b' hb'
        exact hg b' (List.mem_cons_of_mem b hb')
    · intro w
      exact .foldlM (fun _ b' hb' => hg b' (List.mem_cons_of_mem b hb')) w

/-! ## Single steps -/

theorem paired_lookupName {scope : FrameId} {x : String} (hstate : I.state σ)
    (hruns : I.runs σ scope (.name x)) (hrel : S.rel σ τ) :
    S.Paired (lookupName scope x σ) (lookupName scope x τ) := by
  unfold lookupName
  rw [S.lookup hstate hruns hrel]
  cases σ.lookup? scope x with
  | some v => exact .ok v hrel
  | none => exact .error _ hrel

theorem paired_applyWith {run run' : Expr → FrameId → Action Value} {callee : Value}
    {args : List Value} (hstate : I.state σ) (hcallee : I.value σ callee)
    (hargs : ∀ v ∈ args, I.value σ v) (hrel : S.rel σ τ)
    (hrun : ∀ e f σ' τ', I.state σ' → I.runs σ' f e → S.rel σ' τ' →
      S.Paired (run e f σ') (run' e f τ'))
    (hrun' : ∀ e f, S.order.Ascends (run' e f)) :
    S.Paired (applyWith run callee args σ) (applyWith run' callee args τ) := by
  unfold applyWith
  split
  · exact S.primitive hstate hcallee hargs hrel
  · rename_i id
    rw [S.closures hrel]
    cases hc : σ.closures[id]? with
    | none => exact .error _ hrel
    | some c =>
      -- both stores have the same closures, so both runs open a frame for the same body
      obtain ⟨hopened, hchange, hbody⟩ := I.call hstate hcallee hc hargs
      have hframe : I.Keeps (fun υ f => I.runs υ f c.body) σ
          (openFrame c.scope (bindArguments c.parameters args) σ) := .ok hopened hchange hbody
      refine .bind (.inl (S.call hstate hcallee hc hargs hrel)) hframe ?_ ?_
      · intro f σ₁ τ₁ hσ₁ _ hbody₁ hrel₁
        exact hrun c.body f σ₁ τ₁ hσ₁ hbody₁ hrel₁
      · intro f
        exact hrun' c.body f
  · exact .error _ hrel

/-! ## Runs -/

/-- A left run without levels stops; whatever the right one does is allowed for. -/
theorem paired_stop {levels : Nat} (hlevels : levels ≤ extra) (e : Expr) (scope : FrameId)
    (hrel : S.rel σ τ) :
    S.Paired (ip.eval 0 e scope σ) (ip'.eval levels e scope τ) := by
  rw [Interpreter.eval]
  rcases S.stop hlevels hrel with hagree | hstopped
  · exact .inl hagree
  · exact .inr ⟨_, rfl, hstopped⟩

theorem paired (S : Lockstep I ip' extra) (n : Nat) :
    (∀ e scope σ τ, I.state σ → I.runs σ scope e → S.rel σ τ →
      S.Paired (ip.eval n e scope σ) (ip'.eval (n + extra) e scope τ)) ∧
    ∀ callee args σ τ, I.state σ → I.value σ callee → (∀ v ∈ args, I.value σ v) → S.rel σ τ →
      S.Paired (ip.applyAt n callee args σ) (ip'.applyAt (n + extra) callee args τ) := by
  induction n with
  | zero =>
    rw [Nat.zero_add]
    constructor
    · intro e scope σ τ _ _ hrel
      exact paired_stop (Nat.le_refl extra) e scope hrel
    · intro callee args σ τ hstate hcallee hargs hrel
      rw [Interpreter.applyAt_eq_applyWith, Interpreter.applyAt_eq_applyWith]
      refine paired_applyWith hstate hcallee hargs hrel ?_ (S.order.eval ip' (extra - 1))
      intro e f σ' τ' _ _ hrel'
      exact paired_stop (Nat.sub_le extra 1) e f hrel'
  | succ n ih =>
    obtain ⟨heval, happly⟩ := ih
    rw [Nat.add_right_comm n 1 extra]
    have hright : ∀ e f, S.order.Ascends (ip'.eval (n + extra) e f) := S.order.eval ip' (n + extra)
    constructor
    · intro e scope σ τ hstate hruns hrel
      -- an operand can be evaluated at any later point of the run, on the left and on both sides
      have hkeeps : ∀ e' ∈ e.operands, ∀ σ', I.state σ' → I.change σ σ' →
          I.Keeps I.value σ' (ip.eval n e' scope σ') := by
        intro e' he' σ' hσ' hchange
        exact I.eval n hσ' (I.runs_mono hchange (I.operand hruns he'))
      have hoperand : ∀ e' ∈ e.operands, ∀ σ' τ', I.state σ' → I.change σ σ' → S.rel σ' τ' →
          S.Paired (ip.eval n e' scope σ') (ip'.eval (n + extra) e' scope τ') := by
        intro e' he' σ' τ' hσ' hchange hrel'
        exact heval e' scope σ' τ' hσ' (I.runs_mono hchange (I.operand hruns he')) hrel'
      have hfirst : ∀ e' ∈ e.operands, ∀ f g : Value → Action Value,
          (∀ v σ₁ τ₁, I.state σ₁ → I.change σ σ₁ → I.value σ₁ v → S.rel σ₁ τ₁ →
            S.Paired (f v σ₁) (g v τ₁)) →
          (∀ v, S.order.Ascends (g v)) →
          S.Paired ((ip.eval n e' scope >>= f) σ) ((ip'.eval (n + extra) e' scope >>= g) τ) := by
        intro e' he' f g hf hg
        exact .bind (hoperand e' he' σ τ hstate (I.refl σ) hrel)
          (hkeeps e' he' σ hstate (I.refl σ)) hf hg
      cases e with
      | literal v => exact .ok v hrel
      | quote v => exact .ok v hrel
      | name x => exact paired_lookupName hstate hruns hrel
      | ifThen test yes =>
        rw [Interpreter.eval, Interpreter.eval]
        refine hfirst test (by simp) _ _ ?_ ?_
        · intro v σ₁ τ₁ hσ₁ hchange _ hrel₁
          split
          · exact hoperand yes (by simp) σ₁ τ₁ hσ₁ hchange hrel₁
          · exact .ok _ hrel₁
        · intro v
          split
          · exact hright yes scope
          · exact .pure _
      | ifElse test yes no =>
        rw [Interpreter.eval, Interpreter.eval]
        refine hfirst test (by simp) _ _ ?_ ?_
        · intro v σ₁ τ₁ hσ₁ hchange _ hrel₁
          split
          · exact hoperand yes (by simp) σ₁ τ₁ hσ₁ hchange hrel₁
          · exact hoperand no (by simp) σ₁ τ₁ hσ₁ hchange hrel₁
        · intro v
          split
          · exact hright yes scope
          · exact hright no scope
      | assign x value =>
        rw [Interpreter.eval, Interpreter.eval]
        refine hfirst value (by simp) _ _ ?_ ?_
        · intro v σ₁ τ₁ hσ₁ hchange hv hrel₁
          exact .ok _ (S.assign hσ₁ (I.runs_mono hchange hruns) hv hrel₁)
        · intro v υ
          exact S.order.assign υ scope x v
      | define x value =>
        rw [Interpreter.eval, Interpreter.eval]
        refine hfirst value (by simp) _ _ ?_ ?_
        · intro v σ₁ τ₁ hσ₁ hchange hv hrel₁
          exact .ok _ (S.define hσ₁ (I.runs_mono hchange hruns) hv hrel₁)
        · intro v υ
          exact S.order.define υ scope x v
      | lambda parameters body =>
        refine .inl ⟨?_, S.closure hstate hruns hrel⟩
        show Except.ok (Value.closure τ.closures.size) = .ok (.closure σ.closures.size)
        rw [S.closures hrel]
      | sequence steps =>
        rw [Interpreter.eval, Interpreter.eval]
        exact .foldlM _ hstate hrel hkeeps hoperand fun e' _ => hright e' scope
      | withBundle name body =>
        rw [Interpreter.eval, Interpreter.eval]
        refine .bind (.inl (S.bundle hstate hruns hrel)) (I.keeps_openBundle hstate hruns) ?_ ?_
        · intro f σ₁ τ₁ hσ₁ _ hbody hrel₁
          exact heval body f σ₁ τ₁ hσ₁ hbody hrel₁
        · intro f
          exact hright body f
      | application callee arguments =>
        rw [Interpreter.eval, Interpreter.eval]
        refine hfirst callee List.mem_cons_self _ _ ?_ ?_
        · intro v σ₁ τ₁ hσ₁ hchange₁ hv hrel₁
          have hkeeps₁ : ∀ a ∈ arguments, ∀ σ', I.state σ' → I.change σ₁ σ' →
              I.Keeps I.value σ' (ip.eval n a scope σ') := by
            intro a ha σ' hσ' hchange
            exact hkeeps a (List.mem_cons_of_mem callee ha) σ' hσ' (I.trans hchange₁ hchange)
          refine .bind (.mapM hσ₁ hrel₁ hkeeps₁ ?_ fun a _ => hright a scope) (.mapM hσ₁ hkeeps₁) ?_
            (S.order.applyAt ip' (n + extra) v)
          · intro a ha σ' τ' hσ' hchange
            exact hoperand a (List.mem_cons_of_mem callee ha) σ' τ' hσ' (I.trans hchange₁ hchange)
          · intro args σ₂ τ₂ hσ₂ hchange₂ hargs hrel₂
            exact happly v args σ₂ τ₂ hσ₂ (I.value_mono hchange₂ hv) hargs hrel₂
        · intro v
          exact .bind (.mapM fun a _ => hright a scope) (S.order.applyAt ip' (n + extra) v)
    · intro callee args σ τ hstate hcallee hargs hrel
      rw [Interpreter.applyAt, Interpreter.applyAt]
      exact paired_applyWith hstate hcallee hargs hrel heval hright

theorem eval (S : Lockstep I ip' extra) (n : Nat) {e : Expr} {scope : FrameId} (hstate : I.state σ)
    (hruns : I.runs σ scope e) (hrel : S.rel σ τ) :
    S.Paired (ip.eval n e scope σ) (ip'.eval (n + extra) e scope τ) :=
  (S.paired n).1 e scope σ τ hstate hruns hrel

theorem applyAt (S : Lockstep I ip' extra) (n : Nat) {callee : Value} {args : List Value}
    (hstate : I.state σ) (hcallee : I.value σ callee) (hargs : ∀ v ∈ args, I.value σ v)
    (hrel : S.rel σ τ) :
    S.Paired (ip.applyAt n callee args σ) (ip'.applyAt (n + extra) callee args τ) :=
  (S.paired n).2 callee args σ τ hstate hcallee hargs hrel

end Lockstep

end MiniLisp
