import MiniLisp.Proofs.Eval.Values
import MiniLisp.Proofs.Expr.Nesting
import MiniLisp.Proofs.Program.Textual
import MiniLisp.Proofs.Value.Answers

/-!
# Programs that cannot exhaust the levels of evaluation

Only calls of closures take levels that a program does not show.  Where no closure is bound or offered
and an expression makes no function, none appears during the run, so the run needs a level for each
expression that is nested in another one and none besides.  With more levels for evaluation than for
reading, a text that was read then never comes to the limit (`Interpreter.run_of_nesting`).
-/

namespace MiniLisp

variable {ip : Interpreter} {σ : Store} {scope : FrameId} {e : Expr} {limit : Nat}

/-! ## Runs without closures -/

/-- No bundle holds a closure. -/
def Interpreter.OffersNoClosure (ip : Interpreter) : Prop :=
  ∀ name bundle, ip.bundles name = some bundle → ∀ entry ∈ bundle, ∀ id, ¬ entry.2.Holds id

/-- A bundle without closures is made without closures where none is bound. -/
theorem Interpreter.OffersNoClosure.makes {name x : String} {bundle : Bundle} {v : Value}
    (h : ip.OffersNoClosure) (hσ : σ.BindsOnly Value.Plain) (hbundle : ip.bundles name = some bundle)
    (hmem : (x, v) ∈ (bundle.make σ).1) : v.Plain := by
  intro id hid
  obtain ⟨entry, hentry, hholds | ⟨f, _, y, w, hw, hfound⟩⟩ := Bundle.holds_make hmem hid
  · exact h name bundle hbundle entry hentry id hholds
  · exact hσ.lookup hw id hfound

/-- Where no closure is bound or offered, expressions without functions make none appear. -/
def Invariant.closureFree (hoffers : ip.OffersNoClosure) : Invariant ip where
  state σ := σ.BindsOnly Value.Plain
  change _ _ := True
  value _ v := v.Plain
  runs _ _ e := e.Plain ∧ ¬ e.MakesFunction
  refl _ := ⟨⟩
  trans _ _ := ⟨⟩
  value_mono _ h := h
  runs_mono _ h := h
  operand h hmem := ⟨fun id hid => h.1 id (.operand hmem hid), fun hmakes => h.2 (.operand hmem hmakes)⟩
  nil _ := fun _ => nofun
  unspecified _ := fun _ => nofun
  literal h := fun id hid => h.1 id (.literal hid)
  quote h := fun id hid => h.1 id (.quote hid)
  lookup hσ _ hv := hσ.lookup hv
  assign hσ _ hv := ⟨hσ.assign hv, ⟨⟩⟩
  define hσ _ hv := ⟨hσ.define hv, ⟨⟩⟩
  closure _ h := absurd (.here _ _) h.2
  bundle {σ scope name bundle body} hσ h hbundle := by
    have hmade := hσ.congr (bundle.make_stampsOnly σ).frames
    refine ⟨hmade.addFrame fun _ _ => hoffers.makes hσ hbundle, ⟨⟩, fun id hid => ?_, fun hmakes => ?_⟩
    · exact h.1 id (.body List.mem_cons_self hid)
    · exact h.2 (.body List.mem_cons_self hmakes)
  -- no closure is ever a value, so no call of one has to be looked at
  call _ hclosure _ _ := absurd .closure (hclosure _)
  primitive {σ p args} hσ _ hargs := by
    have hsink := p.call_sinkOnly args σ
    have hanswered : (p.call args σ).2.BindsOnly Value.Plain := hσ.congr (by rw [hsink])
    refine ⟨hanswered, ⟨⟩, fun v hv id hid => ?_⟩
    obtain ⟨a, ha, haid⟩ := Primitive.holds_call hv hid
    exact hargs a ha id haid

/-! ## Runs that do not come to the limit -/

namespace Invariant

variable {α β : Type} {I : Invariant ip} {good : Store → α → Prop}

/-- An outcome that keeps the invariant and did not stop at the limit. -/
structure Finishes (I : Invariant ip) (good : Store → α → Prop) (σ : Store)
    (outcome : Except Error α × Store) : Prop extends I.Keeps good σ outcome where
  finished : ∀ limit, outcome.1 ≠ .error (.tooDeep limit)

theorem Keeps.finishes {outcome : Except Error α × Store} (h : I.Keeps good σ outcome)
    (hfaults : ∀ limit, outcome.1 ≠ .error (.tooDeep limit)) : I.Finishes good σ outcome :=
  ⟨h, hfaults⟩

theorem Finishes.bind {good' : Store → β → Prop} {x : Action α} {f : α → Action β}
    (hx : I.Finishes good σ (x σ))
    (hf : ∀ a τ, I.state τ → I.change σ τ → good τ a → I.Finishes good' τ (f a τ)) :
    I.Finishes good' σ ((x >>= f) σ) := by
  refine (hx.toKeeps.bind fun a τ hτ hστ ha => (hf a τ hτ hστ ha).toKeeps).finishes fun limit => ?_
  rw [Action.bind_apply]
  rcases hrun : x σ with ⟨r, τ⟩
  rw [hrun] at hx
  cases r with
  | error e => exact fun h => hx.finished limit (congrArg _ (Except.error.inj h))
  | ok a => exact (hf a τ hx.state hx.change (hx.result a rfl)).finished limit

theorem Finishes.mapM {f : β → Action Value} {bs : List β} (hσ : I.state σ)
    (hf : ∀ b ∈ bs, ∀ τ, I.state τ → I.change σ τ → I.Finishes I.value τ (f b τ)) :
    I.Finishes (fun τ vs => ∀ v ∈ vs, I.value τ v) σ (bs.mapM f σ) := by
  induction bs generalizing σ with
  | nil => exact (Keeps.ok hσ (I.refl σ) nofun).finishes fun _ => nofun
  | cons b bs ih =>
    rw [List.mapM_cons]
    refine .bind (hf b List.mem_cons_self σ hσ (I.refl σ)) fun v τ hτ hστ hv => ?_
    refine .bind (ih hτ fun b' hb' υ hυ hτυ => ?_) fun vs υ hυ hτυ hvs => ?_
    · exact hf b' (List.mem_cons_of_mem b hb') υ hυ (I.trans hστ hτυ)
    · have hall := List.forall_mem_cons.mpr ⟨I.value_mono hτυ hv, hvs⟩
      exact (Keeps.ok hυ (I.refl υ) hall).finishes fun _ => nofun

theorem Finishes.foldlM {f : β → Action Value} {bs : List β} {v : Value} (hσ : I.state σ)
    (hv : I.value σ v)
    (hf : ∀ b ∈ bs, ∀ τ, I.state τ → I.change σ τ → I.Finishes I.value τ (f b τ)) :
    I.Finishes I.value σ (bs.foldlM (fun _ b => f b) v σ) := by
  induction bs generalizing σ v with
  | nil => exact (Keeps.ok hσ (I.refl σ) hv).finishes fun _ => nofun
  | cons b bs ih =>
    rw [List.foldlM_cons]
    refine .bind (hf b List.mem_cons_self σ hσ (I.refl σ)) fun w τ hτ hστ hw => ih hτ hw ?_
    exact fun b' hb' υ hυ hτυ => hf b' (List.mem_cons_of_mem b hb') υ hυ (I.trans hστ hτυ)

/-! ## Steps that take no level -/

theorem finishes_lookupName {x : String} (hσ : I.state σ) (hruns : I.runs σ scope (.name x)) :
    I.Finishes I.value σ (lookupName scope x σ) := by
  refine (I.keeps_lookupName hσ hruns).finishes fun limit => ?_
  unfold lookupName
  split <;> exact nofun

theorem finishes_openBundle {name : String} {body : Expr} (hσ : I.state σ)
    (hruns : I.runs σ scope (.withBundle name body)) :
    I.Finishes (fun τ f => I.runs τ f body) σ (openBundle ip.bundles scope name σ) := by
  refine (I.keeps_openBundle hσ hruns).finishes fun limit => ?_
  unfold openBundle
  split <;> exact nofun

/-- A call takes no level where there are no closures. -/
theorem finishes_applyAt (hoffers : ip.OffersNoClosure) (levels : Nat) {callee : Value}
    {args : List Value} (hσ : σ.BindsOnly Value.Plain) (hcallee : callee.Plain)
    (hargs : ∀ v ∈ args, v.Plain) :
    (closureFree hoffers).Finishes (closureFree hoffers).value σ (ip.applyAt levels callee args σ) := by
  refine ((closureFree hoffers).applyAt levels hσ hcallee hargs).finishes fun limit => ?_
  rw [Interpreter.applyAt_eq_applyWith]
  unfold applyWith
  split
  · intro h
    cases Primitive.fault_call h
  · exact absurd .closure (hcallee _)
  · exact nofun

/-- The induction is on the nesting of the expression: each part has a level less than the whole. -/
theorem finishes_eval (hoffers : ip.OffersNoClosure) {levels : Nat} (h : e.Within levels) :
    ∀ scope σ, σ.BindsOnly Value.Plain → (closureFree hoffers).runs σ scope e →
      (closureFree hoffers).Finishes (closureFree hoffers).value σ (ip.eval levels e scope σ) := by
  -- on the depth of the expression, of which each step takes one level
  induction h with
  | @intro n e _ _ hoperands hbodies =>
    intro scope σ hσ hruns
    let I := closureFree hoffers
    have hoperand : ∀ e' ∈ e.operands, ∀ τ, I.state τ → I.change σ τ →
        I.Finishes I.value τ (ip.eval n e' scope τ) := by
      intro e' he' τ hτ hστ
      have hruns' : I.runs τ scope e' := I.operand (I.runs_mono hστ hruns) he'
      exact hoperands e' he' scope τ hτ hruns'
    have hreturns : ∀ v τ υ, I.state υ → I.value υ v → I.Finishes I.value τ (.ok v, υ) :=
      fun v τ υ hυ hv => (Keeps.ok hυ ⟨⟩ hv).finishes fun _ => nofun
    cases e with
    | literal v => exact hreturns v σ σ hσ (I.literal hruns)
    | quote v => exact hreturns v σ σ hσ (I.quote hruns)
    | name x => exact finishes_lookupName hσ hruns
    | ifThen test yes =>
      rw [Interpreter.eval]
      refine .bind (hoperand test (by simp) σ hσ ⟨⟩) fun v τ hτ hστ _ => ?_
      split
      · exact hoperand yes (by simp) τ hτ hστ
      · exact hreturns _ τ τ hτ (I.unspecified τ)
    | ifElse test yes no =>
      rw [Interpreter.eval]
      refine .bind (hoperand test (by simp) σ hσ ⟨⟩) fun v τ hτ hστ _ => ?_
      split
      · exact hoperand yes (by simp) τ hτ hστ
      · exact hoperand no (by simp) τ hτ hστ
    | assign x value =>
      rw [Interpreter.eval]
      refine .bind (hoperand value (by simp) σ hσ ⟨⟩) fun v τ hτ hστ hv => ?_
      exact hreturns _ τ _ (Store.BindsOnly.assign hτ hv) (I.unspecified _)
    | define x value =>
      rw [Interpreter.eval]
      refine .bind (hoperand value (by simp) σ hσ ⟨⟩) fun v τ hτ hστ hv => ?_
      exact hreturns _ τ _ (Store.BindsOnly.define hτ hv) (I.unspecified _)
    | lambda parameters body => exact absurd (.here parameters body) hruns.2
    | sequence steps =>
      rw [Interpreter.eval]
      exact .foldlM hσ (I.nil σ) hoperand
    | withBundle name body =>
      rw [Interpreter.eval]
      refine .bind (finishes_openBundle hσ hruns) fun f τ hτ _ hbody => ?_
      exact hbodies body List.mem_cons_self f τ hτ hbody
    | application callee arguments =>
      rw [Interpreter.eval]
      refine .bind (hoperand callee List.mem_cons_self σ hσ ⟨⟩) fun v τ hτ hστ hv => ?_
      -- as no closure is held, the call is one of a primitive and needs no levels
      refine .bind (.mapM hτ fun a ha υ hυ _ => ?_) fun args υ hυ _ hargs => ?_
      · exact hoperand a (List.mem_cons_of_mem callee ha) υ hυ ⟨⟩
      · exact finishes_applyAt hoffers n hυ hv hargs

end Invariant

/-! ## Data and texts -/

/-- Analysis never stops at a limit. -/
theorem Expr.ne_tooDeep_of_ofData {ds : List Datum} {fault : Error} (h : Expr.ofData ds = .error fault) :
    fault ≠ .tooDeep limit := by
  rintro rfl
  obtain ⟨_, node, _, _, _, hfault⟩ := (Expr.judged_analysis.2 ds).eq_error_iff.mp h
  cases hfault with
  | parameter _ hitems => cases hitems

namespace Interpreter

variable {d : Datum} {forms : List Datum} {text : String}

theorem finishes_evaluate (hoffers : ip.OffersNoClosure) (hσ : σ.BindsOnly Value.Plain)
    (hanalyze : Expr.ofDatum d = .ok e) (hmakes : ¬ e.MakesFunction)
    (hlimit : d.depth + 1 ≤ ip.limits.eval) :
    (Invariant.closureFree hoffers).Finishes (Invariant.closureFree hoffers).value σ
      (ip.evaluate e scope σ) :=
  Invariant.finishes_eval hoffers ((Expr.within_ofDatum hanalyze).mono hlimit) scope σ hσ
    ⟨Expr.plain_ofDatum hanalyze, hmakes⟩

/-- Nesting alone does not exhaust the levels of evaluation.  Where no frame and no bundle holds a
closure, an expression without functions does not come to the limit if there is a level more than its
datum nests lists, and with more levels for evaluation than for reading no text without functions
does, whether it is run or loaded as a unit. -/
theorem run_of_nesting (hoffers : ip.OffersNoClosure) (hσ : σ.BindsOnly Value.Plain) (scope : FrameId) :
    (∀ d e, Expr.ofDatum d = .ok e → ¬ e.MakesFunction → d.depth + 1 ≤ ip.limits.eval →
      ∀ limit, (ip.evaluate e scope σ).1 ≠ .error (.tooDeep limit)) ∧
    (ip.limits.read < ip.limits.eval → ∀ text forms, ip.read text = .ok forms →
      (∀ d ∈ forms, ∀ e, Expr.ofDatum d = .ok e → ¬ e.MakesFunction) →
      ∀ limit, (ip.run text scope σ).1 ≠ .error (.tooDeep limit) ∧
        (ip.loadUnit text scope σ).1 ≠ .error (.tooDeep limit)) := by
  refine ⟨fun d e hanalyze hmakes hlimit =>
    (finishes_evaluate hoffers hσ hanalyze hmakes hlimit).finished, ?_⟩
  intro hlimits text forms hread hmakes limit
  -- the reader lets in no form that nests deeper than its own limit
  have hdepth : ∀ d ∈ forms, d.depth + 1 ≤ ip.limits.eval :=
    fun d hd => Nat.le_trans (Nat.succ_le_succ (readable_of_read hread d hd).depth_le) hlimits
  constructor
  · cases hes : Expr.ofData forms with
    | error e =>
      rw [run_of_analyze_error ((analyze_eq_ok hread).trans hes)]
      exact fun h => Expr.ne_tooDeep_of_ofData hes (Except.error.inj h)
    | ok es =>
      rw [run_of_analyze_ok ((analyze_eq_ok hread).trans hes)]
      refine (Invariant.Finishes.foldlM (I := .closureFree hoffers) hσ
        ((Invariant.closureFree hoffers).unspecified σ) fun e he τ hτ _ => ?_).finished limit
      obtain ⟨d, hd, hanalyze⟩ := Expr.exists_of_mem_ofData hes e he
      exact finishes_evaluate hoffers hτ hanalyze (hmakes d hd e hanalyze) (hdepth d hd)
  · cases forms with
    | nil =>
      rw [loadUnit, hread]
      intro h
      cases h
    | cons form forms =>
      rw [loadUnit_of_read_ok hread]
      cases he : Expr.ofDatum form with
      | error e =>
        have hes : Expr.ofData [form] = .error e := by
          rw [Expr.ofData, he]
          rfl
        exact fun h => Expr.ne_tooDeep_of_ofData hes (Except.error.inj h)
      | ok e =>
        have hform : form ∈ form :: forms := List.mem_cons_self
        exact (finishes_evaluate hoffers hσ he (hmakes form hform e he) (hdepth form hform)).finished limit

/-- Two lists in one another, read with two levels and run with three, where a bundle is offered. -/
theorem run_of_nesting_choice :
    let ip : Interpreter := ⟨⟨3, 2⟩, fun _ => some [("y", .value .nil)]⟩
    let σ := (Store.addFrame (.empty .unlimited) none [("x", .str "a")]).2
    let form := Datum.list [.sym "if", .sym "x", .list [.sym "begin", .sym "x"]]
    let e := Expr.ifThen (.name "x") (.sequence [.name "x"])
    ip.OffersNoClosure ∧ σ.BindsOnly Value.Plain ∧ Expr.ofDatum form = .ok e ∧ ¬ e.MakesFunction ∧
      form.depth + 1 ≤ ip.limits.eval ∧ ip.limits.read < ip.limits.eval ∧
      ip.read "(if x (begin x))" = .ok [form] ∧
      (∀ limit, (ip.evaluate e 0 σ).1 ≠ .error (.tooDeep limit)) ∧
      ∀ limit, (ip.run "(if x (begin x))" 0 σ).1 ≠ .error (.tooDeep limit) ∧
        (ip.loadUnit "(if x (begin x))" 0 σ).1 ≠ .error (.tooDeep limit) := by
  intro ip σ form e
  have hoffers : ip.OffersNoClosure := by
    intro name bundle hbundle entry hentry id hid
    obtain rfl := Option.some.inj hbundle
    obtain rfl := List.mem_singleton.mp hentry
    cases hid with
    | value h => cases h
  have hσ : σ.BindsOnly Value.Plain := by
    refine Store.BindsOnly.addFrame (fun _ _ _ => nofun) fun y w hw => ?_
    obtain ⟨rfl, rfl⟩ := Prod.ext_iff.mp (List.mem_singleton.mp hw)
    exact fun _ => nofun
  have hanalyze : Expr.ofDatum form = .ok e := rfl
  have hname : ¬ (Expr.name "x").MakesFunction := by
    intro h
    cases h with
    | operand hmem => cases hmem
    | body hmem => cases hmem
  have hsequence : ¬ (Expr.sequence [.name "x"]).MakesFunction := by
    intro h
    cases h with
    | operand hmem h => exact hname (List.mem_singleton.mp hmem ▸ h)
    | body hmem => cases hmem
  have hmakes : ¬ (Expr.ifThen (.name "x") (.sequence [.name "x"])).MakesFunction := by
    intro h
    cases h with
    | operand hmem h =>
      rcases List.mem_pair.mp hmem with rfl | rfl
      · exact hname h
      · exact hsequence h
    | body hmem => cases hmem
  have hdepth : form.depth + 1 ≤ ip.limits.eval := by decide
  have hread : ip.read "(if x (begin x))" = .ok [form] := by cbv
  refine ⟨hoffers, hσ, hanalyze, hmakes, hdepth, by decide, hread, ?_, ?_⟩
  · exact (run_of_nesting hoffers hσ 0).1 form e hanalyze hmakes hdepth
  · refine (run_of_nesting hoffers hσ 0).2 (by decide) _ [form] hread ?_
    intro d hd e' he'
    obtain rfl := List.mem_singleton.mp hd
    obtain rfl := Except.ok.inj (hanalyze.symm.trans he')
    exact hmakes

/-- With a level less the run stops. -/
example :
    let ip : Interpreter := ⟨⟨2, 2⟩, fun _ => none⟩
    let σ := (Store.addFrame (.empty .unlimited) none [("x", .str "a")]).2
    (ip.evaluate (.ifThen (.name "x") (.sequence [.name "x"])) 0 σ).1 = .error (.tooDeep 2) := by
  cbv

end Interpreter

end MiniLisp
