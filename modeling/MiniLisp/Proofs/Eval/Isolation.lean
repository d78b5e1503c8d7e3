import MiniLisp.Proofs.Eval.Lockstep
import MiniLisp.Proofs.Eval.Realm
import MiniLisp.Proofs.Store.Agreement

/-!
# Frames out of reach

What a scope does not reach plays no part in a run there: it is not changed, the run does the same
whatever is bound there, and the result does not lead there.  The second part compares two runs in
lockstep, whose stores agree on the frames of the realm.

The last section says this of the frames outside the region of the scope.  A host may let a scope reach
more than its region, so there bundles have to look no names up, and functions to hold no closures; runs
keep the second of these by themselves.
-/

namespace MiniLisp

namespace Realm

variable {R : Realm} {σ τ : Store} {f : FrameId}

/-- The frames of the realm, and all that are made later. -/
def Sees (R : Realm) (f : FrameId) : Prop := R.frames f ∨ R.frameCount ≤ f

theorem OwnsFrame.sees (h : R.OwnsFrame σ f) : R.Sees f := h.imp_right And.left

/-- The scope of an owned frame is seen as a whole. -/
theorem Closed.sees (h : R.Closed σ) (hf : R.OwnsFrame σ f) : ∀ g ∈ σ.chain f, R.Sees g :=
  fun g hg => (h.chain hf g hg).sees

/-- Runs in the realm do the same in stores that agree on what they see. -/
def lockstep (R : Realm) (ip : Interpreter) (hadmits : R.Admits ip) :
    Lockstep (R.invariant ip hadmits) ip 0 where
  rel σ τ := σ.AgreesOn τ R.Sees
  stopped _ _ _ := False
  order := .trivial
  stopped_mono h _ := h
  stop {σ τ scope e levels} hlevels hrel := by
    obtain rfl : levels = 0 := Nat.le_zero.mp hlevels
    rw [Interpreter.eval]
    exact .inl ⟨rfl, hrel⟩
  closures hrel := hrel.closures
  lookup hclosed hruns hrel := hrel.lookup? (hclosed.sees hruns.frame)
  assign hclosed hruns _ hrel := hrel.assign (hclosed.sees hruns.frame) _ _
  define _ _ _ hrel := hrel.define _ _ _
  closure _ _ hrel := hrel.addClosure _
  bundle {σ τ scope name body} hclosed _ hrel := by
    unfold openBundle
    cases hbundle : ip.bundles name with
    | none => exact ⟨rfl, hrel⟩
    | some bundle =>
      -- a derived entry reads a frame that the realm owns, and there the stores agree
      have hreads : ∀ entry ∈ bundle, ∀ f, entry.2.Reads f → ∀ x, τ.lookup? f x = σ.lookup? f x := by
        intro entry hentry f hf x
        have hf : R.OwnsFrame σ f := .inl (hadmits.reads name bundle entry f hbundle hentry hf)
        exact hrel.lookup? (hclosed.sees hf)
      obtain ⟨hentries, hmade⟩ := hrel.makeBundle bundle hreads
      dsimp only
      rw [hentries]
      exact ⟨congrArg Except.ok hmade.size, hmade.addFrame (some scope) (bundle.make σ).1⟩
  call _ _ _ _ hrel := ⟨congrArg Except.ok hrel.size, hrel.addFrame _ _⟩
  primitive {σ τ p args} _ _ _ hrel := by
    obtain ⟨hresult, hstore⟩ := hrel.call p args
    exact .inl ⟨hresult, hstore⟩

end Realm

/-! ## Frames that the scope does not reach -/

namespace Interpreter

variable {ip : Interpreter} {σ τ : Store} {e : Expr} {s f : FrameId}

/-- They stay as they were. -/
theorem frames_evaluate (he : e.Plain) (hf : f < σ.frames.size) (hout : ¬ ip.Reach σ s f) :
    (ip.evaluate e s σ).2.frames[f]? = σ.frames[f]? :=
  (Realm.keeps_evaluate ip σ s he).change.outside f hf hout

/-- It does not matter what they bind. -/
theorem evaluate_of_agreesOn (he : e.Plain) (hagree : σ.AgreesOn τ (ip.Reach σ s)) :
    (ip.evaluate e s τ).1 = (ip.evaluate e s σ).1 ∧
      (ip.evaluate e s σ).2.AgreesOn (ip.evaluate e s τ).2
        fun f => ip.Reach σ s f ∨ σ.frames.size ≤ f := by
  -- frames that neither store has yet bind nothing in both
  have hsees : σ.AgreesOn τ (Realm.ofScope ip σ s e).Sees :=
    { hagree with
      bindings := by
        rintro f (hreach | hge)
        · exact hagree.bindings f hreach
        · refine Store.localBindings_congr ?_
          rw [Array.getElem?_eq_none hge, Array.getElem?_eq_none (hagree.size ▸ hge)] }
  have hpaired := ((Realm.ofScope ip σ s e).lockstep ip (Realm.admits_ofScope ip σ s e)).eval
    ip.limits.eval (Realm.closed_ofScope ip σ s e) (Realm.runs_ofScope he) hsees
  rcases hpaired with hsame | ⟨_, _, hstopped⟩
  · exact ⟨hsame.result, hsame.store⟩
  · exact hstopped.elim

/-- No closure of the value captures one. -/
theorem captured_evaluate (he : e.Plain) {v : Value} (hv : (ip.evaluate e s σ).1 = .ok v)
    {id : ClosureId} {c : Closure} (hid : v.Holds id)
    (hc : (ip.evaluate e s σ).2.closures[id]? = some c) :
    ip.Reach σ s c.scope ∨
      σ.frames.size ≤ c.scope ∧ c.scope < (ip.evaluate e s σ).2.frames.size := by
  have hkeeps := Realm.keeps_evaluate ip σ s he
  exact (hkeeps.state.closure id c (hkeeps.result v hv id hid) hc).1

/-! ## Frames outside the region -/

/-- Let no function in the store hold a closure, and let bundles look no names up.  Then evaluating an
analysed expression in a scope leaves the frames outside the region of the scope as they were; it has the
same result and the same effects in every store that differs only in the bindings of those frames; the
closures of its value capture a frame of the region or one that was made by the run; and still no function
in the store holds a closure. -/
theorem evaluate_isolated (ip : Interpreter) (hbundles : ip.OffersValues) {d : Datum} {e : Expr}
    (he : Expr.ofDatum d = .ok e) (s : FrameId) (σ : Store) (hσ : σ.Analysed) :
    (∀ f < σ.frames.size, ¬ ip.Region σ s f →
      (ip.evaluate e s σ).2.frames[f]? = σ.frames[f]?) ∧
    (∀ τ, σ.AgreesOn τ (ip.Region σ s) →
      (ip.evaluate e s τ).1 = (ip.evaluate e s σ).1 ∧
      (ip.evaluate e s σ).2.AgreesOn (ip.evaluate e s τ).2
        fun f => ip.Region σ s f ∨ σ.frames.size ≤ f) ∧
    (∀ v, (ip.evaluate e s σ).1 = .ok v → ∀ id c, v.Holds id →
      (ip.evaluate e s σ).2.closures[id]? = some c →
      ip.Region σ s c.scope ∨
        σ.frames.size ≤ c.scope ∧ c.scope < (ip.evaluate e s σ).2.frames.size) ∧
    (ip.evaluate e s σ).2.Analysed := by
  have hplain : e.Plain := Expr.plain_ofDatum he
  have hregion : ip.Region σ s = ip.Reach σ s :=
    funext fun f => propext (reach_iff_region hσ hbundles).symm
  rw [hregion]
  refine ⟨?unchanged, ?agrees, ?captured, ip.evaluate_analysed he hσ s⟩
  case unchanged => exact fun f => frames_evaluate hplain
  case agrees => exact fun τ => evaluate_of_agreesOn hplain
  case captured => exact fun v hv id c => captured_evaluate hplain hv

/-- A call of a function in the first one of two separate frames, which also has a bundle to import: the
second frame stays as it was, and it does not matter what it binds. -/
theorem evaluate_isolated_apart :
    let ip : Interpreter := ⟨⟨5, 0⟩, fun _ => some [("y", .value (.str "offered"))]⟩
    let c : Closure := ⟨["z"], .assign "x" (.name "z"), 0⟩
    let ρ := (Store.addClosure (.empty .unlimited) c).2
    let σ := (Store.addFrame (Store.addFrame ρ none [("f", .closure 0), ("x", .nil)]).2
      none [("x", .nil)]).2
    let e := Expr.withBundle "b" (.application (.name "f") [.name "y"])
    Expr.ofDatum (.list [.sym "`b", .list [.sym "f", .sym "y"]]) = .ok e ∧
      ip.OffersValues ∧ σ.Analysed ∧ ¬ ip.Region σ 0 1 ∧
      ((ip.evaluate e 0 σ).2.lookup? 0 "x").map Value.text = some "\"offered\"" ∧
      (ip.evaluate e 0 σ).2.frames[1]? = σ.frames[1]? ∧
      (ip.evaluate e 0 (σ.define 1 "x" (.bool true))).1 = (ip.evaluate e 0 σ).1 := by
  intro ip c ρ σ e
  have he : Expr.ofDatum (.list [.sym "`b", .list [.sym "f", .sym "y"]]) = .ok e := by cbv
  have hmade : ∀ (id : ClosureId) (c' : Closure), σ.closures[id]? = some c' → c' = c := by
    rintro (_ | id) c' hc
    · exact (Option.some.inj hc).symm
    · cases hc
  have hentry : ∀ {name : String} {bundle : Bundle} {entry : String × Blueprint},
      ip.bundles name = some bundle → entry ∈ bundle → entry.2 = .value (.str "offered") := by
    intro name bundle entry hbundle hentry
    obtain rfl := Option.some.inj hbundle
    obtain rfl := List.mem_singleton.mp hentry
    rfl
  have hbundles : ip.OffersValues := by
    intro name bundle hbundle entry hmem f hreads
    rw [hentry hbundle hmem] at hreads
    cases hreads
  have hσ : σ.Analysed := by
    intro id c' hc
    rw [hmade id c' hc]
    exact Expr.plain_ofDatum (d := .list [.sym "set!", .sym "x", .sym "z"]) (by cbv)
  -- the inner frame alone is closed, so the region is no larger
  have hclosed : ip.IsClosed σ 0 (· = 0) := by
    refine ⟨rfl, ?_, ?_, ?_⟩
    · rintro f p rfl hp
      cases hp
    · rintro f x v id c' - - - hc
      rw [hmade id c' hc]
    · rintro name bundle entry id c' - - - hc
      rw [hmade id c' hc]
  have hout : ¬ ip.Region σ 0 1 := fun h => absurd (h _ hclosed) (by decide)
  obtain ⟨hunchanged, hsame, _⟩ := ip.evaluate_isolated hbundles he 0 σ hσ
  refine ⟨he, hbundles, hσ, hout, by decide +kernel, hunchanged 1 (by decide) hout, (hsame _ ?_).1⟩
  refine ⟨Store.size_define, fun f => Store.parent?_define, ?_, rfl, rfl, rfl⟩
  intro f hf
  obtain rfl : f = 0 := hf _ hclosed
  exact Store.localBindings_define_ne (by decide)

/-- Neither hypothesis can be left out.  A bundle that looks a name up outside the region gives away what
is bound there; a function around a closure, which only a host can make, assigns a name outside the region
of the scope in which it is called. -/
theorem evaluate_not_isolated :
    (let ip : Interpreter := ⟨⟨3, 0⟩, fun _ => some [("x", .bound 0 "y")]⟩
      let σ := (Store.addFrame (Store.addFrame (.empty .unlimited) none [("y", .str "one")]).2
        none []).2
      let τ := σ.define 0 "y" (.str "two")
      let e := Expr.withBundle "b" (.name "x")
      Expr.ofDatum (.list [.sym "`b", .sym "x"]) = .ok e ∧ σ.Analysed ∧
        σ.AgreesOn τ (ip.Region σ 1) ∧ (ip.evaluate e 1 τ).1 ≠ (ip.evaluate e 1 σ).1) ∧
    let ip : Interpreter := ⟨⟨8, 0⟩, fun _ => none⟩
    let inner : Closure := ⟨[], .assign "x" (.literal (.str "two")), 0⟩
    let outer : Closure := ⟨[], .application (.literal (.closure 0)) [], 1⟩
    let ρ := (Store.addClosure (Store.addClosure (.empty .unlimited) inner).2 outer).2
    let σ := (Store.addFrame (Store.addFrame ρ none [("x", .str "one")]).2 none [("f", .closure 1)]).2
    let e := Expr.application (.name "f") []
    Expr.ofDatum (.list [.sym "f"]) = .ok e ∧ ip.OffersValues ∧
      ¬ ip.Region σ 1 0 ∧ (ip.evaluate e 1 σ).2.frames[0]? ≠ σ.frames[0]? := by
  refine ⟨?consulted, ?literal⟩
  case consulted =>
    intro ip σ τ e
    have hclosures : ∀ (id : ClosureId) (c : Closure), σ.closures[id]? ≠ some c := by
      intro id c hc
      cases hc
    have hclosed : ip.IsClosed σ 1 (· = 1) := by
      refine ⟨rfl, ?_, ?_, ?_⟩
      · rintro f p rfl hp
        cases hp
      · rintro f x v id c - - - hc
        exact absurd hc (hclosures id c)
      · rintro name bundle entry id c - - - hc
        exact absurd hc (hclosures id c)
    have hagree : σ.AgreesOn τ (ip.Region σ 1) := by
      refine ⟨Store.size_define, fun f => Store.parent?_define, ?_, rfl, rfl, rfl⟩
      intro f hf
      obtain rfl : f = 1 := hf _ hclosed
      exact Store.localBindings_define_ne (by decide)
    refine ⟨by cbv, fun id c hc => absurd hc (hclosures id c), hagree, fun hsame => ?_⟩
    have htexts : (ip.evaluate e 1 τ).1.toOption.map Value.text ≠
        (ip.evaluate e 1 σ).1.toOption.map Value.text := by
      decide +kernel
    exact htexts (by rw [hsame])
  case literal =>
    intro ip inner outer ρ σ e
    have hbinds : ∀ x v, σ.Binds 1 x v → v = .closure 1 := by
      intro x v h
      have hmem : (x, v) ∈ [("f", Value.closure 1)] := Bindings.mem_of_get?_ofList h
      exact congrArg Prod.snd (List.mem_singleton.mp hmem)
    have hclosed : ip.IsClosed σ 1 (· = 1) := by
      refine ⟨rfl, ?_, ?_, ?_⟩
      · rintro f p rfl hp
        cases hp
      · rintro f x v id c rfl hx hholds hc
        rw [hbinds x v hx] at hholds
        cases hholds
        obtain rfl : outer = c := Option.some.inj hc
        rfl
      · intro name bundle entry id c hbundle
        cases hbundle
    have hout : ¬ ip.Region σ 1 0 := fun h => absurd (h _ hclosed) (by decide)
    have hvalues : ip.OffersValues := by
      intro name bundle hbundle
      cases hbundle
    refine ⟨by cbv, hvalues, hout, fun hsame => ?_⟩
    have htexts : (((ip.evaluate e 1 σ).2.localBindings 0).get? "x").map Value.text ≠
        ((σ.localBindings 0).get? "x").map Value.text := by
      decide +kernel
    exact htexts (by rw [Store.localBindings_congr hsame])

end Interpreter

end MiniLisp
