import MiniLisp.Proofs.Eval.Realm

/-!
# The write footprint of evaluation

A frame that was there before a run differs afterwards in few ways: the frame of the scope in names
that the expression itself defines, and any frame in names that it bound already and that the
expression or a function in reach assigns.  Bindings are never removed, and this holds whether the run
ends in a value or in an error.
-/

namespace MiniLisp

/-- How the frames of a store are found after a run in the scope `s` that may define and assign some
names. -/
structure Footprint (σ after : Store) (s : FrameId) (defined assigned : String → Prop) : Prop where
  /-- No frame is removed, and none gets another parent. -/
  size : σ.frames.size ≤ after.frames.size
  parent : ∀ f < σ.frames.size, after.parent? f = σ.parent? f
  /-- No binding is removed. -/
  kept : ∀ f < σ.frames.size, ∀ x v, σ.Binds f x v → ∃ w, after.Binds f x w
  /-- A new or changed binding was defined in the scope, or its name was bound and was assigned. -/
  written : ∀ f < σ.frames.size, ∀ x, (after.localBindings f).get? x ≠ (σ.localBindings f).get? x →
    (f = s ∧ defined x) ∨ ((∃ v, σ.Binds f x v) ∧ assigned x)

namespace Footprint

variable {σ after : Store} {s : FrameId} {defined assigned : String → Prop}

theorem of_change {R : Realm} (hcount : R.frameCount = σ.frames.size) (h : R.Change σ after) :
    Footprint σ after R.scope R.defined R.assigned where
  size := h.frames_size
  parent f hf := h.parent f (hcount ▸ hf)
  kept f hf := h.kept f (hcount ▸ hf)
  written f hf := h.written f (hcount ▸ hf)

/-- A name that a frame gains was defined in the scope. -/
theorem gained (h : Footprint σ after s defined assigned) {f : FrameId} (hf : f < σ.frames.size)
    {x : String} {w : Value} (hafter : after.Binds f x w) :
    (∃ v, σ.Binds f x v) ∨ (f = s ∧ defined x) := by
  by_cases hsame : (after.localBindings f).get? x = (σ.localBindings f).get? x
  · exact .inl ⟨w, hsame.symm.trans hafter⟩
  · rcases h.written f hf x hsame with hdefined | ⟨hbound, _⟩
    · exact .inr hdefined
    · exact .inl hbound

end Footprint

/-- Evaluating an analysed expression in a scope defines names in the frame of that scope alone, and
only those that the expression defines outside the bodies of functions and imports; elsewhere it only
assigns names that are bound already, and only those assigned in the expression or in a function that
the scope reaches.  So no other frame gains a name, an import leaks none, an assignment makes none, and
neither does a value that the host applies. -/
theorem Interpreter.evaluate_footprint (ip : Interpreter) {d : Datum} {e : Expr}
    (he : Expr.ofDatum d = .ok e) (s : FrameId) (σ : Store) :
    Footprint σ (ip.evaluate e s σ).2 s e.Defines (ip.MayAssign σ s e) ∧
    (∀ f < σ.frames.size, f ≠ s → ∀ x w, (ip.evaluate e s σ).2.Binds f x w → ∃ v, σ.Binds f x v) ∧
    (∀ bundle body, e = .withBundle bundle body →
      ∀ f < σ.frames.size, ∀ x w, (ip.evaluate e s σ).2.Binds f x w → ∃ v, σ.Binds f x v) ∧
    (∀ f x v g y, (∃ w, (σ.assign f x v).2.Binds g y w) ↔ ∃ w, σ.Binds g y w) ∧
    ∀ callee args, ∀ f < σ.frames.size, ∀ x,
      (∃ w, (ip.apply callee args σ).2.Binds f x w) ↔ ∃ v, σ.Binds f x v := by
  have hfootprint : Footprint σ (ip.evaluate e s σ).2 s e.Defines (ip.MayAssign σ s e) :=
    .of_change (R := Realm.ofScope ip σ s e) rfl
      (Realm.keeps_evaluate ip σ s (Expr.plain_ofDatum he)).change
  refine ⟨hfootprint, ?_, ?_, Store.exists_binds_assign σ, ?_⟩
  · intro f hf hne x w hw
    rcases hfootprint.gained hf hw with hbound | ⟨hscope, _⟩
    · exact hbound
    · exact absurd hscope hne
  · rintro bundle body rfl f hf x w hw
    rcases hfootprint.gained hf hw with hbound | ⟨_, hdefines⟩
    · exact hbound
    · exact absurd hdefines Expr.not_defines_withBundle
  · intro callee args f hf x
    -- nothing is known of the closures of the callee, so the realm is the whole store
    have happlied : Footprint σ (ip.apply callee args σ).2 0 (fun _ => False) (fun _ => True) :=
      .of_change (R := Realm.whole σ) rfl (Realm.keeps_apply ip σ callee args).change
    constructor
    · rintro ⟨w, hw⟩
      rcases happlied.gained hf hw with hbound | ⟨_, hdefined⟩
      · exact hbound
      · exact hdefined.elim
    · rintro ⟨v, hv⟩
      exact happlied.kept f hf x v hv

/-- A definition in the inner one of two frames: the inner one gains the name and the outer one does
not. -/
theorem Interpreter.evaluate_footprint_define :
    let ip : Interpreter := ⟨⟨2, 0⟩, fun _ => none⟩
    let σ := (Store.addFrame (Store.addFrame (.empty .unlimited) none []).2 (some 0) []).2
    let e := Expr.define "x" (.literal (.str "here"))
    Expr.ofDatum (.list [.sym "define", .sym "x", .str "here"]) = .ok e ∧
      (ip.evaluate e 1 σ).2.Binds 1 "x" (.str "here") ∧
      Footprint σ (ip.evaluate e 1 σ).2 1 e.Defines (ip.MayAssign σ 1 e) ∧
      ∀ w, (ip.evaluate e 1 σ).2.Binds 0 "x" w → ∃ v, σ.Binds 0 "x" v := by
  intro ip σ e
  have he : Expr.ofDatum (.list [.sym "define", .sym "x", .str "here"]) = .ok e := rfl
  obtain ⟨hfootprint, hothers, _⟩ := ip.evaluate_footprint he 1 σ
  exact ⟨he, rfl, hfootprint, hothers 0 (by decide) (by decide) "x"⟩

end MiniLisp
