import MiniLisp.Proofs.Eval.Invariant
import MiniLisp.Proofs.Store.Frames

/-!
# What a scope reaches

A run in a scope gets at frames by parent links and by calls of closures, and at closures by names and
imports.  `Reach` and `ReachClosure` are what it can get at in this way from the store on.  A host may
build a function around closures, and a bundle that looks names up; both are followed too.  `Region` is
the least set of frames that is closed under parent links and the captured scopes of closures that are
found in bindings and bundles.  It lies in `Reach`, and is the same set where there are no functions and
bundles of the other kind (`reach_iff_region`).  Programs make no such functions (`evaluate_analysed`).
-/

namespace MiniLisp

namespace Interpreter

mutual

/-- The frames that a run in the scope `s` can get at. -/
inductive Reach (ip : Interpreter) (σ : Store) (s : FrameId) : FrameId → Prop where
  | scope : Reach ip σ s s
  | parent {f p : FrameId} (h : Reach ip σ s f) (hp : σ.parent? f = some p) : Reach ip σ s p
  /-- The scope in which a closure was made. -/
  | captured {id : ClosureId} {c : Closure} (h : ReachClosure ip σ s id)
      (hc : σ.closures[id]? = some c) : Reach ip σ s c.scope
  /-- A scope in which a bundle looks names up. -/
  | consulted {f : FrameId} {name : String} {bundle : Bundle} {entry : String × Blueprint}
      (hbundle : ip.bundles name = some bundle) (hentry : entry ∈ bundle) (h : entry.2.Reads f) :
      Reach ip σ s f

/-- The closures that a run in the scope `s` can get at. -/
inductive ReachClosure (ip : Interpreter) (σ : Store) (s : FrameId) : ClosureId → Prop where
  /-- A closure in the bindings of a frame, at any list depth. -/
  | bound {f : FrameId} {x : String} {v : Value} {id : ClosureId} (h : Reach ip σ s f)
      (hbinds : σ.Binds f x v) (hholds : v.Holds id) : ReachClosure ip σ s id
  /-- A closure in the values of a bundle, at any list depth. -/
  | offered {name : String} {bundle : Bundle} {entry : String × Blueprint} {id : ClosureId}
      (hbundle : ip.bundles name = some bundle) (hentry : entry ∈ bundle) (h : entry.2.Holds id) :
      ReachClosure ip σ s id
  /-- A closure that the body of a function holds as a literal. -/
  | literal {id id' : ClosureId} {c : Closure} (h : ReachClosure ip σ s id)
      (hc : σ.closures[id]? = some c) (hholds : c.body.Holds id') : ReachClosure ip σ s id'

end

/-- A set of frames with the scope `s` in it that is closed under parent links and under the captured
scopes of closures in bindings of its frames and in the values of bundles. -/
structure IsClosed (ip : Interpreter) (σ : Store) (s : FrameId) (frames : FrameId → Prop) : Prop where
  scope : frames s
  parent : ∀ f p, frames f → σ.parent? f = some p → frames p
  bound : ∀ f x v id c, frames f → σ.Binds f x v → v.Holds id → σ.closures[id]? = some c →
    frames c.scope
  offered : ∀ name bundle entry id c, ip.bundles name = some bundle → entry ∈ bundle →
    entry.2.Holds id → σ.closures[id]? = some c → frames c.scope

/-- The frame lies in every closed set for the scope `s`, and so in the least one. -/
def Region (ip : Interpreter) (σ : Store) (s f : FrameId) : Prop :=
  ∀ frames, ip.IsClosed σ s frames → frames f

/-- The name is assigned in the expression or in the body of a function that the scope reaches. -/
def MayAssign (ip : Interpreter) (σ : Store) (s : FrameId) (e : Expr) (x : String) : Prop :=
  e.Assigns x ∨ ∃ (id : ClosureId) (c : Closure), ip.ReachClosure σ s id ∧
    σ.closures[id]? = some c ∧ c.body.Assigns x

/-- The bundles are made of values and primitives, and look no names up. -/
def OffersValues (ip : Interpreter) : Prop :=
  ∀ name bundle, ip.bundles name = some bundle → ∀ entry ∈ bundle, ∀ f, ¬ entry.2.Reads f

end Interpreter

/-- The functions of the store hold no closures in their bodies. -/
def Store.Analysed (σ : Store) : Prop :=
  ∀ (id : ClosureId) (c : Closure), σ.closures[id]? = some c → c.body.Plain

namespace Interpreter

variable {ip : Interpreter} {σ : Store} {s f : FrameId}

theorem reach_isClosed : ip.IsClosed σ s (ip.Reach σ s) where
  scope := .scope
  parent _ _ h hp := .parent h hp
  bound _ _ _ _ _ h hbinds hholds hc := .captured (.bound h hbinds hholds) hc
  offered _ _ _ _ _ hbundle hentry h hc := .captured (.offered hbundle hentry h) hc

/-- What a scope reaches lies in every closed set of frames. -/
theorem Reach.least {frames : FrameId → Prop} (hσ : σ.Analysed) (hbundles : ip.OffersValues)
    (hclosed : ip.IsClosed σ s frames) (hf : ip.Reach σ s f) : frames f := by
  -- over frames and closures at once; a closure that is reached stands for the frame it captured
  refine @Reach.rec ip σ s (fun f _ => frames f)
    (fun id _ => ∀ c, σ.closures[id]? = some c → frames c.scope)
    ?scope ?parent ?captured ?consulted ?bound ?offered ?literal f hf
  case scope => exact hclosed.scope
  case parent =>
    intro f p _ hp ih
    exact hclosed.parent f p ih hp
  case captured =>
    intro id c _ hc ih
    exact ih c hc
  case consulted =>
    intro f name bundle entry hbundle hentry h
    -- this rule and the one for literals are the two that a closed set need not follow
    exact absurd h (hbundles name bundle hbundle entry hentry f)
  case bound =>
    intro f x v id _ hbinds hholds ih c hc
    exact hclosed.bound f x v id c ih hbinds hholds hc
  case offered =>
    intro name bundle entry id hbundle hentry h c hc
    exact hclosed.offered name bundle entry id c hbundle hentry h hc
  case literal =>
    intro id id' c _ hc hholds _ c' _
    exact absurd hholds (hσ id c hc id')

/-- The region of a scope is closed itself. -/
theorem region_isClosed : ip.IsClosed σ s (ip.Region σ s) where
  scope _ hclosed := hclosed.scope
  parent f p hf hp frames hclosed := hclosed.parent f p (hf frames hclosed) hp
  bound f x v id c hf hbinds hholds hc frames hclosed :=
    hclosed.bound f x v id c (hf frames hclosed) hbinds hholds hc
  offered name bundle entry id c hbundle hentry hholds hc _ hclosed :=
    hclosed.offered name bundle entry id c hbundle hentry hholds hc

/-- Where functions hold no closures and bundles look no names up, a scope reaches its region. -/
theorem reach_iff_region (hσ : σ.Analysed) (hbundles : ip.OffersValues) :
    ip.Reach σ s f ↔ ip.Region σ s f :=
  ⟨fun hf _ hclosed => hf.least hσ hbundles hclosed, fun hf => hf _ reach_isClosed⟩

end Interpreter

/-! ## Functions of programs -/

/-- Runs of expressions without closures put functions of the same kind into the store. -/
def Invariant.analysed (ip : Interpreter) : Invariant ip where
  state σ := σ.Analysed
  change _ _ := True
  value _ _ := True
  runs _ _ e := e.Plain
  refl _ := ⟨⟩
  trans _ _ := ⟨⟩
  value_mono _ _ := ⟨⟩
  runs_mono _ h := h
  operand h hmem := fun id hholds => h id (.operand hmem hholds)
  nil _ := ⟨⟩
  unspecified _ := ⟨⟩
  literal _ := ⟨⟩
  quote _ := ⟨⟩
  lookup _ _ _ := ⟨⟩
  assign hσ _ _ := by
    refine ⟨?_, ⟨⟩⟩
    rcases Store.assign_cases _ _ _ _ with hsame | ⟨g, _, _, hdefine⟩
    · rw [hsame]
      exact hσ
    · rw [hdefine]
      exact hσ
  define hσ _ _ := ⟨hσ, ⟨⟩⟩
  closure {σ scope parameters body} hσ h := by
    refine ⟨?_, ⟨⟩, ⟨⟩⟩
    intro id c hc
    -- bodies come into the store with closures only, and the new one is part of plain code
    rcases Store.closure_of_addClosure hc with rfl | hc
    · exact fun id hholds => h id (.body List.mem_cons_self hholds)
    · exact hσ id c hc
  bundle {σ scope name bundle body} hσ h _ := by
    refine ⟨?_, ⟨⟩, fun id hholds => h id (.body List.mem_cons_self hholds)⟩
    intro id c hc
    have hclosures := (bundle.make_stampsOnly σ).closures
    exact hσ id c (hclosures ▸ hc)
  call hσ _ hc _ := ⟨hσ, ⟨⟩, hσ _ _ hc⟩
  primitive {σ p args} hσ _ _ := by
    refine ⟨?_, ⟨⟩, fun _ _ => ⟨⟩⟩
    rw [p.call_sinkOnly args σ]
    exact hσ

/-- The functions that an analysed program makes hold no closures in their bodies. -/
theorem Interpreter.evaluate_analysed (ip : Interpreter) {d : Datum} {e : Expr}
    (he : Expr.ofDatum d = .ok e) {σ : Store} (hσ : σ.Analysed) (s : FrameId) :
    (ip.evaluate e s σ).2.Analysed :=
  ((Invariant.analysed ip).eval ip.limits.eval hσ (Expr.plain_ofDatum he)).state

end MiniLisp
