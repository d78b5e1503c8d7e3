import MiniLisp.Proofs.Eval.Invariant
import MiniLisp.Proofs.Store.Effects
import MiniLisp.Proofs.Store.Frames

/-!
# Orders that every run ascends

A run changes the store in few ways: it defines and assigns names, makes closures, frames and
primitives, and calls primitives.  A `StepOrder` is a preorder on stores that each of them ascends.  It
is an invariant that asks for nothing else, so every run ascends it, at every limit and whether it ends
in a value or in an error (`StepOrder.eval`, `StepOrder.applyAt`).
-/

namespace MiniLisp

variable {α β : Type}

/-- A preorder on stores that every single step of a run ascends. -/
structure StepOrder where
  le : Store → Store → Prop
  refl : ∀ σ, le σ σ
  trans : ∀ {σ τ υ}, le σ τ → le τ υ → le σ υ
  define : ∀ σ f name v, le σ (σ.define f name v)
  addClosure : ∀ σ c, le σ (σ.addClosure c).2
  addFrame : ∀ σ parent entries, le σ (σ.addFrame parent entries).2
  make : ∀ σ (bundle : Bundle), le σ (bundle.make σ).2
  call : ∀ σ (p : Primitive) args, le σ (p.call args σ).2

namespace StepOrder

variable {P : StepOrder}

/-- The order in which all stores are equal. -/
def trivial : StepOrder where
  le _ _ := True
  refl _ := ⟨⟩
  trans _ _ := ⟨⟩
  define _ _ _ _ := ⟨⟩
  addClosure _ _ := ⟨⟩
  addFrame _ _ _ := ⟨⟩
  make _ _ := ⟨⟩
  call _ _ _ := ⟨⟩

/-- An order on sinks that every written value ascends: nothing else touches the sink. -/
def ofSink (le : Sink → Sink → Prop) (refl : ∀ sink, le sink sink)
    (trans : ∀ {first second third}, le first second → le second third → le first third)
    (write : ∀ sink v, le sink (sink.writeLine v)) : StepOrder where
  le σ τ := le σ.sink τ.sink
  refl σ := refl σ.sink
  trans := trans
  define σ _ _ _ := refl σ.sink
  addClosure σ _ := refl σ.sink
  addFrame σ _ _ := refl σ.sink
  make σ bundle := by
    rw [(bundle.make_stampsOnly σ).sink]
    exact refl σ.sink
  call σ p args := by
    rcases p.sink_call args σ with hsame | ⟨v, hwritten⟩
    · rw [hsame]
      exact refl σ.sink
    · rw [hwritten]
      exact write σ.sink v

/-- An assignment is a definition or nothing. -/
theorem assign (P : StepOrder) (σ : Store) (f : FrameId) (x : String) (v : Value) :
    P.le σ (σ.assign f x v).2 := by
  rcases σ.assign_cases f x v with hsame | ⟨g, _, _, hdefine⟩
  · rw [hsame]
    exact P.refl σ
  · rw [hdefine]
    exact P.define σ g x v

/-! ## Runs -/

/-- An order as an invariant of runs. -/
def invariant (P : StepOrder) (ip : Interpreter) : Invariant ip where
  state _ := True
  change := P.le
  value _ _ := True
  runs _ _ _ := True
  refl := P.refl
  trans := P.trans
  value_mono _ _ := ⟨⟩
  runs_mono _ _ := ⟨⟩
  operand _ _ := ⟨⟩
  nil _ := ⟨⟩
  unspecified _ := ⟨⟩
  literal _ := ⟨⟩
  quote _ := ⟨⟩
  lookup _ _ _ := ⟨⟩
  assign _ _ _ := ⟨⟨⟩, P.assign _ _ _ _⟩
  define _ _ _ := ⟨⟨⟩, P.define _ _ _ _⟩
  closure _ _ := ⟨⟨⟩, P.addClosure _ _, ⟨⟩⟩
  bundle _ _ _ := ⟨⟨⟩, P.trans (P.make _ _) (P.addFrame _ _ _), ⟨⟩⟩
  call _ _ _ _ := ⟨⟨⟩, P.addFrame _ _ _, ⟨⟩⟩
  primitive _ _ _ := ⟨⟨⟩, P.call _ _ _, fun _ _ => ⟨⟩⟩

/-- An action that ascends an order from every store. -/
def Ascends (P : StepOrder) (action : Action α) : Prop :=
  ∀ σ, P.le σ (action σ).2

theorem eval (P : StepOrder) (ip : Interpreter) (n : Nat) (e : Expr) (scope : FrameId) :
    P.Ascends (ip.eval n e scope) :=
  fun _ => ((P.invariant ip).eval n ⟨⟩ ⟨⟩).change

theorem applyAt (P : StepOrder) (ip : Interpreter) (n : Nat) (callee : Value) (args : List Value) :
    P.Ascends (ip.applyAt n callee args) :=
  fun _ => ((P.invariant ip).applyAt n ⟨⟩ ⟨⟩ fun _ _ => ⟨⟩).change

/-! ## Composed actions -/

namespace Ascends

theorem pure (a : α) : P.Ascends (pure a : Action α) := P.refl

theorem bind {x : Action α} {f : α → Action β} (hx : P.Ascends x) (hf : ∀ a, P.Ascends (f a)) :
    P.Ascends (x >>= f) := by
  intro σ
  have hfirst := hx σ
  rw [Action.bind_apply]
  rcases hrun : x σ with ⟨r, τ⟩
  rw [hrun] at hfirst
  cases r with
  | error e => exact hfirst
  | ok a => exact P.trans hfirst (hf a τ)

theorem mapM {f : α → Action β} {as : List α} (hf : ∀ a ∈ as, P.Ascends (f a)) :
    P.Ascends (as.mapM f) := by
  induction as with
  | nil => exact .pure []
  | cons a as ih =>
    rw [List.mapM_cons]
    refine .bind (hf a List.mem_cons_self) fun b => ?_
    exact .bind (ih fun a' ha' => hf a' (List.mem_cons_of_mem a ha')) fun bs => .pure (b :: bs)

theorem foldlM {f : β → α → Action β} {as : List α} (hf : ∀ b, ∀ a ∈ as, P.Ascends (f b a)) (b : β) :
    P.Ascends (as.foldlM f b) := by
  induction as generalizing b with
  | nil => exact .pure b
  | cons a as ih =>
    rw [List.foldlM_cons]
    exact .bind (hf b a List.mem_cons_self) fun b' =>
      ih (fun b a' ha' => hf b a' (List.mem_cons_of_mem a ha')) b'

end Ascends

end StepOrder

end MiniLisp
