import Mathlib.Logic.Function.Iterate
import MiniLisp.Proofs.Prelude.Calls

/-!
# Folds of the standard unit

`reduce` with a primitive is the left fold of the calls of this primitive, and `length` counts with the
addition of the language.  Each item costs a fixed number of levels, three for `reduce` and four for
`length`, on top of the eight that an empty list takes (`Interpreter.reduce_and_length`).
-/

namespace MiniLisp

namespace Interpreter

variable {σ : Store} {home : FrameId} {id : ClosureId}

/-! ## The left fold -/

/-- The primitive gets the accumulator and the first item. -/
theorem takes_step (ip : Interpreter) {p : Primitive} {scope : FrameId} {acc xs : Value}
    (hs : σ.Sees scope home) (hp : σ.Denotes scope (.name "f") (.primitive p))
    (hacc : σ.Denotes scope (.name "acc") acc) (hxs : σ.Denotes scope (.name "xs") xs) :
    Takes ip.limits.eval 3
      (fun n => ip.eval n (Prelude.call "f" [.name "acc", Prelude.first]) scope) σ
      (p.call [acc, xs.car] σ) := by
  have hargs := takes_cons (ip.takes_denoted hacc)
    (takes_cons (ip.takes_first hs hxs) (ip.takes_nil scope σ))
  exact takes_application (ip.takes_denoted hp) hargs (ip.takes_primitive p [acc, xs.car] σ)

/-- The induction is on the items that are left; each call of the primitive starts from a store in which
the frames of the calls before it were made. -/
theorem takes_reduce (ip : Interpreter) (p : Primitive) {items : List Value} (hσ : σ.Standard home)
    (hid : σ.Provides home Prelude.reduce id) (acc xs : Value) (hitems : xs.items = items) :
    let fold := items.foldlM (fun a x => p.call [a, x]) acc σ
    ∃ τ, fold.2.OnlyMakes τ ∧ Takes ip.limits.eval (3 * items.length + 7)
      (fun n => ip.applyAt n (.closure id) [.primitive p, acc, xs]) σ (fold.1, τ) := by
  dsimp only
  have hfn : Prelude.reduce ∈ Prelude.functions := by simp [Prelude.functions]
  -- the store is free, as each call of the function leaves new frames in it
  induction items generalizing acc xs σ with
  | nil =>
    exact ip.takes_end hσ hfn hid rfl (Store.denotes_parameter hσ rfl) hitems
      (Store.denotes_parameter hσ rfl)
  | cons x items ih =>
    let υ := σ.inside home Prelude.reduce [.primitive p, acc, xs]
    have hp : υ.Denotes σ.frames.size (.name "f") (.primitive p) := Store.denotes_parameter hσ rfl
    have hacc : υ.Denotes σ.frames.size (.name "acc") acc := Store.denotes_parameter hσ rfl
    have hxs : υ.Denotes σ.frames.size (.name "xs") xs := Store.denotes_parameter hσ rfl
    obtain ⟨τ, hτ, hmakes, hsees, htest⟩ := ip.takes_entry hσ hfn hxs
    rw [hitems] at htest
    have hname := ip.takes_denoted (hp.mono hτ.toRetains)
    have hstep := ip.takes_step hsees (hp.mono hτ.toRetains) (hacc.mono hτ.toRetains)
      (hxs.mono hτ.toRetains)
    rw [Value.car_of_items hitems] at hstep
    have hreduce := ip.takes_denoted (hsees.function hfn (hid.mono hmakes.toRetains))
    have hretains := p.call_retains [acc, x] τ
    -- the fold makes this call in `σ`, the function in `τ`; their answers are the same
    obtain ⟨hresult, hstore⟩ := p.call_onlyMakes hmakes [acc, x]
    rw [List.foldlM_cons, Action.bind_apply]
    generalize p.call [acc, x] σ = expected at hresult hstore ⊢
    generalize p.call [acc, x] τ = answer at hstep hretains hresult hstore
    obtain ⟨result, σ'⟩ := expected
    obtain ⟨result', τ'⟩ := answer
    obtain rfl : result' = result := hresult
    cases result' with
    | error e =>
      -- the error comes from the second operand, so the function does not call itself
      refine ⟨τ', hstore, takes_function hid ?_⟩
      have hargs : Takes ip.limits.eval 3
          (fun n => [.name "f", Prelude.call "f" [.name "acc", Prelude.first], Prelude.rest].mapM fun arg =>
            ip.eval n arg σ.frames.size) τ (.error e, τ') :=
        takes_cons_error_behind hname (takes_cons_error hstep)
      have hbody : Takes ip.limits.eval 6 (fun n => ip.eval n Prelude.reduce.body σ.frames.size) υ
          (.error e, τ') := takes_ifElse htest (takes_application_error hreduce hargs)
      exact hbody.mono (by rw [List.length_cons]; omega)
    | ok a =>
      -- the function calls itself with the answer and the rest, in the store behind its call of `p`
      have hrest := ip.takes_rest (hsees.mono hretains) (hxs.mono (hτ.toRetains.trans hretains))
      have hargs := takes_cons hname (takes_cons hstep (takes_cons hrest (ip.takes_nil _ τ')))
      have hlater := hmakes.toRetains.trans hretains
      obtain ⟨ω, hω, hcalled⟩ :=
        ih (hσ.mono hlater) (hid.mono hlater) a xs.cdr (Value.items_cdr_of_items hitems)
      obtain ⟨hfold, hfoldStore⟩ := p.foldlM_onlyMakes items a hstore
      refine ⟨ω, hfoldStore.trans hω, takes_function hid ?_⟩
      have hagain := takes_application hreduce hargs hcalled
      rw [hfold] at hagain
      exact (takes_ifElse htest hagain).of_eq (by rw [List.length_cons]; omega)

/-! ## Counting -/

/-- What the addition of the language makes of one and a number: it starts from zero. -/
def onePlus (x : Float) : Float := 0 + 1 + x

theorem call_onePlus (stamp : Nat) (x : Float) (σ : Store) :
    Primitive.call ⟨stamp, Operation.add.name, Operation.add.arity, .add⟩ [.num 1, .num x] σ =
      (.ok (.num (onePlus x)), σ) := rfl

theorem takes_length (ip : Interpreter) {items : List Value} (hσ : σ.Standard home)
    (hid : σ.Provides home Prelude.length id) (xs : Value) (hitems : xs.items = items) :
    ∃ τ, σ.OnlyMakes τ ∧ Takes ip.limits.eval (4 * items.length + 7)
      (fun n => ip.applyAt n (.closure id) [xs]) σ (.ok (.num (onePlus^[items.length] 0)), τ) := by
  have hfn : Prelude.length ∈ Prelude.functions := by simp [Prelude.functions]
  induction items generalizing xs σ with
  | nil =>
    exact ip.takes_end hσ hfn hid rfl (Store.denotes_parameter hσ rfl) hitems (.literal _)
  | cons x items ih =>
    let υ := σ.inside home Prelude.length [xs]
    have hxs : υ.Denotes σ.frames.size (.name "xs") xs := Store.denotes_parameter hσ rfl
    obtain ⟨τ, hτ, hmakes, hsees, htest⟩ := ip.takes_entry hσ hfn hxs
    rw [hitems] at htest
    have hrest := ip.takes_rest hsees (hxs.mono hτ.toRetains)
    obtain ⟨ω, hω, hcalled⟩ :=
      ih (hσ.mono hmakes.toRetains) (hid.mono hmakes.toRetains) xs.cdr (Value.items_cdr_of_items hitems)
    have hlength := ip.takes_denoted (hsees.function hfn (hid.mono hmakes.toRetains))
    have hcount := takes_application hlength (takes_cons hrest (ip.takes_nil _ τ)) hcalled
    have hadd : Operation.add ∈ Operation.standard := by decide
    obtain ⟨stamp, hplus⟩ := hsees.operation hadd
    have hargs := takes_cons (ip.takes_denoted (.literal (.num 1)))
      (takes_cons hcount (ip.takes_nil σ.frames.size ω))
    -- the sum is made behind the inner call, so one is added last to the count of the rest
    have hadded := ip.takes_primitive ⟨stamp, Operation.add.name, Operation.add.arity, .add⟩
      [.num 1, .num (onePlus^[items.length] 0)] ω
    rw [call_onePlus] at hadded
    have hsum := takes_application (ip.takes_denoted hplus) hargs hadded
    refine ⟨ω, hmakes.trans hω, takes_function hid ?_⟩
    rw [List.length_cons, Function.iterate_succ_apply']
    exact (takes_ifElse htest hsum).of_eq (by omega)

/-! ## Calls in programs -/

/-- Where the functions of the standard unit are in sight, `reduce` with a primitive has the result and
the output of the fold from the left with the calls of this primitive, and `length` counts the items
from zero with the addition of the language.  They take three and four levels for each item and eight
for the empty list, and stop with fewer; only a fold that fails may do so before. -/
theorem reduce_and_length (ip : Interpreter) {scope : FrameId} (hs : σ.Sees scope home) :
    (∀ p acc xs ef ea ex, σ.Denotes scope ef (.primitive p) → σ.Denotes scope ea acc →
      σ.Denotes scope ex xs →
      let fold := xs.items.foldlM (fun a x => p.call [a, x]) acc σ
      let run := fun L => (ip.withEvalLimit L).evaluate (Prelude.call "reduce" [ef, ea, ex]) scope σ
      (∀ L, 3 * xs.items.length + 8 ≤ L → ∃ τ, run L = (fold.1, τ) ∧ fold.2.OnlyMakes τ) ∧
        ∀ v, fold.1 = .ok v → ∀ L < 3 * xs.items.length + 8, (run L).1 = .error (.tooDeep L)) ∧
    ∀ xs ex, σ.Denotes scope ex xs →
      let run := fun L => (ip.withEvalLimit L).evaluate (Prelude.call "length" [ex]) scope σ
      (∀ L, 4 * xs.items.length + 8 ≤ L →
        ∃ τ, run L = (.ok (.num (onePlus^[xs.items.length] 0)), τ) ∧ σ.OnlyMakes τ) ∧
        ∀ L < 4 * xs.items.length + 8, (run L).1 = .error (.tooDeep L) := by
  constructor
  · intro p acc xs ef ea ex hp hacc hxs fold run
    have hfn : Prelude.reduce ∈ Prelude.functions := by simp [Prelude.functions]
    obtain ⟨id, hid⟩ := hs.standard.functions _ hfn
    -- the exact number of levels gives both bounds: enough of them and one too few
    have htakes : ∀ L, ∃ τ, fold.2.OnlyMakes τ ∧ Takes L (3 * xs.items.length + 8)
        (fun n => (ip.withEvalLimit L).eval n (Prelude.call "reduce" [ef, ea, ex]) scope) σ (fold.1, τ) := by
      intro L
      obtain ⟨τ, hτ, happly⟩ := (ip.withEvalLimit L).takes_reduce p hs.standard hid acc xs rfl
      have hcall := takes_call (hs.function hfn hid) (.cons hp (.cons hacc (.cons hxs .nil))) happly
      exact ⟨τ, hτ, hcall.of_eq (by omega)⟩
    constructor
    · intro L hL
      obtain ⟨τ, hτ, h⟩ := htakes L
      exact ⟨τ, h.ends L hL, hτ⟩
    · intro v hv L hL
      obtain ⟨τ, -, h⟩ := htakes L
      exact h.stops v hv L hL
  · intro xs ex hxs run
    have hfn : Prelude.length ∈ Prelude.functions := by simp [Prelude.functions]
    obtain ⟨id, hid⟩ := hs.standard.functions _ hfn
    have htakes : ∀ L, ∃ τ, σ.OnlyMakes τ ∧ Takes L (4 * xs.items.length + 8)
        (fun n => (ip.withEvalLimit L).eval n (Prelude.call "length" [ex]) scope) σ
        (.ok (.num (onePlus^[xs.items.length] 0)), τ) := by
      intro L
      obtain ⟨τ, hτ, happly⟩ := (ip.withEvalLimit L).takes_length hs.standard hid xs rfl
      have hcall := takes_call (hs.function hfn hid) (.cons hxs .nil) happly
      exact ⟨τ, hτ, hcall.of_eq (by omega)⟩
    constructor
    · intro L hL
      obtain ⟨τ, hτ, h⟩ := htakes L
      exact ⟨τ, h.ends L hL, hτ⟩
    · intro L hL
      obtain ⟨τ, -, h⟩ := htakes L
      exact h.stops _ rfl L hL

/-- Two items in the root scope: a level less is too few. -/
theorem reduce_and_length_pair :
    let ip : Interpreter := ⟨⟨3, 8⟩, fun _ => none⟩
    let σ := (ip.loadPrelude Store.rootFrame (Store.root .unlimited)).2
    let cons : Value := .primitive ⟨0, "cons", .exact 2, .cons⟩
    let pair : Value := .list [.sym "a", .sym "b"]
    let reduced := fun L => (ip.withEvalLimit L).evaluate
      (Prelude.call "reduce" [.quote cons, .quote (.list []), .quote pair]) Store.rootFrame σ
    let counted := fun L => (ip.withEvalLimit L).evaluate
      (Prelude.call "length" [.quote pair]) Store.rootFrame σ
    σ.Sees Store.rootFrame Store.rootFrame ∧ σ.Denotes Store.rootFrame (.quote cons) cons ∧
      σ.Denotes Store.rootFrame (.quote (.list [])) (.list []) ∧
      σ.Denotes Store.rootFrame (.quote pair) pair ∧
      (reduced 14).1 = .ok pair ∧ (reduced 13).1 = .error (.tooDeep 13) ∧
      (counted 16).1 = .ok (.num (onePlus (onePlus 0))) ∧ (counted 15).1 = .error (.tooDeep 15) := by
  intro ip σ cons pair reduced counted
  have hs : σ.Sees Store.rootFrame Store.rootFrame := sees_root (by decide) (by decide) .unlimited
  obtain ⟨hreduce, hlength⟩ := ip.reduce_and_length hs
  obtain ⟨hreduced, hcut⟩ := hreduce ⟨0, "cons", .exact 2, .cons⟩ (.list []) pair _ _ _
    (.quote cons) (.quote (.list [])) (.quote pair)
  obtain ⟨hcounted, hshort⟩ := hlength pair _ (.quote pair)
  refine ⟨hs, .quote cons, .quote _, .quote pair, ?_, hcut pair rfl 13 (by decide), ?_,
    hshort 15 (by decide)⟩
  · obtain ⟨τ, hτ, -⟩ := hreduced 14 (by decide)
    exact congrArg Prod.fst hτ
  · obtain ⟨τ, hτ, -⟩ := hcounted 16 (by decide)
    exact congrArg Prod.fst hτ

end Interpreter

end MiniLisp
