import MiniLisp.Proofs.Eval.Levels
import MiniLisp.Proofs.Prelude.Functions
import MiniLisp.Proofs.Value.Lists

/-!
# Calls inside the standard unit

Inside the body of a function of the standard unit the parameters are bound to the arguments, and all
other names to what they are bound to where the function was made (`Store.Sees.inside`).  So a call of a
standard primitive or of one of the functions is the same from everywhere, and the levels that it takes
can be counted once.
-/

namespace MiniLisp

open Prelude (Function)

/-! ## Scopes that see the standard names -/

namespace Store

variable {σ τ : Store} {scope home : FrameId} {fn : Function} {op : Operation} {x : String} {v : Value}

/-- The names of the root scope and of the functions. -/
def standardNames : List String := rootNames ++ Prelude.functions.map (·.name)

/-- The scope finds under the standard names what `home` has under them. -/
structure Sees (σ : Store) (scope home : FrameId) : Prop where
  standard : σ.Standard home
  same : ∀ x ∈ standardNames, σ.lookup? scope x = σ.lookup? home x

/-- A scope with the functions sees them. -/
theorem Standard.sees (h : σ.Standard home) : σ.Sees home home := ⟨h, fun _ _ => rfl⟩

/-- Under a standard name something is bound. -/
theorem Standard.exists_of_mem (h : σ.Standard home) (hx : x ∈ standardNames) :
    ∃ v, σ.lookup? home x = some v := by
  rcases List.mem_append.mp hx with hx | hx
  · rcases List.mem_append.mp hx with hx | hx
    · obtain ⟨⟨x, v⟩, hv, rfl⟩ := List.mem_map.mp hx
      exact ⟨v, h.constants x v hv⟩
    · obtain ⟨op, hop, rfl⟩ := List.mem_map.mp hx
      obtain ⟨stamp, hlookup⟩ := h.operations op hop
      exact ⟨_, hlookup⟩
  · obtain ⟨fn, hfn, rfl⟩ := List.mem_map.mp hx
    obtain ⟨id, hid⟩ := h.functions fn hfn
    exact ⟨_, hid.named⟩

theorem Denotes.mono {e : Expr} (h : σ.Denotes scope e v) (hretains : σ.Retains τ) :
    τ.Denotes scope e v := by
  cases h with
  | literal v => exact .literal v
  | quote v => exact .quote v
  | name hv => exact .name (hretains.lookup? hv)

namespace Sees

theorem mono (h : σ.Sees scope home) (hretains : σ.Retains τ) : τ.Sees scope home where
  standard := h.standard.mono hretains
  same x hx := by
    obtain ⟨v, hv⟩ := h.standard.exists_of_mem hx
    rw [hretains.lookup? hv, hretains.lookup? ((h.same x hx).trans hv)]

theorem constant (h : σ.Sees scope home) (hv : (x, v) ∈ constants) : σ.Denotes scope (.name x) v := by
  refine .name ((h.same x ?_).trans (h.standard.constants x v hv))
  exact List.mem_append_left _ (List.mem_append_left _ (List.mem_map.mpr ⟨(x, v), hv, rfl⟩))

theorem operation (h : σ.Sees scope home) (hop : op ∈ Operation.standard) :
    ∃ stamp, σ.Denotes scope (.name op.name) (.primitive ⟨stamp, op.name, op.arity, op⟩) := by
  obtain ⟨stamp, hlookup⟩ := h.standard.operations op hop
  refine ⟨stamp, .name ((h.same op.name ?_).trans hlookup)⟩
  exact List.mem_append_left _ (List.mem_append_right _ (List.mem_map.mpr ⟨op, hop, rfl⟩))

theorem function {id : ClosureId} (h : σ.Sees scope home) (hfn : fn ∈ Prelude.functions)
    (hid : σ.Provides home fn id) : σ.Denotes scope (.name fn.name) (.closure id) := by
  refine .name ((h.same fn.name ?_).trans hid.named)
  exact List.mem_append_right _ (List.mem_map.mpr ⟨fn, hfn, rfl⟩)

end Sees

/-! ## Inside a call -/

/-- The frame of a call of a function that was made in `home`. -/
def inside (σ : Store) (home : FrameId) (fn : Function) (args : List Value) : Store :=
  (σ.addFrame (some home) (bindArguments fn.parameters args)).2

theorem onlyMakes_inside (σ : Store) (home : FrameId) (fn : Function) (args : List Value) :
    σ.OnlyMakes (σ.inside home fn args) := .addFrame ..

/-- A parameter is bound to its argument. -/
theorem denotes_parameter {args : List Value} (h : σ.Standard home)
    (hx : (bindArguments fn.parameters args).reverse.lookup x = some v) :
    (σ.inside home fn args).Denotes σ.frames.size (.name x) v := by
  refine .name ?_
  rw [inside, lookup?_addFrame h.lt_size, Bindings.get?_ofList, hx]
  rfl

theorem lookup_bindArguments_of_not_mem {parameters : List String} (args : List Value)
    (hx : x ∉ parameters) : (bindArguments parameters args).reverse.lookup x = none := by
  refine List.lookup_eq_none_iff.mpr fun entry hentry => ?_
  have hname := name_mem_of_mem_bindArguments (List.mem_reverse.mp hentry)
  rw [bne_iff_ne]
  rintro rfl
  exact hx hname

/-- The parameters of the functions hide no standard name. -/
theorem parameters_fresh : ∀ fn ∈ Prelude.functions, ∀ x ∈ standardNames, x ∉ fn.parameters := by
  decide

theorem Standard.sees_inside (h : σ.Standard home) (hfn : fn ∈ Prelude.functions) (args : List Value) :
    (σ.inside home fn args).Sees σ.frames.size home where
  standard := h.mono (onlyMakes_inside ..).toRetains
  same x hx := by
    obtain ⟨v, hv⟩ := h.exists_of_mem hx
    rw [(onlyMakes_inside ..).lookup? hv, inside, lookup?_addFrame h.lt_size, Bindings.get?_ofList,
      lookup_bindArguments_of_not_mem args (parameters_fresh fn hfn x hx), hv]
    rfl

end Store

/-- The root scope sees the standard names once the unit was loaded there. -/
theorem Interpreter.sees_root {ip : Interpreter} (hread : 8 ≤ ip.limits.read) (heval : 3 ≤ ip.limits.eval)
    (sink : Sink) :
    (ip.loadPrelude Store.rootFrame (Store.root sink)).2.Sees Store.rootFrame Store.rootFrame := by
  obtain ⟨v, τ, hload, hτ⟩ := standard_loadPrelude (Store.equipped_root sink) hread heval
  rw [hload]
  exact hτ.sees

/-! ## Levels of calls -/

namespace Interpreter

variable {ip : Interpreter} {k : Nat} {σ τ : Store} {scope home : FrameId} {fn : Function}
variable {id : ClosureId} {op : Operation} {args : List Expr} {vs : List Value} {v : Value}
variable {outcome : Except Error Value × Store}

/-- A standard primitive answers to known arguments within two levels. -/
theorem takes_operation (ip : Interpreter) (op : Operation) {answer : Except Error Value}
    (hs : σ.Sees scope home) (hop : op ∈ Operation.standard)
    (hargs : List.Forall₂ (σ.Denotes scope) args vs)
    (hanswer : ∀ stamp, Primitive.call ⟨stamp, op.name, op.arity, op⟩ vs σ = (answer, σ)) :
    Takes ip.limits.eval 2 (fun n => ip.eval n (Prelude.call op.name args) scope) σ (answer, σ) := by
  obtain ⟨stamp, hcallee⟩ := hs.operation hop
  have hcall := ip.takes_primitive ⟨stamp, op.name, op.arity, op⟩ vs σ
  rw [hanswer stamp] at hcall
  exact takes_call hcallee hargs hcall

theorem takes_first (ip : Interpreter) (hs : σ.Sees scope home) (hxs : σ.Denotes scope (.name "xs") v) :
    Takes ip.limits.eval 2 (fun n => ip.eval n Prelude.first scope) σ (.ok v.car, σ) :=
  ip.takes_operation .car hs (by decide) (.cons hxs .nil) fun _ => rfl

theorem takes_rest (ip : Interpreter) (hs : σ.Sees scope home) (hxs : σ.Denotes scope (.name "xs") v) :
    Takes ip.limits.eval 2 (fun n => ip.eval n Prelude.rest scope) σ (.ok v.cdr, σ) :=
  ip.takes_operation .cdr hs (by decide) (.cons hxs .nil) fun _ => rfl

/-- A function takes a level more than its body. -/
theorem takes_function (hid : σ.Provides home fn id)
    (hbody : Takes ip.limits.eval k (fun n => ip.eval n fn.body σ.frames.size) (σ.inside home fn vs)
      outcome) :
    Takes ip.limits.eval (k + 1) (fun n => ip.applyAt n (.closure id) vs) σ outcome :=
  takes_closure hid.made hbody

/-- Negation takes three levels. -/
theorem takes_not (ip : Interpreter) (hσ : σ.Standard home) (hid : σ.Provides home Prelude.not id)
    (v : Value) : Takes ip.limits.eval 3 (fun n => ip.applyAt n (.closure id) [v]) σ
      (.ok (.bool !v.isTruthy), σ.inside home Prelude.not [v]) := by
  have hfn : Prelude.not ∈ Prelude.functions := by simp [Prelude.functions]
  have hsees := hσ.sees_inside hfn [v]
  have hx : (σ.inside home Prelude.not [v]).Denotes σ.frames.size (.name "x") v :=
    Store.denotes_parameter hσ rfl
  have hbranch : Takes ip.limits.eval 1
      (fun n => ip.eval n (if v.isTruthy then .name "False" else .name "True") σ.frames.size)
      (σ.inside home Prelude.not [v]) (.ok (.bool !v.isTruthy), σ.inside home Prelude.not [v]) := by
    cases v.isTruthy with
    | true => exact ip.takes_denoted (hsees.constant (by simp [constants]))
    | false => exact ip.takes_denoted (hsees.constant (by simp [constants]))
  exact takes_function hid (takes_ifElse (ip.takes_denoted hx) hbranch)

/-! ## The end of a list -/

/-- The test of the functions on lists takes five levels. -/
theorem takes_atEnd (ip : Interpreter) (hs : σ.Sees scope home) (hxs : σ.Denotes scope (.name "xs") v) :
    ∃ τ, σ.OnlyMakes τ ∧ Takes ip.limits.eval 5 (fun n => ip.eval n Prelude.atEnd scope) σ
      (.ok (.bool v.items.isEmpty), τ) := by
  have hfn : Prelude.isNull ∈ Prelude.functions := by simp [Prelude.functions]
  obtain ⟨id, hid⟩ := hs.standard.functions _ hfn
  let τ := σ.inside home Prelude.isNull [v]
  have hτ : τ.Sees σ.frames.size home := hs.standard.sees_inside hfn [v]
  have harg : τ.Denotes σ.frames.size (.name "xs") v := Store.denotes_parameter hs.standard rfl
  have hnil : Takes ip.limits.eval 2
      (fun n => ip.eval n (Prelude.call "=" [.name "xs", .name "Nil"]) σ.frames.size) τ
      (.ok (.bool (v == .nil)), τ) :=
    ip.takes_operation .equal hτ (by decide)
      (.cons harg (.cons (hτ.constant (by simp [constants])) .nil)) fun _ => rfl
  have hempty : Takes ip.limits.eval 2
      (fun n => ip.eval n (Prelude.call "=" [.name "xs", Prelude.emptyList]) σ.frames.size) τ
      (.ok (.bool (v == .list [])), τ) :=
    ip.takes_operation .equal hτ (by decide) (.cons harg (.cons (.quote _) .nil)) fun _ => rfl
  have hbody : Takes ip.limits.eval 3 (fun n => ip.eval n Prelude.isNull.body σ.frames.size) τ
      (.ok (.bool v.items.isEmpty), τ) := by
    rw [Value.isEmpty_items]
    -- the second test is only made if the first one fails, and the deeper of the two counts
    cases hv : v == .nil with
    | true =>
      rw [hv] at hnil
      exact takes_ifElse hnil (ip.takes_denoted (hτ.constant (by simp [constants])))
    | false =>
      rw [hv] at hnil
      exact takes_ifElse hnil hempty
  refine ⟨τ, Store.onlyMakes_inside .., ?_⟩
  exact takes_call (hs.function hfn hid) (.cons hxs .nil) (takes_function hid hbody)

/-- A call of a function on lists begins with this test, in a frame that sees the standard names. -/
theorem takes_entry (ip : Interpreter) (hσ : σ.Standard home) (hfn : fn ∈ Prelude.functions)
    (hxs : (σ.inside home fn vs).Denotes σ.frames.size (.name "xs") v) :
    ∃ τ, (σ.inside home fn vs).OnlyMakes τ ∧ σ.OnlyMakes τ ∧ τ.Sees σ.frames.size home ∧
      Takes ip.limits.eval 5 (fun n => ip.eval n Prelude.atEnd σ.frames.size) (σ.inside home fn vs)
        (.ok (.bool v.items.isEmpty), τ) := by
  have hsees := hσ.sees_inside hfn vs
  obtain ⟨τ, hτ, htest⟩ := ip.takes_atEnd hsees hxs
  exact ⟨τ, hτ, (Store.onlyMakes_inside ..).trans hτ, hsees.mono hτ.toRetains, htest⟩

/-- Where no items are left, the call ends with the value that is known for the empty list. -/
theorem takes_end (ip : Interpreter) {result rest : Expr} {w : Value} (hσ : σ.Standard home)
    (hfn : fn ∈ Prelude.functions) (hid : σ.Provides home fn id)
    (hbody : fn.body = .ifElse Prelude.atEnd result rest)
    (hxs : (σ.inside home fn vs).Denotes σ.frames.size (.name "xs") v) (hitems : v.items = [])
    (hresult : (σ.inside home fn vs).Denotes σ.frames.size result w) :
    ∃ τ, σ.OnlyMakes τ ∧ Takes ip.limits.eval 7 (fun n => ip.applyAt n (.closure id) vs) σ
      (.ok w, τ) := by
  obtain ⟨τ, hτ, hmakes, -, htest⟩ := ip.takes_entry hσ hfn hxs
  rw [hitems] at htest
  refine ⟨τ, hmakes, takes_function hid ?_⟩
  rw [hbody]
  exact takes_ifElse htest (ip.takes_denoted (hresult.mono hτ.toRetains))

end Interpreter

end MiniLisp
