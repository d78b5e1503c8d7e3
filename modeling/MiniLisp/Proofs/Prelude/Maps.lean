import MiniLisp.Proofs.Prelude.Calls

/-!
# Maps and filters of the standard unit

`map` and `filter` build their results with `cons`, and `cons` joins two values as lists.  So an answer
that is a list comes to the result as its items, and `Nil` as nothing: the result of `map` is the join of
the answers and that of `filter` the join of the chosen items (`Interpreter.map_and_filter`).  These are
the answers and the items themselves exactly if no list and no `Nil` is among them
(`Value.join_eq_self_iff`).
-/

namespace MiniLisp

/-! ## Chosen items -/

namespace Value

/-- The items with a truthy answer. -/
def chosen : List Value → List Value → List Value
  | x :: xs, y :: ys => if y.isTruthy then x :: chosen xs ys else chosen xs ys
  | _, _ => []

end Value

/-! ## Functions that answer -/

namespace Interpreter

variable {ip : Interpreter} {k : Nat} {f : Value} {σ τ υ : Store} {scope home : FrameId}
variable {id : ClosureId} {post : List Value → Store → Prop} {items : List Value}

/-- Calls of the function on the items in turn, with `k` levels each, end in values and leave the frames
as they are, whatever else was made before each of them.  Then `post` holds of the values and the last
store. -/
def Answers (ip : Interpreter) (k : Nat) (f : Value) :
    List Value → Store → (List Value → Store → Prop) → Prop
  | [], σ, post => ∀ τ, σ.OnlyMakes τ → post [] τ
  | x :: xs, σ, post => ∀ τ, σ.OnlyMakes τ → ∃ y υ,
      (ip.withEvalLimit k).apply f [x] τ = (.ok y, υ) ∧ τ.Retains υ ∧
        ip.Answers k f xs υ fun ys => post (y :: ys)

/-- The function answers the item with `k` levels from now on, without any effect. -/
def AnswersPurely (ip : Interpreter) (k : Nat) (f : Value) (σ : Store) (x : Value) : Prop :=
  ∀ τ, σ.OnlyMakes τ →
    ∃ y υ, (ip.withEvalLimit k).apply f [x] τ = (.ok y, υ) ∧ τ.OnlyMakes υ

/-- An answer of the function to the item, now or later. -/
def MayAnswer (ip : Interpreter) (k : Nat) (f : Value) (σ : Store) (x y : Value) : Prop :=
  ∃ τ υ, σ.OnlyMakes τ ∧ (ip.withEvalLimit k).apply f [x] τ = (.ok y, υ)

theorem Answers.mono {post' : List Value → Store → Prop} (h : ip.Answers k f items σ post)
    (hpost : ∀ ys τ, post ys τ → post' ys τ) : ip.Answers k f items σ post' := by
  induction items generalizing σ post post' with
  | nil => exact fun τ hτ => hpost [] τ (h τ hτ)
  | cons x items ih =>
    intro τ hτ
    obtain ⟨y, υ, hcall, hυ, hrest⟩ := h τ hτ
    exact ⟨y, υ, hcall, hυ, ih hrest fun ys ω => hpost (y :: ys) ω⟩

/-- The answers do not depend on the limit, since each call has its own. -/
theorem Answers.withEvalLimit (h : ip.Answers k f items σ post) (limit : Nat) :
    (ip.withEvalLimit limit).Answers k f items σ post := by
  induction items generalizing σ post with
  | nil => exact h
  | cons x items ih =>
    intro τ hτ
    obtain ⟨y, υ, hcall, hυ, hrest⟩ := h τ hτ
    exact ⟨y, υ, hcall, hυ, ih hrest⟩

theorem answers_of_pure (h : ∀ x ∈ items, ip.AnswersPurely k f σ x) (hσ : σ.OnlyMakes τ) :
    ip.Answers k f items τ fun ys υ =>
      List.Forall₂ (ip.MayAnswer k f σ) items ys ∧ σ.OnlyMakes υ := by
  induction items generalizing τ with
  | nil => exact fun υ hυ => ⟨.nil, hσ.trans hυ⟩
  | cons x items ih =>
    intro υ hυ
    obtain ⟨hx, hitems⟩ := List.forall_mem_cons.mp h
    obtain ⟨y, ω, hcall, hω⟩ := hx υ (hσ.trans hυ)
    refine ⟨y, ω, hcall, hω.toRetains, (ih hitems ((hσ.trans hυ).trans hω)).mono ?_⟩
    rintro ys ω' ⟨hys, hω'⟩
    exact ⟨.cons ⟨υ, ω, hσ.trans hυ, hcall⟩ hys, hω'⟩

/-- A primitive that succeeds on one item after the other answers them, and writes what it writes
then. -/
theorem answers_of_primitive (ip : Interpreter) {p : Primitive} {ys : List Value}
    (h : items.mapM (fun x => p.call [x]) σ = (.ok ys, υ)) (hσ : σ.OnlyMakes τ) :
    ip.Answers 0 (.primitive p) items τ fun ys' ω => ys' = ys ∧ υ.OnlyMakes ω := by
  induction items generalizing σ τ ys with
  | nil =>
    cases h
    exact fun ω hω => ⟨rfl, hσ.trans hω⟩
  | cons x items ih =>
    rw [List.mapM_cons] at h
    obtain ⟨y, σ', hfirst, h⟩ := Action.exists_of_bind_ok h
    obtain ⟨ys', υ', hrest, h⟩ := Action.exists_of_bind_ok h
    cases h
    intro ω hω
    obtain ⟨hresult, hstore⟩ := p.call_onlyMakes (hσ.trans hω) [x]
    rw [hfirst] at hresult hstore
    have hcall : p.call [x] ω = (.ok y, (p.call [x] ω).2) := Prod.ext hresult rfl
    refine ⟨y, _, hcall, p.call_retains [x] ω, (ih hrest hstore).mono ?_⟩
    rintro ys τ' ⟨rfl, hτ'⟩
    exact ⟨rfl, hτ'⟩

/-! ## Levels of maps and filters -/

/-- Joining a value and a list. -/
theorem takes_construct {first rest : Expr} {v : Value} {vs : List Value} {i j : Nat}
    (hs : σ.Sees scope home)
    (hfirst : Takes ip.limits.eval i (fun n => ip.eval n first scope) σ (.ok v, τ))
    (hrest : Takes ip.limits.eval j (fun n => ip.eval n rest scope) τ (.ok (.list vs), υ)) :
    Takes ip.limits.eval (max 1 (max i j) + 1)
      (fun n => ip.eval n (Prelude.call "cons" [first, rest]) scope) σ
      (.ok (.list (v.items ++ vs)), υ) := by
  have hcons : Operation.cons ∈ Operation.standard := by decide
  obtain ⟨stamp, hcallee⟩ := hs.operation hcons
  have hargs := takes_cons hfirst (takes_cons hrest (ip.takes_nil scope υ))
  have hjoined := ip.takes_primitive ⟨stamp, Operation.cons.name, Operation.cons.arity, .cons⟩
    [v, .list vs] υ
  exact (takes_application (ip.takes_denoted hcallee) hargs hjoined).of_eq (by omega)

/-- The function calls itself on the rest of the list. -/
theorem takes_again {fn : Prelude.Function} {name : String} {xs : Value} {j : Nat}
    {outcome : Except Error Value × Store} (hs : σ.Sees scope home) (hfn : fn ∈ Prelude.functions)
    (hid : σ.Provides home fn id) (hf : σ.Denotes scope (.name name) f)
    (hxs : σ.Denotes scope (.name "xs") xs)
    (hcall : Takes ip.limits.eval j (fun n => ip.applyAt n (.closure id) [f, xs.cdr]) σ outcome) :
    Takes ip.limits.eval (max 2 j + 1)
      (fun n => ip.eval n (Prelude.call fn.name [.name name, Prelude.rest]) scope) σ outcome := by
  have hargs := takes_cons (ip.takes_denoted hf)
    (takes_cons (ip.takes_rest hs hxs) (ip.takes_nil scope σ))
  exact (takes_application (ip.takes_denoted (hs.function hfn hid)) hargs hcall).of_eq (by omega)

/-- How a call of `map` or `filter` begins that has an item left: this is not the end, and the function
that was given answers the item. -/
theorem takes_item {fn : Prelude.Function} {name : String} {x xs : Value} (hσ : σ.Standard home)
    (hfn : fn ∈ Prelude.functions) (hparameters : fn.parameters = [name, "xs"]) (hname : name ≠ "xs")
    (hitems : xs.items = x :: items) (hf : ip.Answers k f (x :: items) σ post) :
    ∃ y τ υ, Takes ip.limits.eval 5 (fun n => ip.eval n Prelude.atEnd σ.frames.size)
        (σ.inside home fn [f, xs]) (.ok (.bool false), τ) ∧
      (∃ levels ≤ k + 3, Takes ip.limits.eval levels
        (fun n => ip.eval n (Prelude.call name [Prelude.first]) σ.frames.size) τ (.ok y, υ)) ∧
      τ.Sees σ.frames.size home ∧ τ.Retains υ ∧ σ.Retains υ ∧
      υ.Denotes σ.frames.size (.name name) f ∧ υ.Denotes σ.frames.size (.name "xs") xs ∧
      ip.Answers k f items υ fun ys => post (y :: ys) := by
  have hgiven : (σ.inside home fn [f, xs]).Denotes σ.frames.size (.name name) f := by
    refine Store.denotes_parameter hσ ?_
    rw [hparameters]
    simp [bindArguments, List.lookup_cons, beq_eq_false_iff_ne.mpr hname]
  have hxs : (σ.inside home fn [f, xs]).Denotes σ.frames.size (.name "xs") xs := by
    refine Store.denotes_parameter hσ ?_
    rw [hparameters]
    rfl
  obtain ⟨τ, hτ, hmakes, hsees, htest⟩ := ip.takes_entry hσ hfn hxs
  rw [hitems] at htest
  -- the function is asked in the store behind the test, which has only made frames
  obtain ⟨y, υ, hcall, hυ, hrest⟩ := hf τ hmakes
  obtain ⟨levels, hlevels, happly⟩ := exists_takes_applyAt hcall
  have hfirst := ip.takes_first hsees (hxs.mono hτ.toRetains)
  rw [Value.car_of_items hitems] at hfirst
  have hanswer := takes_application (ip.takes_denoted (hgiven.mono hτ.toRetains))
    (takes_cons hfirst (ip.takes_nil _ τ)) happly
  have hlater := hτ.toRetains.trans hυ
  exact ⟨y, τ, υ, htest, ⟨_, by omega, hanswer⟩, hsees, hυ, hmakes.toRetains.trans hυ,
    hgiven.mono hlater, hxs.mono hlater, hrest⟩

/-- The answers are joined from the last one to the first. -/
theorem takes_map {xs : Value} (hσ : σ.Standard home) (hid : σ.Provides home Prelude.map id)
    (hitems : xs.items = items) (hf : ip.Answers k f items σ post) :
    ∃ ys τ, post ys τ ∧ ∃ levels ≤ 4 * items.length + k + 7, Takes ip.limits.eval levels
      (fun n => ip.applyAt n (.closure id) [f, xs]) σ (.ok (.list (Value.join ys)), τ) := by
  have hfn : Prelude.map ∈ Prelude.functions := by simp [Prelude.functions]
  -- `post` is free too: what is owed behind an item is owed of the items behind it
  induction items generalizing xs σ post with
  | nil =>
    have hxs : (σ.inside home Prelude.map [f, xs]).Denotes σ.frames.size (.name "xs") xs :=
      Store.denotes_parameter hσ rfl
    obtain ⟨τ, hτ, hcall⟩ := ip.takes_end hσ hfn hid rfl hxs hitems (.quote _)
    exact ⟨[], τ, hf τ hτ, 7, by omega, hcall⟩
  | cons x items ih =>
    obtain ⟨y, τ, υ, htest, ⟨i, hi, hanswer⟩, hsees, hυ, hlater, hname, hxs, hrest⟩ :=
      takes_item hσ hfn rfl (by decide) hitems hf
    obtain ⟨ys, ω, hpost, j, hj, hcall⟩ :=
      ih (hσ.mono hlater) (hid.mono hlater) (Value.items_cdr_of_items hitems) hrest
    have hagain := takes_again (hsees.mono hυ) hfn (hid.mono hlater) hname hxs hcall
    obtain ⟨levels, hlevels, hbody⟩ : ∃ levels ≤ 4 * items.length + k + 10,
        Takes ip.limits.eval levels (fun n => ip.eval n Prelude.map.body σ.frames.size)
          (σ.inside home Prelude.map [f, xs]) (.ok (.list (Value.join (y :: ys))), ω) :=
      ⟨_, by omega, takes_ifElse htest (takes_construct hsees hanswer hagain)⟩
    refine ⟨y :: ys, ω, hpost, levels + 1, ?_, takes_function hid hbody⟩
    rw [List.length_cons]
    omega

theorem takes_filter {xs : Value} (hσ : σ.Standard home) (hid : σ.Provides home Prelude.filter id)
    (hitems : xs.items = items) (hf : ip.Answers k f items σ post) :
    ∃ ys τ, post ys τ ∧ ∃ levels ≤ 5 * items.length + k + 7, Takes ip.limits.eval levels
      (fun n => ip.applyAt n (.closure id) [f, xs]) σ
      (.ok (.list (Value.join (Value.chosen items ys))), τ) := by
  have hfn : Prelude.filter ∈ Prelude.functions := by simp [Prelude.functions]
  induction items generalizing xs σ post with
  | nil =>
    have hxs : (σ.inside home Prelude.filter [f, xs]).Denotes σ.frames.size (.name "xs") xs :=
      Store.denotes_parameter hσ rfl
    obtain ⟨τ, hτ, hcall⟩ := ip.takes_end hσ hfn hid rfl hxs hitems (.quote _)
    exact ⟨[], τ, hf τ hτ, 7, by omega, hcall⟩
  | cons x items ih =>
    obtain ⟨y, τ, υ, htest, ⟨i, hi, hanswer⟩, hsees, hυ, hlater, hname, hxs, hrest⟩ :=
      takes_item hσ hfn rfl (by decide) hitems hf
    obtain ⟨ys, ω, hpost, j, hj, hcall⟩ :=
      ih (hσ.mono hlater) (hid.mono hlater) (Value.items_cdr_of_items hitems) hrest
    have hagain := takes_again (hsees.mono hυ) hfn (hid.mono hlater) hname hxs hcall
    have hfirst := ip.takes_first (hsees.mono hυ) hxs
    rw [Value.car_of_items hitems] at hfirst
    -- both branches filter the rest, and one of them puts the item in front
    obtain ⟨l, hl, hbranch⟩ : ∃ levels ≤ 5 * items.length + k + 9, Takes ip.limits.eval levels
        (fun n => ip.eval n (if y.isTruthy
          then Prelude.call "cons" [Prelude.first, Prelude.call "filter" [.name "keep?", Prelude.rest]]
          else Prelude.call "filter" [.name "keep?", Prelude.rest]) σ.frames.size) υ
        (.ok (.list (Value.join (Value.chosen (x :: items) (y :: ys)))), ω) := by
      rw [Value.chosen]
      cases hy : y.isTruthy with
      | false => exact ⟨_, by omega, hagain⟩
      | true => exact ⟨_, by omega, takes_construct (hsees.mono hυ) hfirst hagain⟩
    obtain ⟨levels, hlevels, hbody⟩ : ∃ levels ≤ 5 * items.length + k + 11,
        Takes ip.limits.eval levels (fun n => ip.eval n Prelude.filter.body σ.frames.size)
          (σ.inside home Prelude.filter [f, xs])
          (.ok (.list (Value.join (Value.chosen (x :: items) (y :: ys)))), ω) :=
      ⟨_, by omega, takes_ifElse htest (takes_ifElse hanswer hbranch)⟩
    refine ⟨y :: ys, ω, hpost, levels + 1, ?_, takes_function hid hbody⟩
    rw [List.length_cons]
    omega

/-! ## Calls in programs -/

section

variable {ef ex : Expr} {xs : Value}

theorem evaluate_map (hs : σ.Sees scope home) (hf : σ.Denotes scope ef f) (hxs : σ.Denotes scope ex xs)
    (h : ip.Answers k f xs.items σ post) :
    ∃ ys τ, post ys τ ∧ ∀ L, 4 * xs.items.length + k + 8 ≤ L →
      (ip.withEvalLimit L).evaluate (Prelude.call "map" [ef, ex]) scope σ =
        (.ok (.list (Value.join ys)), τ) := by
  have hfn : Prelude.map ∈ Prelude.functions := by simp [Prelude.functions]
  obtain ⟨id, hid⟩ := hs.standard.functions _ hfn
  let least := 4 * xs.items.length + k + 8
  obtain ⟨ys, τ, hpost, levels, hlevels, hcall⟩ :=
    takes_map hs.standard hid rfl (h.withEvalLimit least)
  have htakes := takes_call (hs.function hfn hid) (.cons hf (.cons hxs .nil)) hcall
  exact ⟨ys, τ, hpost, fun L hL => evaluate_of_le hL (htakes.ends least (by omega))⟩

theorem evaluate_filter (hs : σ.Sees scope home) (hf : σ.Denotes scope ef f)
    (hxs : σ.Denotes scope ex xs) (h : ip.Answers k f xs.items σ post) :
    ∃ ys τ, post ys τ ∧ ∀ L, 5 * xs.items.length + k + 8 ≤ L →
      (ip.withEvalLimit L).evaluate (Prelude.call "filter" [ef, ex]) scope σ =
        (.ok (.list (Value.join (Value.chosen xs.items ys))), τ) := by
  have hfn : Prelude.filter ∈ Prelude.functions := by simp [Prelude.functions]
  obtain ⟨id, hid⟩ := hs.standard.functions _ hfn
  let least := 5 * xs.items.length + k + 8
  obtain ⟨ys, τ, hpost, levels, hlevels, hcall⟩ :=
    takes_filter hs.standard hid rfl (h.withEvalLimit least)
  have htakes := takes_call (hs.function hfn hid) (.cons hf (.cons hxs .nil)) hcall
  exact ⟨ys, τ, hpost, fun L hL => evaluate_of_le hL (htakes.ends least (by omega))⟩

end

/-- Where the functions of the standard unit are in sight, `map` joins the answers of a function to the
items, and `filter` joins the items with a truthy answer, both from the first item to the last.  The
function is a primitive that succeeds on one item after the other, or any function that answers every
item without effect.  Joined values are these values exactly if none of them is a list or `Nil`. -/
theorem map_and_filter (ip : Interpreter) (hs : σ.Sees scope home) {ef ex : Expr} {xs : Value}
    (hf : σ.Denotes scope ef f) (hxs : σ.Denotes scope ex xs) :
    let n := xs.items.length
    let mapped := fun L => (ip.withEvalLimit L).evaluate (Prelude.call "map" [ef, ex]) scope σ
    let filtered := fun L => (ip.withEvalLimit L).evaluate (Prelude.call "filter" [ef, ex]) scope σ
    (∀ p ys υ, f = .primitive p → xs.items.mapM (fun x => p.call [x]) σ = (.ok ys, υ) →
      (∃ τ, υ.OnlyMakes τ ∧ ∀ L, 4 * n + 8 ≤ L → mapped L = (.ok (.list (Value.join ys)), τ)) ∧
      ∃ τ, υ.OnlyMakes τ ∧ ∀ L, 5 * n + 8 ≤ L →
        filtered L = (.ok (.list (Value.join (Value.chosen xs.items ys))), τ)) ∧
    (∀ k, (∀ x ∈ xs.items, ip.AnswersPurely k f σ x) →
      (∃ ys τ, List.Forall₂ (ip.MayAnswer k f σ) xs.items ys ∧ σ.OnlyMakes τ ∧
        ∀ L, 4 * n + k + 8 ≤ L → mapped L = (.ok (.list (Value.join ys)), τ)) ∧
      ∃ ys τ, List.Forall₂ (ip.MayAnswer k f σ) xs.items ys ∧ σ.OnlyMakes τ ∧
        ∀ L, 5 * n + k + 8 ≤ L →
          filtered L = (.ok (.list (Value.join (Value.chosen xs.items ys))), τ)) ∧
    ∀ vs, Value.join vs = vs ↔ ∀ v ∈ vs, v ≠ .nil ∧ ∀ ws, v ≠ .list ws := by
  intro n mapped filtered
  refine ⟨?_, ?_, fun vs => Value.join_eq_self_iff⟩
  · rintro p ys υ rfl hcalls
    have hanswers := ip.answers_of_primitive hcalls (.refl σ)
    constructor
    · obtain ⟨_, τ, ⟨rfl, hτ⟩, hmapped⟩ := evaluate_map hs hf hxs hanswers
      exact ⟨τ, hτ, hmapped⟩
    · obtain ⟨_, τ, ⟨rfl, hτ⟩, hfiltered⟩ := evaluate_filter hs hf hxs hanswers
      exact ⟨τ, hτ, hfiltered⟩
  · intro k hpure
    have hanswers := answers_of_pure hpure (.refl σ)
    constructor
    · obtain ⟨ys, τ, ⟨hys, hτ⟩, hmapped⟩ := evaluate_map hs hf hxs hanswers
      exact ⟨ys, τ, hys, hτ, hmapped⟩
    · obtain ⟨ys, τ, ⟨hys, hτ⟩, hfiltered⟩ := evaluate_filter hs hf hxs hanswers
      exact ⟨ys, τ, hys, hτ, hfiltered⟩

/-- Negation mapped over two truth values, and the one that it keeps. -/
theorem map_and_filter_not :
    let ip : Interpreter := ⟨⟨3, 8⟩, fun _ => none⟩
    let σ := (ip.loadPrelude Store.rootFrame (Store.root .unlimited)).2
    let pair : Value := .list [.bool true, .bool false]
    let run := fun (name : String) L => ((ip.withEvalLimit L).evaluate
      (Prelude.call name [.name "not", .quote pair]) Store.rootFrame σ).1
    σ.Sees Store.rootFrame Store.rootFrame ∧ σ.Denotes Store.rootFrame (.quote pair) pair ∧
      (∃ id, σ.Denotes Store.rootFrame (.name "not") (.closure id) ∧
        ∀ x ∈ pair.items, ip.AnswersPurely 3 (.closure id) σ x) ∧
      (∀ L, 19 ≤ L → run "map" L = .ok (.list [.bool false, .bool true])) ∧
      ∀ L, 21 ≤ L → run "filter" L = .ok (.list [.bool false]) := by
  intro ip σ pair run
  have hs : σ.Sees Store.rootFrame Store.rootFrame := sees_root (by decide) (by decide) .unlimited
  have hfn : Prelude.not ∈ Prelude.functions := by simp [Prelude.functions]
  obtain ⟨id, hid⟩ := hs.standard.functions _ hfn
  have hf : σ.Denotes Store.rootFrame (.name "not") (.closure id) := hs.function hfn hid
  have hcall : ∀ τ, σ.OnlyMakes τ → ∀ x, (ip.withEvalLimit 3).apply (.closure id) [x] τ =
      (.ok (.bool !x.isTruthy), τ.inside Store.rootFrame Prelude.not [x]) := by
    intro τ hτ x
    have htakes := (ip.withEvalLimit 3).takes_not (hs.standard.mono hτ.toRetains)
      (hid.mono hτ.toRetains) x
    exact htakes.ends 3 (Nat.le_refl 3)
  have hpure : ∀ x ∈ pair.items, ip.AnswersPurely 3 (.closure id) σ x :=
    fun x _ τ hτ => ⟨_, _, hcall τ hτ x, Store.onlyMakes_inside ..⟩
  -- an answer is one from some later store, but that of `not` is the same in all of them
  have hunique : ∀ ys, List.Forall₂ (ip.MayAnswer 3 (.closure id) σ) pair.items ys →
      ys = [.bool false, .bool true] := by
    intro ys hys
    obtain _ | ⟨⟨τ, υ, hτ, hfirst⟩, _ | ⟨⟨τ', υ', hτ', hsecond⟩, _ | _⟩⟩ := hys
    rw [hcall τ hτ] at hfirst
    rw [hcall τ' hτ'] at hsecond
    cases hfirst
    cases hsecond
    rfl
  obtain ⟨⟨ys, τ, hys, -, hmapped⟩, ys', τ', hys', -, hfiltered⟩ :=
    (ip.map_and_filter hs hf (.quote pair)).2.1 3 hpure
  obtain rfl := hunique ys hys
  obtain rfl := hunique ys' hys'
  refine ⟨hs, .quote pair, ⟨id, hf, hpure⟩, fun L hL => ?_, fun L hL => ?_⟩
  · exact congrArg Prod.fst (hmapped L hL)
  · exact congrArg Prod.fst (hfiltered L hL)

/-- Mapping and filtering lists of lists.  What `cdr` makes of the second list does not come to the
result, and the lists that `filter` chooses do not come as lists. -/
theorem map_and_filter_of_lists :
    let ip : Interpreter := ⟨⟨3, 8⟩, fun _ => none⟩
    let σ := (ip.loadPrelude Store.rootFrame (Store.root .unlimited)).2
    let lists : List Value := [.list [.sym "a", .sym "b"], .list [.sym "c"]]
    let run := fun (name given : String) L => ((ip.withEvalLimit L).evaluate
      (Prelude.call name [.name given, .quote (.list lists)]) Store.rootFrame σ).1
    σ.Sees Store.rootFrame Store.rootFrame ∧
      (∃ stamp, let p : Primitive := ⟨stamp, "cdr", .exact 1, .cdr⟩
        σ.Denotes Store.rootFrame (.name "cdr") (.primitive p) ∧
        lists.mapM (fun x => p.call [x]) σ = (.ok [.list [.sym "b"], .list []], σ)) ∧
      (∀ L, 16 ≤ L → run "map" "cdr" L = .ok (.list [.sym "b"]) ∧
        run "map" "cdr" L ≠ .ok (.list [.list [.sym "b"], .list []])) ∧
      (∃ stamp, let p : Primitive := ⟨stamp, "car", .exact 1, .car⟩
        σ.Denotes Store.rootFrame (.name "car") (.primitive p) ∧
        lists.mapM (fun x => p.call [x]) σ = (.ok [.sym "a", .sym "c"], σ)) ∧
      ∀ L, 18 ≤ L → run "filter" "car" L = .ok (.list [.sym "a", .sym "b", .sym "c"]) ∧
        run "filter" "car" L ≠ .ok (.list lists) := by
  intro ip σ lists run
  have hs : σ.Sees Store.rootFrame Store.rootFrame := sees_root (by decide) (by decide) .unlimited
  have hcdr : Operation.cdr ∈ Operation.standard := by decide
  have hcar : Operation.car ∈ Operation.standard := by decide
  obtain ⟨i, hi⟩ := hs.operation hcdr
  obtain ⟨j, hj⟩ := hs.operation hcar
  have hrests : lists.mapM (fun x => Primitive.call ⟨i, "cdr", .exact 1, .cdr⟩ [x]) σ =
      (.ok [.list [.sym "b"], .list []], σ) := rfl
  have hfirsts : lists.mapM (fun x => Primitive.call ⟨j, "car", .exact 1, .car⟩ [x]) σ =
      (.ok [.sym "a", .sym "c"], σ) := rfl
  obtain ⟨_, τ, ⟨rfl, -⟩, hmapped⟩ :=
    evaluate_map hs hi (.quote (.list lists)) (ip.answers_of_primitive hrests (.refl σ))
  obtain ⟨_, τ', ⟨rfl, -⟩, hfiltered⟩ :=
    evaluate_filter hs hj (.quote (.list lists)) (ip.answers_of_primitive hfirsts (.refl σ))
  refine ⟨hs, ⟨i, hi, hrests⟩, fun L hL => ?_, ⟨j, hj, hfirsts⟩, fun L hL => ?_⟩
  · have hresult : run "map" "cdr" L = .ok (.list [.sym "b"]) := congrArg Prod.fst (hmapped L hL)
    rw [hresult]
    exact ⟨rfl, nofun⟩
  · have hresult : run "filter" "car" L = .ok (.list [.sym "a", .sym "b", .sym "c"]) :=
      congrArg Prod.fst (hfiltered L hL)
    rw [hresult]
    refine ⟨rfl, fun h => ?_⟩
    have hlength := congrArg List.length (Value.list.inj (Except.ok.inj h))
    exact absurd hlength (show 3 ≠ 2 by decide)

end Interpreter

end MiniLisp
