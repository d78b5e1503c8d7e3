import MiniLisp.Proofs.Prelude.Calls
import MiniLisp.Proofs.Value.Comparison

/-!
# Comparisons of the standard unit

`<=` negates `>`, and `>=` negates `<`.  Of values in some order `<=` therefore holds if they are less or
equal, and `>=` if they are greater or equal; values that cannot be compared are refused by the negated
primitive.  Since nothing is greater or less than NaN, both hold of NaN and any number
(`Interpreter.comparisons_agree`).
-/

namespace MiniLisp

open Prelude (Function)

/-! ## Negated primitives -/

namespace Prelude

variable {fn : Function} {op : Operation}

/-- The primitive that a comparison of the standard unit negates. -/
inductive Function.Negates : Function → Operation → Prop where
  | atMost : Negates atMost .greater
  | atLeast : Negates atLeast .less

namespace Function.Negates

theorem mem_functions (h : fn.Negates op) : fn ∈ functions := by
  cases h <;> simp [functions]

theorem parameters_eq (h : fn.Negates op) : fn.parameters = ["a", "b"] := by
  cases h <;> rfl

theorem body_eq (h : fn.Negates op) :
    fn.body = call "not" [call op.name [.name "a", .name "b"]] := by
  cases h <;> rfl

theorem exists_tests (h : fn.Negates op) : ∃ o, op.Tests o := by
  cases h with
  | atMost => exact ⟨_, .greater⟩
  | atLeast => exact ⟨_, .less⟩

theorem compute_of_not_comparable {a b : Value} (h : fn.Negates op) (hab : ¬ a.Comparable b) :
    op.compute [a, b] = .error (.notOrdered op.name a b) := by
  cases h with
  | atMost => exact Operation.compare_of_not_comparable hab
  | atLeast => exact Operation.compare_of_not_comparable hab

end Function.Negates

end Prelude

namespace Interpreter

variable {ip : Interpreter} {k L : Nat} {σ : Store} {scope home : FrameId} {fn : Function}
variable {id : ClosureId} {op : Operation} {o : Ordering} {a b : Value} {e ea eb : Expr}
variable {answer : Except Error Value}

/-- A negated expression fails as the expression does, before it comes to the negation. -/
theorem takes_negated (ip : Interpreter) (hs : σ.Sees scope home)
    (h : Takes ip.limits.eval k (fun n => ip.eval n e scope) σ (answer, σ)) :
    ∃ τ, σ.OnlyMakes τ ∧ ∃ levels ≤ max 3 k + 1,
      Takes ip.limits.eval levels (fun n => ip.eval n (Prelude.call "not" [e]) scope) σ
        (answer.map fun v => .bool !v.isTruthy, τ) := by
  have hfn : Prelude.not ∈ Prelude.functions := by simp [Prelude.functions]
  obtain ⟨id, hid⟩ := hs.standard.functions _ hfn
  have hnot := ip.takes_denoted (hs.function hfn hid)
  cases answer with
  | error fault =>
    have hargs : Takes ip.limits.eval k (fun n => [e].mapM fun arg => ip.eval n arg scope) σ
        (.error fault, σ) := takes_cons_error h
    exact ⟨σ, .refl σ, _, by omega, takes_application_error hnot hargs⟩
  | ok v =>
    have hargs := takes_cons h (ip.takes_nil scope σ)
    have hcall := ip.takes_not hs.standard hid v
    exact ⟨_, Store.onlyMakes_inside .., _, by omega, takes_application hnot hargs hcall⟩

/-- A comparison of the standard unit answers the negation of what the primitive computes. -/
theorem takes_comparison (ip : Interpreter) (hnegates : fn.Negates op) (hσ : σ.Standard home)
    (hid : σ.Provides home fn id) (a b : Value) :
    ∃ τ, σ.OnlyMakes τ ∧ ∃ levels ≤ 5, Takes ip.limits.eval levels
      (fun n => ip.applyAt n (.closure id) [a, b]) σ
      ((op.compute [a, b]).map fun v => .bool !v.isTruthy, τ) := by
  have hsees := hσ.sees_inside hnegates.mem_functions [a, b]
  have ha : (σ.inside home fn [a, b]).Denotes σ.frames.size (.name "a") a := by
    refine Store.denotes_parameter hσ ?_
    rw [hnegates.parameters_eq]
    rfl
  have hb : (σ.inside home fn [a, b]).Denotes σ.frames.size (.name "b") b := by
    refine Store.denotes_parameter hσ ?_
    rw [hnegates.parameters_eq]
    rfl
  obtain ⟨o, htests⟩ := hnegates.exists_tests
  have htest := ip.takes_operation op hsees htests.standard (.cons ha (.cons hb .nil))
    fun stamp => htests.call_eq stamp a b _
  obtain ⟨τ, hτ, levels, hlevels, hbody⟩ := ip.takes_negated hsees htest
  rw [← hnegates.body_eq] at hbody
  exact ⟨τ, (Store.onlyMakes_inside ..).trans hτ, levels + 1, by omega, takes_function hid hbody⟩

/-! ## Calls in programs -/

section

variable (hs : σ.Sees scope home)
variable (hargs : Takes ip.limits.eval k
  (fun n => [ea, eb].mapM fun arg => ip.eval n arg scope) σ (.ok [a, b], σ))

include hs hargs

theorem evaluate_test (hop : op.Tests o) (hlevels : max 1 k < ip.limits.eval) :
    ip.evaluate (Prelude.call op.name [ea, eb]) scope σ = (op.compute [a, b], σ) := by
  obtain ⟨stamp, hcallee⟩ := hs.operation hop.standard
  have hcall := ip.takes_primitive ⟨stamp, op.name, op.arity, op⟩ [a, b] σ
  rw [hop.call_eq] at hcall
  have htakes := takes_application (ip.takes_denoted hcallee) hargs hcall
  exact htakes.ends ip.limits.eval (by omega)

theorem evaluate_comparison (hnegates : fn.Negates op) (hlevels : max 5 k < ip.limits.eval) :
    ∃ τ, σ.OnlyMakes τ ∧ ip.evaluate (Prelude.call fn.name [ea, eb]) scope σ =
      ((op.compute [a, b]).map fun v => .bool !v.isTruthy, τ) := by
  have hfn := hnegates.mem_functions
  obtain ⟨id, hid⟩ := hs.standard.functions fn hfn
  obtain ⟨τ, hτ, levels, hle, hcall⟩ := ip.takes_comparison hnegates hs.standard hid a b
  have htakes := takes_application (ip.takes_denoted (hs.function hfn hid)) hargs hcall
  exact ⟨τ, hτ, htakes.ends ip.limits.eval (by omega)⟩

theorem decides_test (hop : op.Tests o) (h : a.Comparable b) (hlevels : max 1 k < ip.limits.eval) :
    Decides (ip.evaluate (Prelude.call op.name [ea, eb]) scope σ).1 (a.order? b = some o) := by
  rw [evaluate_test hs hargs hop hlevels]
  exact hop.decides h

/-- A negated test holds also where there is no order. -/
theorem decides_comparison (hnegates : fn.Negates op) (hop : op.Tests o) (h : a.Comparable b)
    (hlevels : max 5 k < ip.limits.eval) :
    Decides (ip.evaluate (Prelude.call fn.name [ea, eb]) scope σ).1 (a.order? b ≠ some o) := by
  obtain ⟨τ, -, hrun⟩ := evaluate_comparison hs hargs hnegates hlevels
  rw [hrun]
  exact (hop.decides h).negated

/-- The error names the test and not its negation. -/
theorem refuses_comparison (hnegates : fn.Negates op) (h : ¬ a.Comparable b)
    (hlevels : max 5 k < ip.limits.eval) :
    (ip.evaluate (Prelude.call fn.name [ea, eb]) scope σ).1 = .error (.notOrdered op.name a b) := by
  obtain ⟨τ, -, hrun⟩ := evaluate_comparison hs hargs hnegates hlevels
  rw [hrun, hnegates.compute_of_not_comparable h]
  rfl

end

/-- Where the functions of the standard unit are in sight, comparing two numbers or two strings ends in a
truth value.  Unless a number is NaN, `<=` holds just if `<` or `=` does, and `>=` just if `>` or `=`
does.  If one is NaN, the primitives fail, but `<=` and `>=` hold.  All other pairs are refused. -/
theorem comparisons_agree (ip : Interpreter) (hs : σ.Sees scope home) (ha : σ.Denotes scope ea a)
    (hb : σ.Denotes scope eb b) (hL : 6 ≤ L) :
    let answer := fun name =>
      ((ip.withEvalLimit L).evaluate (Prelude.call name [ea, eb]) scope σ).1
    let holds := fun name => answer name = .ok (.bool true)
    let fails := fun name => answer name = .ok (.bool false)
    (a.Comparable b → ∀ name ∈ ["<", "=", ">", "<=", ">="], holds name ∨ fails name) ∧
    (a.Comparable b → ¬ a.Unordered b →
      (holds "<=" ↔ holds "<" ∨ holds "=") ∧ (holds ">=" ↔ holds ">" ∨ holds "=")) ∧
    (a.Unordered b → (fails "<" ∧ fails "=" ∧ fails ">") ∧ holds "<=" ∧ holds ">=") ∧
    (¬ a.Comparable b →
      answer "<=" = .error (.notOrdered ">" a b) ∧ answer ">=" = .error (.notOrdered "<" a b) ∧
      ∀ callee, (Error.notOrdered callee a b).kind = "TypeMismatch") := by
  intro answer holds fails
  let limited := ip.withEvalLimit L
  -- the two operands are names or literals, so they take at most one level
  obtain ⟨k, hk, hargs⟩ := limited.takes_operands (.cons ha (.cons hb .nil))
  have htest : max 1 k < limited.limits.eval := by
    show max 1 k < L
    omega
  have hcomparison : max 5 k < limited.limits.eval := by
    show max 5 k < L
    omega
  -- each of the five answers says where the order of `a` and `b` lies
  have hless (h : a.Comparable b) : Decides (answer "<") (a.order? b = some .lt) :=
    decides_test hs hargs .less h htest
  have hequal (h : a.Comparable b) : Decides (answer "=") (a.order? b = some .eq) :=
    decides_test hs hargs .equal h htest
  have hgreater (h : a.Comparable b) : Decides (answer ">") (a.order? b = some .gt) :=
    decides_test hs hargs .greater h htest
  have hatMost (h : a.Comparable b) : Decides (answer "<=") (a.order? b ≠ some .gt) :=
    decides_comparison hs hargs .atMost .greater h hcomparison
  have hatLeast (h : a.Comparable b) : Decides (answer ">=") (a.order? b ≠ some .lt) :=
    decides_comparison hs hargs .atLeast .less h hcomparison
  refine ⟨fun h name hname => ?_, fun h hordered => ?_, fun h => ?_, fun h => ?_⟩
  · simp only [List.mem_cons, List.not_mem_nil, or_false] at hname
    rcases hname with rfl | rfl | rfl | rfl | rfl
    exacts [(hless h).truth, (hequal h).truth, (hgreater h).truth, (hatMost h).truth,
      (hatLeast h).truth]
  · -- both sides of each equivalence say which of the three orders there may be
    obtain ⟨o, ho⟩ := Option.ne_none_iff_exists'.mp (mt (Value.order?_eq_none_iff h).mp hordered)
    have hlt : holds "<" ↔ a.order? b = some .lt := (hless h).holds_iff
    have heq : holds "=" ↔ a.order? b = some .eq := (hequal h).holds_iff
    have hgt : holds ">" ↔ a.order? b = some .gt := (hgreater h).holds_iff
    have hle : holds "<=" ↔ a.order? b ≠ some .gt := (hatMost h).holds_iff
    have hge : holds ">=" ↔ a.order? b ≠ some .lt := (hatLeast h).holds_iff
    rw [hle, hge, hlt, heq, hgt, ho]
    cases o <;> simp
  -- without an order the two tests that are negated come out true
  · have hnone : ∀ o, a.order? b ≠ some o := by
      rw [(Value.order?_eq_none_iff h.comparable).mpr h]
      exact nofun
    have hc := h.comparable
    exact ⟨⟨(hless hc).eq_false (hnone _), (hequal hc).eq_false (hnone _),
      (hgreater hc).eq_false (hnone _)⟩, (hatMost hc).holds_iff.mpr (hnone _),
      (hatLeast hc).holds_iff.mpr (hnone _)⟩
  · exact ⟨refuses_comparison hs hargs .atMost h hcomparison,
      refuses_comparison hs hargs .atLeast h hcomparison, fun _ => rfl⟩

/-- A lesser and a greater number, NaN and a number, and a string and a symbol. -/
theorem comparisons_agree_pairs :
    let ip : Interpreter := ⟨⟨3, 8⟩, fun _ => none⟩
    let σ := (ip.loadPrelude Store.rootFrame (Store.root .unlimited)).2
    let nan : Value := .num (0 / 0)
    let answer := fun (v w : Value) name => ((ip.withEvalLimit 6).evaluate
      (Prelude.call name [.quote v, .quote w]) Store.rootFrame σ).1
    σ.Sees Store.rootFrame Store.rootFrame ∧ (∀ v, σ.Denotes Store.rootFrame (.quote v) v) ∧
      (Value.Comparable (.num 1) (.num 2) ∧ ¬ Value.Unordered (.num 1) (.num 2) ∧
        answer (.num 1) (.num 2) "<=" = .ok (.bool true)) ∧
      (nan.Unordered (.num 1) ∧ answer nan (.num 1) "<=" = .ok (.bool true)) ∧
      ¬ Value.Comparable (.str "a") (.sym "b") ∧
      answer (.str "a") (.sym "b") "<=" = .error (.notOrdered ">" (.str "a") (.sym "b")) := by
  intro ip σ nan answer
  have hs : σ.Sees Store.rootFrame Store.rootFrame := sees_root (by decide) (by decide) .unlimited
  have hquote : ∀ v, σ.Denotes Store.rootFrame (.quote v) v := .quote
  have hagree := fun v w => ip.comparisons_agree hs (hquote v) (hquote w) (Nat.le_refl 6)
  have hnumbers : Value.Comparable (.num 1) (.num 2) := .numbers 1 2
  have hordered : ¬ Value.Unordered (.num 1) (.num 2) := by
    rintro (⟨h, -⟩ | ⟨-, h⟩)
    · exact absurd h (by decide)
    · exact absurd h (by decide)
  have hless : answer (.num 1) (.num 2) "<" = .ok (.bool true) := by
    let limited := ip.withEvalLimit 6
    obtain ⟨k, hk, hargs⟩ :=
      limited.takes_operands (.cons (hquote (.num 1)) (.cons (hquote (.num 2)) .nil))
    have hlevels : max 1 k < limited.limits.eval := by
      show max 1 k < 6
      omega
    exact congrArg Prod.fst (evaluate_test hs hargs .less hlevels)
  have hnan : nan.Unordered (.num 1) := .left (by decide) 1
  have hkinds : ¬ Value.Comparable (.str "a") (.sym "b") := nofun
  refine ⟨hs, hquote, ⟨hnumbers, hordered, ?_⟩, ⟨hnan, ?_⟩, hkinds, ?_⟩
  · exact ((hagree (.num 1) (.num 2)).2.1 hnumbers hordered).1.mpr (.inl hless)
  · exact ((hagree nan (.num 1)).2.2.1 hnan).2.1
  · exact ((hagree (.str "a") (.sym "b")).2.2.2 hkinds).1

/-- The quotient of two zeros is NaN.  It is not less than one, equal to it or greater, but both at most
and at least one. -/
theorem comparisons_of_nan :
    let ip : Interpreter := ⟨⟨3, 8⟩, fun _ => none⟩
    let σ := (ip.loadPrelude Store.rootFrame (Store.root .unlimited)).2
    let zeros := Prelude.call "/" [.literal (.num 0), .literal (.num 0)]
    let run := fun L e => ((ip.withEvalLimit L).evaluate e Store.rootFrame σ).1
    let answer := fun L name => run L (Prelude.call name [zeros, .literal (.num 1)])
    ∀ L, 6 ≤ L → (∃ x, run L zeros = .ok (.num x) ∧ x.isNaN = true) ∧
      answer L "<=" = .ok (.bool true) ∧ answer L ">=" = .ok (.bool true) ∧
      answer L "<" = .ok (.bool false) ∧ answer L "=" = .ok (.bool false) ∧
      answer L ">" = .ok (.bool false) ∧
      ¬ (answer L "<=" = .ok (.bool true) ↔
        answer L "<" = .ok (.bool true) ∨ answer L "=" = .ok (.bool true)) := by
  intro ip σ zeros run answer L hL
  -- the store behind the standard unit is taken as one that sees it, and is not evaluated
  have hs : σ.Sees Store.rootFrame Store.rootFrame := sees_root (by decide) (by decide) .unlimited
  let limited := ip.withEvalLimit L
  let nan : Value := .num (0 / 0)
  have hdivide : Operation.divide ∈ Operation.standard := by decide
  have hzeros : Takes L 2 (fun n => limited.eval n zeros Store.rootFrame) σ (.ok nan, σ) :=
    limited.takes_operation .divide hs hdivide (.cons (.literal _) (.cons (.literal _) .nil))
      fun _ => rfl
  have hone : Takes L 1 (fun n => limited.eval n (.literal (.num 1)) Store.rootFrame) σ
      (.ok (.num 1), σ) := limited.takes_denoted (.literal (.num 1))
  have hargs := takes_cons hzeros (takes_cons hone (limited.takes_nil Store.rootFrame σ))
  have hlevels : max 5 (max 2 (max 1 0)) < limited.limits.eval := hL
  obtain ⟨τ, -, hatMost⟩ := evaluate_comparison hs hargs .atMost hlevels
  obtain ⟨υ, -, hatLeast⟩ := evaluate_comparison hs hargs .atLeast hlevels
  have htest : max 1 (max 2 (max 1 0)) < limited.limits.eval := Nat.lt_of_lt_of_le (by decide) hL
  have hle : answer L "<=" = .ok (.bool true) := congrArg Prod.fst hatMost
  have hge : answer L ">=" = .ok (.bool true) := congrArg Prod.fst hatLeast
  have hlt : answer L "<" = .ok (.bool false) := congrArg Prod.fst (evaluate_test hs hargs .less htest)
  have heq : answer L "=" = .ok (.bool false) := congrArg Prod.fst (evaluate_test hs hargs .equal htest)
  have hgt : answer L ">" = .ok (.bool false) :=
    congrArg Prod.fst (evaluate_test hs hargs .greater htest)
  have hnan : run L zeros = .ok nan := congrArg Prod.fst (hzeros.ends L (by omega))
  refine ⟨⟨0 / 0, hnan, by decide⟩, hle, hge, hlt, heq, hgt, fun h => ?_⟩
  rw [hle, hlt, heq] at h
  rcases h.mp rfl with h | h <;> cases h

end Interpreter

end MiniLisp
