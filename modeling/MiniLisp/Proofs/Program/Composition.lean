import Mathlib.Data.List.Induction
import Mathlib.Tactic.ByContra
import MiniLisp.Proofs.Eval.Invariant
import MiniLisp.Proofs.Reader.OnePass

/-!
# Programs in pieces

A program is read and analysed as a whole before any of it is evaluated.  So a program that is cut
between two forms does what its two parts do one after the other, and a rejected program has no effect
at all.  Loading a unit does what running its first form does, whatever is read behind it.
-/

namespace MiniLisp

/-! ## Analysis of several forms -/

namespace Expr

variable {d : Datum} {before after ds ds' : List Datum} {es es' : List Expr} {e : Error}

theorem ofData_append (h : ofData ds = .ok es) (h' : ofData ds' = .ok es') :
    ofData (ds ++ ds') = .ok (es ++ es') := by
  induction ds generalizing es with
  | nil =>
    obtain rfl := Except.ok.inj h
    exact h'
  | cons d ds ih =>
    obtain ⟨x, xs, hd, hds, rfl⟩ := ofData_cons h
    rw [List.cons_append, ofData, hd, ih hds]
    rfl

theorem ofData_eq_ok (h : ∀ d ∈ ds, ∃ x, ofDatum d = .ok x) : ∃ es, ofData ds = .ok es := by
  induction ds with
  | nil => exact ⟨[], rfl⟩
  | cons d ds ih =>
    obtain ⟨x, hx⟩ := h d List.mem_cons_self
    obtain ⟨xs, hxs⟩ := ih fun d' hd' => h d' (List.mem_cons_of_mem d hd')
    exact ⟨x :: xs, by rw [ofData, hx, hxs]; rfl⟩

/-- The first form that cannot be analysed decides. -/
theorem ofData_eq_error (hbefore : ∀ d' ∈ before, ∃ x, ofDatum d' = .ok x)
    (hd : ofDatum d = .error e) : ofData (before ++ d :: after) = .error e := by
  induction before with
  | nil =>
    rw [List.nil_append, ofData, hd]
    rfl
  | cons d' before ih =>
    obtain ⟨x, hx⟩ := hbefore d' List.mem_cons_self
    have hrest : ∀ d'' ∈ before, ∃ x, ofDatum d'' = .ok x :=
      fun d'' hmem => hbefore d'' (List.mem_cons_of_mem d' hmem)
    rw [List.cons_append, ofData, hx, ih hrest]
    rfl

/-- Among forms of which one cannot be analysed there is a first such form. -/
theorem exists_first_error (h : ∃ d ∈ ds, ∃ e, ofDatum d = .error e) :
    ∃ before d after e, ds = before ++ d :: after ∧
      (∀ d' ∈ before, ∃ x, ofDatum d' = .ok x) ∧ ofDatum d = .error e := by
  induction ds with
  | nil =>
    obtain ⟨d, hmem, _⟩ := h
    cases hmem
  | cons d ds ih =>
    cases hd : ofDatum d with
    | error e => exact ⟨[], d, ds, e, rfl, fun _ => nofun, hd⟩
    | ok x =>
      have hlater : ∃ d' ∈ ds, ∃ e, ofDatum d' = .error e := by
        obtain ⟨d', hmem, e, he⟩ := h
        rcases List.mem_cons.mp hmem with rfl | hmem
        · rw [hd] at he
          cases he
        · exact ⟨d', hmem, e, he⟩
      obtain ⟨before, d', after, e, rfl, hbefore, he⟩ := ih hlater
      exact ⟨d :: before, d', after, e, rfl, List.forall_mem_cons.mpr ⟨⟨x, hd⟩, hbefore⟩, he⟩

/-- The error of several forms is that of the first one that cannot be analysed. -/
theorem exists_of_ofData_eq_error (h : ofData ds = .error e) :
    ∃ before d after, ds = before ++ d :: after ∧
      (∀ d' ∈ before, ∃ x, ofDatum d' = .ok x) ∧ ofDatum d = .error e := by
  have hfails : ∃ d ∈ ds, ∃ e, ofDatum d = .error e := by
    by_contra hnone
    obtain ⟨es, hes⟩ := ofData_eq_ok fun d hd => by
      cases hx : ofDatum d with
      | ok x => exact ⟨x, rfl⟩
      | error e => exact absurd ⟨d, hd, e, hx⟩ hnone
    rw [hes] at h
    cases h
  obtain ⟨before, d, after, first, rfl, hbefore, hd⟩ := exists_first_error hfails
  -- analysis ends at the first error, so the two errors are one
  obtain rfl : first = e := Except.error.inj ((ofData_eq_error hbefore hd).symm.trans h)
  exact ⟨before, d, after, rfl, hbefore, hd⟩

end Expr

namespace Interpreter

variable {ip : Interpreter} {text rest gap : String} {form : Datum} {forms forms' : List Datum}
variable {es fs : List Expr} {scope : FrameId} {σ : Store} {e : Error}

theorem analyze_eq_ok (hread : ip.read text = .ok forms) :
    ip.analyze text = Expr.ofData forms := by
  rw [analyze, hread]
  rfl

/-- A text that is analysed is read. -/
theorem exists_forms_of_analyze (h : ip.analyze text = .ok es) :
    ∃ forms, ip.read text = .ok forms ∧ Expr.ofData forms = .ok es := by
  rw [analyze] at h
  exact Expr.ok_of_bind h

/-- The expressions of a text are those of its forms. -/
theorem exists_of_mem_analyze (h : ip.analyze text = .ok es) :
    ∃ forms, ip.read text = .ok forms ∧ ∀ e ∈ es, ∃ d ∈ forms, Expr.ofDatum d = .ok e := by
  obtain ⟨forms, hread, hes⟩ := exists_forms_of_analyze h
  exact ⟨forms, hread, Expr.exists_of_mem_ofData hes⟩

theorem analyze_append (h : ip.analyze text = .ok es) (hgap : Datum.IsGap gap.toList)
    (h' : ip.analyze rest = .ok fs) : ip.analyze (text ++ gap ++ rest) = .ok (es ++ fs) := by
  obtain ⟨forms, hread, hes⟩ := exists_forms_of_analyze h
  obtain ⟨forms', hread', hfs⟩ := exists_forms_of_analyze h'
  rw [analyze_eq_ok (read_append hread hgap hread')]
  exact Expr.ofData_append hes hfs

/-! ## Running -/

theorem run_of_analyze_ok (h : ip.analyze text = .ok es) :
    ip.run text scope = ip.evaluateAll es scope := by
  rw [run, h]
  rfl

/-- A program that cannot be analysed is an error without effects. -/
theorem run_of_analyze_error (h : ip.analyze text = .error e) :
    ip.run text scope σ = (.error e, σ) := by
  rw [run, h]
  rfl

theorem evaluateAll_singleton (x : Expr) : ip.evaluateAll [x] scope = ip.evaluate x scope := by
  rw [evaluateAll, List.foldlM_cons]
  simp only [List.foldlM_nil, bind_pure]

/-- Evaluation in order, cut in two: the value of the first part is forgotten if there is more. -/
theorem evaluateAll_append (hfs : fs ≠ []) :
    ip.evaluateAll (es ++ fs) scope =
      (ip.evaluateAll es scope >>= fun _ => ip.evaluateAll fs scope) := by
  obtain ⟨f, fs, rfl⟩ := List.exists_cons_of_ne_nil hfs
  simp only [evaluateAll, List.foldlM_append, List.foldlM_cons]

/-- Evaluation in order fails at an expression behind which nothing is evaluated. -/
theorem evaluateAll_eq_error_iff {τ : Store} :
    ip.evaluateAll es scope σ = (.error e, τ) ↔
      ∃ before x after v ρ, es = before ++ x :: after ∧ ip.evaluateAll before scope σ = (.ok v, ρ) ∧
        ip.evaluate x scope ρ = (.error e, τ) := by
  constructor
  · intro h
    -- from the end, as evaluation goes on until the first error
    induction es using List.reverseRecOn with
    | nil => cases h
    | append_singleton es x ih =>
      rw [evaluateAll_append (List.cons_ne_nil x []), Action.bind_apply] at h
      rcases hes : ip.evaluateAll es scope σ with ⟨result, ρ⟩
      rw [hes] at h
      cases result with
      | ok v =>
        rw [evaluateAll_singleton] at h
        exact ⟨es, x, [], v, ρ, rfl, hes, h⟩
      | error e' =>
        obtain ⟨before, x', after, v, ρ', rfl, hbefore, hx⟩ := ih (hes.trans h)
        exact ⟨before, x', after ++ [x], v, ρ', by simp, hbefore, hx⟩
  · rintro ⟨before, x, after, v, ρ, rfl, hbefore, hx⟩
    rw [evaluateAll_append (List.cons_ne_nil x after), Action.bind_apply, hbefore]
    simp only [evaluateAll, List.foldlM_cons, Action.bind_apply, hx]

/-- Running is sequential composition: two programs with separators between them do what the first one
does and then, if it ends in a value, what the second one does in the store that the first one left. -/
theorem run_append (ha : ip.analyze text = .ok es) (hb : ip.analyze rest = .ok fs) (hfs : fs ≠ [])
    (hgap : Datum.IsGap gap.toList) (scope : FrameId) (σ : Store) :
    ip.run (text ++ gap ++ rest) scope σ =
      match ip.run text scope σ with
      | (.ok _, τ) => ip.run rest scope τ
      | (.error e, τ) => (.error e, τ) := by
  -- all of the text is analysed before its first part runs, so both analyses come first
  rw [run_of_analyze_ok (analyze_append ha hgap hb), run_of_analyze_ok ha, run_of_analyze_ok hb,
    evaluateAll_append hfs, Action.bind_apply]
  rcases ip.evaluateAll es scope σ with ⟨result, τ⟩
  cases result with
  | ok v => rfl
  | error e => rfl

/-- A definition and, on the next line, a use of what it defines. -/
theorem run_append_define :
    let ip : Interpreter := ⟨⟨10, 1⟩, fun _ => none⟩
    let σ := (Store.addFrame (.empty .unlimited) none []).2
    let es := [Expr.define "x" (.literal (.str "a"))]
    ip.analyze "(define x 'a')" = .ok es ∧ ip.analyze "x" = .ok [.name "x"] ∧
      [Expr.name "x"] ≠ [] ∧ Datum.IsGap "\r\n".toList ∧
      ip.run ("(define x 'a')" ++ "\r\n" ++ "x") 0 σ = ip.run "x" 0 (σ.define 0 "x" (.str "a")) := by
  intro ip σ es
  have hdefine : ip.read "(define x 'a')" = .ok [.list [.sym "define", .sym "x", .str "a"]] :=
    read_of_scan rfl rfl (by decide)
  have hname : ip.read "x" = .ok [.sym "x"] := read_of_scan rfl rfl (by decide)
  have ha : ip.analyze "(define x 'a')" = .ok es := analyze_eq_ok hdefine
  have hb : ip.analyze "x" = .ok [.name "x"] := analyze_eq_ok hname
  have hgap : Datum.IsGap "\r\n".toList := ⟨by decide, List.all_eq_true.mp rfl⟩
  have hfirst : ip.run "(define x 'a')" 0 σ = (.ok .unspecified, σ.define 0 "x" (.str "a")) := by
    rw [run_of_analyze_ok ha]
    rfl
  refine ⟨ha, hb, List.cons_ne_nil _ _, hgap, ?_⟩
  rw [run_append ha hb (List.cons_ne_nil _ _) hgap 0 σ, hfirst]

/-! ## Rejected programs -/

theorem run_of_read_error (h : ip.read text = .error e) : ip.run text scope σ = (.error e, σ) := by
  refine run_of_analyze_error ?_
  rw [analyze, h]
  rfl

theorem loadUnit_of_read_error (h : ip.read text = .error e) :
    ip.loadUnit text scope σ = (.error e, σ) := by
  rw [loadUnit, h]
  rfl

/-- Only the first form of a unit counts. -/
theorem loadUnit_of_read_ok (h : ip.read text = .ok (form :: forms)) :
    ip.loadUnit text scope =
      (Action.ofExcept (Expr.ofDatum form) >>= fun e => ip.evaluate e scope) := by
  rw [loadUnit, h]
  rfl

/-- A program of one form does what the form does. -/
theorem run_of_read_singleton (h : ip.read text = .ok [form]) :
    ip.run text scope =
      (Action.ofExcept (Expr.ofDatum form) >>= fun e => ip.evaluate e scope) := by
  have hanalyze : ip.analyze text = Expr.ofData [form] := analyze_eq_ok h
  rw [Expr.ofData, Expr.ofData] at hanalyze
  cases hform : Expr.ofDatum form with
  | error e =>
    rw [hform] at hanalyze
    funext σ
    exact run_of_analyze_error hanalyze
  | ok e =>
    rw [hform] at hanalyze
    rw [run_of_analyze_ok hanalyze]
    exact evaluateAll_singleton e

/-- A program that is not read is rejected with the fault of the reader, and one with a form that cannot
be analysed with the error of the first such form, wherever it stands; neither has any effect.  A unit is
rejected only if it is not read: whatever forms stand behind the first one, loading it is running the
first form. -/
theorem rejected_without_effect (ip : Interpreter) (text : String) (scope : FrameId) (σ : Store) :
    (∀ e, ip.read text = .error e →
      ip.run text scope σ = (.error e, σ) ∧ ip.loadUnit text scope σ = (.error e, σ)) ∧
    (∀ forms, ip.read text = .ok forms → (∃ d ∈ forms, ∃ e, Expr.ofDatum d = .error e) →
      ∃ before d after e, forms = before ++ d :: after ∧
        (∀ d' ∈ before, ∃ x, Expr.ofDatum d' = .ok x) ∧ Expr.ofDatum d = .error e ∧
        ip.run text scope σ = (.error e, σ)) ∧
    ∀ form, ip.read text = .ok [form] → ∀ gap, Datum.IsGap gap.toList →
      ∀ rest forms, ip.read rest = .ok forms →
        ip.loadUnit (text ++ gap ++ rest) scope σ = ip.run text scope σ := by
  refine ⟨?_, ?_, ?_⟩
  · intro e hread
    exact ⟨run_of_read_error hread, loadUnit_of_read_error hread⟩
  · intro forms hread hfails
    obtain ⟨before, d, after, e, rfl, hbefore, hd⟩ := Expr.exists_first_error hfails
    refine ⟨before, d, after, e, rfl, hbefore, hd, run_of_analyze_error ?_⟩
    rw [analyze_eq_ok hread, Expr.ofData_eq_error hbefore hd]
  · intro form hread gap hgap rest forms hrest
    have hall : ip.read (text ++ gap ++ rest) = .ok (form :: forms) := read_append hread hgap hrest
    rw [loadUnit_of_read_ok hall, run_of_read_singleton hread]

/-- Behind a definition stands a form that cannot be analysed: the program has no effect, and the unit
defines the name. -/
theorem rejected_without_effect_define :
    let ip : Interpreter := ⟨⟨10, 1⟩, fun _ => none⟩
    let σ := (Store.addFrame (.empty .unlimited) none []).2
    let define := Datum.list [.sym "define", .sym "x", .str "a"]
    let text := "(define x 'a')" ++ " " ++ "(quote)"
    ip.read text = .ok [define, .list [.sym "quote"]] ∧
      (∃ e, ip.run text 0 σ = (.error e, σ)) ∧
      ip.loadUnit text 0 σ = (.ok .unspecified, σ.define 0 "x" (.str "a")) := by
  intro ip σ define text
  have hdefine : ip.read "(define x 'a')" = .ok [define] := read_of_scan rfl rfl (by decide)
  have hquote : ip.read "(quote)" = .ok [.list [.sym "quote"]] := read_of_scan rfl rfl (by decide)
  have hgap : Datum.IsGap " ".toList := ⟨by decide, List.all_eq_true.mp rfl⟩
  have htext : ip.read text = .ok [define, .list [.sym "quote"]] := read_append hdefine hgap hquote
  refine ⟨htext, ?_, ?_⟩
  · have hfails : ∃ d ∈ [define, .list [.sym "quote"]], ∃ e, Expr.ofDatum d = .error e :=
      ⟨.list [.sym "quote"], by simp, _, rfl⟩
    obtain ⟨_, _, _, e, _, _, _, hrun⟩ :=
      (ip.rejected_without_effect text 0 σ).2.1 _ htext hfails
    exact ⟨e, hrun⟩
  · have hload := (ip.rejected_without_effect "(define x 'a')" 0 σ).2.2 define hdefine " " hgap
      "(quote)" _ hquote
    have hanalyze : ip.analyze "(define x 'a')" = .ok [.define "x" (.literal (.str "a"))] :=
      analyze_eq_ok hdefine
    rw [hload, run_of_analyze_ok hanalyze]
    rfl

end Interpreter

end MiniLisp
