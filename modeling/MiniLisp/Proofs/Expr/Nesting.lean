import MiniLisp.Proofs.Expr.Parts
import MiniLisp.Proofs.Reader.Written

/-!
# Nesting of programs

An expression is evaluated one level below the expression that it is part of, and stands in the program
text at least one list below it.  So a datum whose lists nest `n` deep stands for an expression whose
parts nest at most `n + 1` levels deep (`Expr.within_ofDatum`).
-/

namespace MiniLisp

namespace Expr

/-! ## Nested expressions -/

variable {m n : Nat} {d : Datum} {e : Expr}

/-- The expression and its parts nest at most so many levels deep. -/
inductive Within : Nat → Expr → Prop where
  | intro {n : Nat} {e : Expr} (hoperands : ∀ e' ∈ e.operands, Within n e')
      (hbodies : ∀ e' ∈ e.bodies, Within n e') : Within (n + 1) e

theorem Within.mono (h : e.Within m) (hle : m ≤ n) : e.Within n := by
  induction h generalizing n with
  | intro _ _ hoperands hbodies =>
    obtain ⟨n, rfl⟩ : ∃ k, n = k + 1 := ⟨n - 1, by omega⟩
    have hle := Nat.le_of_succ_le_succ hle
    exact .intro (fun e' he' => hoperands e' he' hle) fun e' he' => hbodies e' he' hle

/-- An expression without parts. -/
theorem within_leaf (hoperands : e.operands = []) (hbodies : e.bodies = []) : e.Within (n + 1) := by
  refine .intro ?_ ?_
  · rw [hoperands]
    exact List.forall_mem_nil _
  · rw [hbodies]
    exact List.forall_mem_nil _

theorem within_application {callee : Expr} {arguments : List Expr} (hcallee : callee.Within n)
    (harguments : ∀ e ∈ arguments, e.Within n) : (application callee arguments).Within (n + 1) :=
  .intro (List.forall_mem_cons.mpr ⟨hcallee, harguments⟩) (List.forall_mem_nil _)

/-- The induction is on the rules of the analysis: an operand stands inside the list of its form. -/
theorem within_of_standsFor (h : d.StandsFor e) : d.depth ≤ n → e.Within (n + 1) := by
  -- the bound is free, since operands stand one list deeper than their form
  refine @Datum.StandsFor.rec (fun d e _ => ∀ n, d.depth ≤ n → e.Within (n + 1))
    (fun ds es _ => ∀ n, (∀ d ∈ ds, d.depth ≤ n) → ∀ e ∈ es, e.Within (n + 1))
    ?num ?str ?sym ?empty ?quote ?ifThen ?ifElse ?assign ?define ?lambda ?sequence ?withBundle ?named
    ?application ?nil ?cons d e h n
  case num => exact fun x n _ => within_leaf rfl rfl
  case str => exact fun text n _ => within_leaf rfl rfl
  case sym => exact fun x n _ => within_leaf rfl rfl
  case empty =>
    intro n hd
    obtain ⟨n, rfl, -⟩ := Datum.exists_of_depth_list_le hd
    exact within_application (within_leaf rfl rfl) (List.forall_mem_nil _)
  case quote => exact fun _ d n _ => within_leaf rfl rfl
  case ifThen =>
    intro symbol test yes t y _ _ _ htest hyes n hd
    obtain ⟨n, rfl, hitems⟩ := Datum.exists_of_depth_list_le hd
    have htest' := htest n (hitems test (by simp))
    have hyes' := hyes n (hitems yes (by simp))
    exact .intro (by simp [htest', hyes']) (List.forall_mem_nil _)
  case ifElse =>
    intro symbol test yes no t y e _ _ _ _ htest hyes hno n hd
    obtain ⟨n, rfl, hitems⟩ := Datum.exists_of_depth_list_le hd
    have htest' := htest n (hitems test (by simp))
    have hyes' := hyes n (hitems yes (by simp))
    have hno' := hno n (hitems no (by simp))
    exact .intro (by simp [htest', hyes', hno']) (List.forall_mem_nil _)
  case assign =>
    intro symbol value v _ target _ hvalue n hd
    obtain ⟨n, rfl, hitems⟩ := Datum.exists_of_depth_list_le hd
    have hvalue' := hvalue n (hitems value (by simp))
    exact .intro (by simp [hvalue']) (List.forall_mem_nil _)
  case define =>
    intro symbol value v _ target _ hvalue n hd
    obtain ⟨n, rfl, hitems⟩ := Datum.exists_of_depth_list_le hd
    have hvalue' := hvalue n (hitems value (by simp))
    exact .intro (by simp [hvalue']) (List.forall_mem_nil _)
  case lambda =>
    intro symbol names body b _ _ _ hbody n hd
    obtain ⟨n, rfl, hitems⟩ := Datum.exists_of_depth_list_le hd
    have hbody' := hbody n (hitems body (by simp))
    exact .intro (List.forall_mem_nil _) (by simp [bodies, hbody'])
  case sequence =>
    intro symbol steps es _ _ hsteps n hd
    obtain ⟨n, rfl, hitems⟩ := Datum.exists_of_depth_list_le hd
    exact .intro (hsteps n fun d hmem => hitems d (List.mem_cons_of_mem _ hmem)) (List.forall_mem_nil _)
  case withBundle =>
    intro symbol bundle body b _ _ hbody n hd
    obtain ⟨n, rfl, hitems⟩ := Datum.exists_of_depth_list_le hd
    have hbody' := hbody n (hitems body (by simp))
    exact .intro (List.forall_mem_nil _) (by simp [bodies, hbody'])
  case named =>
    intro symbol operands es _ _ hoperands n hd
    obtain ⟨n, rfl, hitems⟩ := Datum.exists_of_depth_list_le hd
    exact within_application (within_leaf rfl rfl)
      (hoperands n fun d hmem => hitems d (List.mem_cons_of_mem _ hmem))
  case application =>
    intro head operands callee es _ _ _ hhead hoperands n hd
    obtain ⟨n, rfl, hitems⟩ := Datum.exists_of_depth_list_le hd
    obtain ⟨hfirst, hrest⟩ := List.forall_mem_cons.mp hitems
    exact within_application (hhead n hfirst) (hoperands n hrest)
  case nil => exact fun _ _ => List.forall_mem_nil _
  case cons =>
    intro d ds e es _ _ hd hds n hle
    obtain ⟨hfirst, hrest⟩ := List.forall_mem_cons.mp hle
    exact List.forall_mem_cons.mpr ⟨hd n hfirst, hds n hrest⟩

/-- Analysis nests expressions at most one deeper than the lists of the datum. -/
theorem within_ofDatum (h : ofDatum d = .ok e) : e.Within (d.depth + 1) :=
  within_of_standsFor (ofDatum_eq_ok_iff.mp h) (Nat.le_refl _)

/-! ## Expressions that make functions -/

/-- There is a function in the expression. -/
inductive MakesFunction : Expr → Prop where
  | here (parameters : List String) (body : Expr) : MakesFunction (.lambda parameters body)
  | operand {e e' : Expr} (hmem : e' ∈ e.operands) (h : MakesFunction e') : MakesFunction e
  | body {e e' : Expr} (hmem : e' ∈ e.bodies) (h : MakesFunction e') : MakesFunction e

end Expr

end MiniLisp
