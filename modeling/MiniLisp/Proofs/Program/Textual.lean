import MiniLisp.Proofs.Eval.Values
import MiniLisp.Proofs.Program.Composition
import MiniLisp.Proofs.Value.Written

/-!
# Programs and what texts can spell

Reading, analysis and evaluation together do not leave the values that texts can spell: whatever programs
were run before, a program gives such values and leaves such values bound, nested no deeper than the
reader allows.  Where the reader allows no lists at all, programs are rows of words; they neither call
nor define anything, so it does not matter there that `cdr` answers with lists.
-/

namespace MiniLisp

variable {α : Type} {ip : Interpreter} {kind : Value → Prop} {σ : Store} {scope : FrameId}
variable {text : String} {e : Expr} {v : Value} {depth : Nat}

/-! ## Outcomes -/

/-- An outcome that does not leave the kind: the store is over it, and the result, if there is one, is of
it. -/
structure Action.Within (kind : Value → Prop) (outcome : Except Error Value × Store) : Prop where
  store : outcome.2.Over kind
  result : ∀ v, outcome.1 = .ok v → kind v

namespace Action.Within

theorem ok (hσ : σ.Over kind) (hv : kind v) : Within kind (.ok v, σ) := by
  refine ⟨hσ, fun w hw => ?_⟩
  obtain rfl := Except.ok.inj hw
  exact hv

theorem error {fault : Error} (hσ : σ.Over kind) : Within kind (.error fault, σ) :=
  ⟨hσ, fun _ => nofun⟩

/-- Steps in order do not leave the kind if none of them does. -/
theorem foldlM {f : α → Action Value} {as : List α} (hσ : σ.Over kind) (hv : kind v)
    (hf : ∀ a ∈ as, ∀ τ, τ.Over kind → Within kind (f a τ)) :
    Within kind (as.foldlM (fun _ a => f a) v σ) := by
  induction as generalizing σ v with
  | nil => exact .ok hσ hv
  | cons a as ih =>
    obtain ⟨hfirst, hrest⟩ := List.forall_mem_cons.mp hf
    have hstep := hfirst σ hσ
    rw [List.foldlM_cons, bind_apply]
    rcases hrun : f a σ with ⟨r, τ⟩
    rw [hrun] at hstep
    cases r with
    | error fault => exact .error hstep.store
    | ok w => exact ih hstep.store (hstep.result w rfl) hrest

end Action.Within

namespace Interpreter

/-- Evaluating an expression of some data does not leave the kind. -/
def Stays (ip : Interpreter) (kind : Value → Prop) (scope : FrameId) (d : Datum) : Prop :=
  ∀ e, Expr.ofDatum d = .ok e → ∀ σ : Store, σ.Over kind → Action.Within kind (ip.evaluate e scope σ)

/-- A program does not leave the kind if its forms do not. -/
theorem within_run (hunspecified : kind .unspecified) (hσ : σ.Over kind)
    (hforms : ∀ forms, ip.read text = .ok forms → ∀ d ∈ forms, ip.Stays kind scope d) :
    Action.Within kind (ip.run text scope σ) := by
  cases hes : ip.analyze text with
  | error fault =>
    rw [run_of_analyze_error hes]
    exact .error hσ
  | ok es =>
    obtain ⟨forms, hread, hmem⟩ := exists_of_mem_analyze hes
    rw [run_of_analyze_ok hes]
    refine .foldlM hσ hunspecified fun e he => ?_
    obtain ⟨d, hd, hde⟩ := hmem e he
    exact hforms forms hread d hd e hde

/-- Neither does a unit if its first form does not. -/
theorem within_loadUnit (hunspecified : kind .unspecified) (hσ : σ.Over kind)
    (hforms : ∀ forms, ip.read text = .ok forms → ∀ d ∈ forms, ip.Stays kind scope d) :
    Action.Within kind (ip.loadUnit text scope σ) := by
  cases hread : ip.read text with
  | error fault =>
    rw [loadUnit_of_read_error hread]
    exact .error hσ
  | ok forms =>
    cases forms with
    | nil =>
      rw [loadUnit, hread]
      exact .ok hσ hunspecified
    | cons d forms =>
      rw [loadUnit_of_read_ok hread]
      cases hd : Expr.ofDatum d with
      | error fault => exact .error hσ
      | ok e => exact hforms _ hread d List.mem_cons_self e hd σ hσ

end Interpreter

/-! ## Forms that are words -/

/-- A word is a literal or a name. -/
theorem Expr.ofDatum_ofWord {letters : List Char} (h : ofDatum (Datum.ofWord letters) = .ok e) :
    e = .literal (.ofDatum (Datum.ofWord letters)) ∨ ∃ x, e = .name x := by
  rcases Datum.ofWord_cases letters with ⟨x, hx⟩ | ⟨inner, _, hstr⟩ | hsym
  · rw [hx] at h ⊢
    exact .inl (Except.ok.inj h).symm
  · rw [hstr] at h ⊢
    exact .inl (Except.ok.inj h).symm
  · rw [hsym] at h
    exact .inr ⟨_, (Except.ok.inj h).symm⟩

namespace Interpreter

/-- So it gives its own value or one that was bound, and changes nothing. -/
theorem stays_ofWord {letters : List Char} (hvalue : kind (.ofDatum (Datum.ofWord letters))) :
    ip.Stays kind scope (Datum.ofWord letters) := by
  intro e he σ hσ
  rw [evaluate]
  cases ip.limits.eval with
  | zero =>
    rw [eval]
    exact .error hσ
  | succ n =>
    rcases Expr.ofDatum_ofWord he with rfl | ⟨x, rfl⟩
    · rw [eval]
      exact .ok hσ hvalue
    · rw [eval, lookupName]
      split
      · rename_i v hv
        exact .ok hσ (hσ.lookup hv)
      · exact .error hσ

/-! ## Forms that are read -/

/-- Programs import ready-made values of the kind, and nothing else. -/
def Offers (ip : Interpreter) (kind : Value → Prop) : Prop :=
  ∀ name bundle, ip.bundles name = some bundle →
    ∀ entry ∈ bundle, ∃ v, entry.2 = .value v ∧ kind v

theorem Offers.closed (h : ip.Offers (Value.Textual (depth + 1))) :
    ip.Closed (Value.Textual (depth + 1)) where
  nil := .nil
  unspecified := .unspecified
  closure := .closure
  answer hp hargs hv := by
    cases hp with
    | primitive hoperation => exact Primitive.textual_call hoperation hargs hv
  offer hbundle entry hentry σ _ := by
    obtain ⟨v, hv, hkind⟩ := h _ _ hbundle entry hentry
    rw [hv]
    exact hkind

/-- Data within the limit of a reader are evaluated to values within this limit. -/
theorem stays_of_readable {d : Datum} (hoffers : ip.Offers (Value.Textual depth))
    (hd : d.Readable depth) : ip.Stays (Value.Textual depth) scope d := by
  -- a limit of zero lets in words only, while callables can still be bound
  cases depth with
  | zero =>
    cases hd with
    | word h => exact stays_ofWord (Value.textual_ofWord h 0)
  | succ depth =>
    intro e he σ hσ
    have hitems : Expr.HoldsItems (Datum.Readable (depth + 1)) := by
      intro items hlist d' hd'
      obtain ⟨n, hn, hreadable⟩ := hlist.items
      exact (hreadable d' hd').mono (by omega)
    have hover : e.Over (Value.Textual (depth + 1)) := by
      intro v hv
      obtain ⟨d', hd', rfl⟩ := Expr.over_ofDatum hitems hd he v hv
      exact Value.textual_ofDatum hd'
    have hkept := ((Invariant.values hoffers.closed).keeps ip.limits.eval).1 e scope σ hσ hover
    exact ⟨hkept.state, hkept.result⟩

theorem readable_of_read {forms : List Datum} (h : ip.read text = .ok forms) :
    ∀ d ∈ forms, d.Readable ip.limits.read :=
  (read_eq_ok_iff.mp h).readable

theorem textual_run (hoffers : ip.Offers (Value.Textual ip.limits.read))
    (hσ : σ.Over (Value.Textual ip.limits.read)) :
    Action.Within (Value.Textual ip.limits.read) (ip.run text scope σ) :=
  within_run .unspecified hσ fun _ hread d hd =>
    stays_of_readable hoffers (readable_of_read hread d hd)

theorem textual_loadUnit (hoffers : ip.Offers (Value.Textual ip.limits.read))
    (hσ : σ.Over (Value.Textual ip.limits.read)) :
    Action.Within (Value.Textual ip.limits.read) (ip.loadUnit text scope σ) :=
  within_loadUnit .unspecified hσ fun _ hread d hd =>
    stays_of_readable hoffers (readable_of_read hread d hd)

/-- A value that is written as data is read as what it was. -/
theorem read_text (htextual : v.Textual ip.limits.read) (hdata : v.IsData) :
    ∃ d, ip.read v.text = .ok [d] ∧ Value.ofDatum d = v := by
  obtain ⟨d, hwritten, hvalue⟩ := Value.written_text htextual hdata
  exact ⟨d, read_eq_ok_iff.mpr hwritten.reference, hvalue⟩

end Interpreter

end MiniLisp
