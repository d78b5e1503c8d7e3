import MiniLisp.Proofs.Expr.Rules
import MiniLisp.Proofs.Value.Holds

/-!
# Parts of expressions

An expression evaluates its operands in its own scope, and the bodies of functions and imports in
another one.  From this come the values and the closures that an expression holds, the names that it
assigns anywhere, and the names that it defines in its own scope.  Analysed expressions hold values of
the data that were analysed (`over_ofDatum`), and so no closures.
-/

namespace MiniLisp.Expr

variable {id : ClosureId} {e : Expr}

/-- The expressions that an expression evaluates in its own scope. -/
@[simp] def operands : Expr → List Expr
  | literal _ | name _ | quote _ | lambda _ _ | withBundle _ _ => []
  | ifThen test yes => [test, yes]
  | ifElse test yes no => [test, yes, no]
  | assign _ value | define _ value => [value]
  | sequence steps => steps
  | application callee arguments => callee :: arguments

/-- The body of a function or of an import, which has a scope of its own. -/
def bodies : Expr → List Expr
  | lambda _ body | withBundle _ body => [body]
  | _ => []

/-- The closure stands in a literal or in quoted data somewhere in the expression. -/
inductive Holds (id : ClosureId) : Expr → Prop where
  | literal {v : Value} (h : v.Holds id) : Holds id (.literal v)
  | quote {v : Value} (h : v.Holds id) : Holds id (.quote v)
  | operand {e e' : Expr} (hmem : e' ∈ e.operands) (h : Holds id e') : Holds id e
  | body {e e' : Expr} (hmem : e' ∈ e.bodies) (h : Holds id e') : Holds id e

/-- The name is assigned somewhere in the expression. -/
inductive Assigns (x : String) : Expr → Prop where
  | here (value : Expr) : Assigns x (.assign x value)
  | operand {e e' : Expr} (hmem : e' ∈ e.operands) (h : Assigns x e') : Assigns x e
  | body {e e' : Expr} (hmem : e' ∈ e.bodies) (h : Assigns x e') : Assigns x e

/-- The name is defined in the expression outside the bodies of functions and imports. -/
inductive Defines (x : String) : Expr → Prop where
  | here (value : Expr) : Defines x (.define x value)
  | operand {e e' : Expr} (hmem : e' ∈ e.operands) (h : Defines x e') : Defines x e

/-- An import defines nothing in the scope it stands in. -/
theorem not_defines_withBundle {x bundle : String} {body : Expr} :
    ¬ (withBundle bundle body).Defines x := by
  intro h
  cases h with
  | operand hmem _ => cases hmem

/-! ## Values in expressions -/

/-- The value stands in the expression, as a literal or as quoted data. -/
inductive Mentions (v : Value) : Expr → Prop where
  | literal : Mentions v (.literal v)
  | quote : Mentions v (.quote v)
  | operand {e e' : Expr} (hmem : e' ∈ e.operands) (h : Mentions v e') : Mentions v e
  | body {e e' : Expr} (hmem : e' ∈ e.bodies) (h : Mentions v e') : Mentions v e

/-- All values that stand in the expression are of a kind. -/
def Over (kind : Value → Prop) (e : Expr) : Prop := ∀ v, e.Mentions v → kind v

/-- An expression without closures. -/
def Plain (e : Expr) : Prop := ∀ id, ¬ e.Holds id

/-- An expression holds the closures of the values in it. -/
theorem Holds.exists_mentions (h : e.Holds id) : ∃ v, e.Mentions v ∧ v.Holds id := by
  induction h with
  | literal h => exact ⟨_, .literal, h⟩
  | quote h => exact ⟨_, .quote, h⟩
  | operand hmem _ ih =>
    obtain ⟨v, hmentions, hv⟩ := ih
    exact ⟨v, .operand hmem hmentions, hv⟩
  | body hmem _ ih =>
    obtain ⟨v, hmentions, hv⟩ := ih
    exact ⟨v, .body hmem hmentions, hv⟩

theorem plain_of_over (h : e.Over Value.Plain) : e.Plain := by
  intro id hid
  obtain ⟨v, hmentions, hv⟩ := hid.exists_mentions
  exact h v hmentions id hv

section Over

variable {kind : Value → Prop} {v : Value}

theorem Over.operand (h : e.Over kind) {e' : Expr} (hmem : e' ∈ e.operands) : e'.Over kind :=
  fun v hv => h v (.operand hmem hv)

theorem Over.body (h : e.Over kind) {e' : Expr} (hmem : e' ∈ e.bodies) : e'.Over kind :=
  fun v hv => h v (.body hmem hv)

theorem Over.mono {kind' : Value → Prop} (h : e.Over kind) (hkinds : ∀ v, kind v → kind' v) :
    e.Over kind' :=
  fun v hv => hkinds v (h v hv)

theorem over_literal (hv : kind v) : (literal v).Over kind := by
  intro w h
  cases h with
  | literal => exact hv
  | operand hmem _ => cases hmem
  | body hmem _ => cases hmem

theorem over_quote (hv : kind v) : (quote v).Over kind := by
  intro w h
  cases h with
  | quote => exact hv
  | operand hmem _ => cases hmem
  | body hmem _ => cases hmem

theorem over_of_parts (hliteral : ∀ v, e ≠ literal v) (hquote : ∀ v, e ≠ quote v)
    (hoperands : ∀ e' ∈ e.operands, e'.Over kind) (hbodies : ∀ e' ∈ e.bodies, e'.Over kind) :
    e.Over kind := by
  intro w h
  cases h with
  | literal => exact absurd rfl (hliteral w)
  | quote => exact absurd rfl (hquote w)
  | operand hmem h => exact hoperands _ hmem w h
  | body hmem h => exact hbodies _ hmem w h

theorem over_application {callee : Expr} {arguments : List Expr} (hcallee : callee.Over kind)
    (harguments : ∀ e ∈ arguments, e.Over kind) : (application callee arguments).Over kind :=
  over_of_parts nofun nofun (List.forall_mem_cons.mpr ⟨hcallee, harguments⟩) nofun

theorem over_name (x : String) : (name x).Over kind := over_of_parts nofun nofun nofun nofun

end Over

theorem plain_literal {v : Value} (hv : v.Plain) : (literal v).Plain := plain_of_over (over_literal hv)

/-! ## Analysis -/

/-- The expressions of analysed data are analysed data. -/
theorem exists_of_mem_ofData {ds : List Datum} {es : List Expr} (h : ofData ds = .ok es) :
    ∀ e ∈ es, ∃ d ∈ ds, ofDatum d = .ok e := by
  induction ds generalizing es with
  | nil =>
    obtain rfl := Except.ok.inj h
    exact fun _ => nofun
  | cons d ds ih =>
    obtain ⟨x, xs, hx, hxs, rfl⟩ := ofData_cons h
    intro e he
    rcases List.mem_cons.mp he with rfl | he
    · exact ⟨d, List.mem_cons_self, hx⟩
    · obtain ⟨d', hmem, hd'⟩ := ih hxs e he
      exact ⟨d', List.mem_cons_of_mem d hmem, hd'⟩

/-- A kind of data to which the items of its lists belong. -/
def HoldsItems (kind : Datum → Prop) : Prop := ∀ items, kind (.list items) → ∀ d ∈ items, kind d

/-- The values of data of a kind. -/
def OfKind (kind : Datum → Prop) (v : Value) : Prop := ∃ d, kind d ∧ v = .ofDatum d

variable {kind : Datum → Prop} {d : Datum}

/-- Only values of the data stand in the expressions that they stand for, whatever kind the data are
of. -/
theorem over_of_standsFor (hkind : HoldsItems kind) (h : d.StandsFor e) :
    kind d → e.Over (OfKind kind) := by
  -- operands are items of the form, and `hkind` passes the kind on to items
  refine @Datum.StandsFor.rec (fun d e _ => kind d → e.Over (OfKind kind))
    (fun ds es _ => (∀ d ∈ ds, kind d) → ∀ e ∈ es, e.Over (OfKind kind))
    ?num ?str ?sym ?empty ?quote ?ifThen ?ifElse ?assign ?define ?lambda ?sequence ?withBundle ?named
    ?application ?nil ?cons d e h
  case num => exact fun x hd => over_literal ⟨.num x, hd, rfl⟩
  case str => exact fun text hd => over_literal ⟨.str text, hd, rfl⟩
  case sym => exact fun x _ => over_name x
  case empty => exact fun hd => over_application (over_literal ⟨.list [], hd, rfl⟩) nofun
  case quote =>
    intro symbol _ datum hd
    exact over_quote ⟨datum, hkind _ hd datum (by simp), rfl⟩
  case ifThen =>
    intro symbol test yes t y _ _ _ htest hyes hd
    have htest' := htest (hkind _ hd test (by simp))
    have hyes' := hyes (hkind _ hd yes (by simp))
    refine over_of_parts nofun nofun ?_ nofun
    simp [htest', hyes']
  case ifElse =>
    intro symbol test yes no t y n _ _ _ _ htest hyes hno hd
    have htest' := htest (hkind _ hd test (by simp))
    have hyes' := hyes (hkind _ hd yes (by simp))
    have hno' := hno (hkind _ hd no (by simp))
    refine over_of_parts nofun nofun ?_ nofun
    simp [htest', hyes', hno']
  case assign =>
    intro symbol value v _ target _ hvalue hd
    have hvalue' := hvalue (hkind _ hd value (by simp))
    refine over_of_parts nofun nofun ?_ nofun
    simp [hvalue']
  case define =>
    intro symbol value v _ target _ hvalue hd
    have hvalue' := hvalue (hkind _ hd value (by simp))
    refine over_of_parts nofun nofun ?_ nofun
    simp [hvalue']
  case lambda =>
    intro symbol names body b _ _ _ hbody hd
    have hbody' := hbody (hkind _ hd body (by simp))
    refine over_of_parts nofun nofun nofun ?_
    simp [bodies, hbody']
  case sequence =>
    intro symbol steps es _ _ hsteps hd
    have hitems : ∀ d ∈ steps, kind d := fun d hmem => hkind _ hd d (List.mem_cons_of_mem _ hmem)
    exact over_of_parts nofun nofun (hsteps hitems) nofun
  case withBundle =>
    intro symbol bundle body b _ _ hbody hd
    have hbody' := hbody (hkind _ hd body (by simp))
    refine over_of_parts nofun nofun nofun ?_
    simp [bodies, hbody']
  case named =>
    intro symbol operands es _ _ hoperands hd
    have hitems : ∀ d ∈ operands, kind d := fun d hmem => hkind _ hd d (List.mem_cons_of_mem _ hmem)
    exact over_application (over_name symbol) (hoperands hitems)
  case application =>
    intro head operands callee es _ _ _ hhead hoperands hd
    obtain ⟨hfirst, hitems⟩ := List.forall_mem_cons.mp (hkind _ hd)
    exact over_application (hhead hfirst) (hoperands hitems)
  case nil => exact fun _ _ => nofun
  case cons =>
    intro d ds e es _ _ hd hds hkinds
    obtain ⟨hfirst, hrest⟩ := List.forall_mem_cons.mp hkinds
    exact List.forall_mem_cons.mpr ⟨hd hfirst, hds hrest⟩

/-- Analysis puts only values of the analysed data into expressions. -/
theorem over_ofDatum (hkind : HoldsItems kind) (hd : kind d) (h : ofDatum d = .ok e) :
    e.Over (OfKind kind) :=
  over_of_standsFor hkind (ofDatum_eq_ok_iff.mp h) hd

/-- Analysis puts no closures into expressions. -/
theorem plain_ofDatum (h : ofDatum d = .ok e) : e.Plain := by
  have hover : e.Over (OfKind fun _ => True) := over_ofDatum (fun _ _ _ _ => ⟨⟩) ⟨⟩ h
  refine plain_of_over fun v hv => ?_
  obtain ⟨d', _, rfl⟩ := hover v hv
  exact Value.plain_ofDatum d'

end MiniLisp.Expr
