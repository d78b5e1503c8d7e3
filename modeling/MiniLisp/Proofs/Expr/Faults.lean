import MiniLisp.Expr.Analysis

/-!
# Faults of programs

Which parts of a datum are code is decided without analysing it: `codeNodes` lists them, every list
before its parts and the parts from left to right.  A node of this row is ill-formed by itself
(`IllFormed`), through the number of its operands or through what stands where its names do, and its
`Fault` is the error that says so.  Analysis accepts a datum if no node is ill-formed, and otherwise
reports the fault of the first one that is (`Expr.judged_analysis`).
-/

namespace MiniLisp

/-- A list of symbols, no two of them the same. -/
def Datum.IsParameterList (d : Datum) : Prop :=
  ∃ names : List String, names.Nodup ∧ d = .list (names.map .sym)

/-- The form cannot bind what stands where its names do. -/
def SpecialForm.Misbinds : SpecialForm → Datum → Prop
  | assignment, target | definition, target => ∀ name, target ≠ .sym name
  | lambda, parameters => ¬ parameters.IsParameterList
  | quote, _ | conditional, _ | sequence, _ => False

namespace Datum

/-! ## Code -/

/-- The parts of a datum that evaluation would treat as expressions, from left to right.  Quoted data,
targets and parameter lists are none. -/
def codeParts : Datum → List Datum
  | .list (.sym symbol :: operands) =>
    match Head.ofSymbol symbol with
    | .special .quote => []
    | .special .conditional | .special .sequence | .bundle _ => operands
    | .special .assignment | .special .definition | .special .lambda => operands.drop 1
    | .ordinary => .sym symbol :: operands
  | .list items => items
  | _ => []

/-- The parts of a list are items of it. -/
theorem codeParts_subset (items : List Datum) : codeParts (.list items) ⊆ items := by
  unfold codeParts
  split
  · rename_i symbol operands hitems
    obtain rfl := Datum.list.inj hitems
    split
    · exact List.nil_subset _
    · exact List.subset_cons_self _ operands
    · exact List.subset_cons_self _ operands
    · exact List.subset_cons_self _ operands
    · exact fun part hpart => List.mem_cons_of_mem _ (List.mem_of_mem_drop hpart)
    · exact fun part hpart => List.mem_cons_of_mem _ (List.mem_of_mem_drop hpart)
    · exact fun part hpart => List.mem_cons_of_mem _ (List.mem_of_mem_drop hpart)
    · exact List.Subset.refl _
  · rename_i hitems
    obtain rfl := Datum.list.inj hitems
    exact List.Subset.refl _
  · rename_i hlist
    exact absurd rfl (hlist items)

/-- All items of a list are code if its head is no symbol. -/
theorem codeParts_of_head {head : Datum} {operands : List Datum} (h : ∀ symbol, head ≠ .sym symbol) :
    codeParts (.list (head :: operands)) = head :: operands := by
  cases head with
  | sym symbol => exact absurd rfl (h symbol)
  | num x => rfl
  | str text => rfl
  | list items => rfl

theorem sizeOf_lt_of_mem_codeParts {d part : Datum} (h : part ∈ d.codeParts) : sizeOf part < sizeOf d := by
  cases d with
  | list items =>
    have hitem := List.sizeOf_lt_of_mem (codeParts_subset items h)
    simp only [list.sizeOf_spec]
    omega
  | num x => cases h
  | str text => cases h
  | sym name => cases h

/-- The datum and the parts of it that are code, at every depth: a node comes before its parts, and
everything in one part before the next part. -/
def codeNodes (d : Datum) : List Datum :=
  d :: d.codeParts.attach.flatMap fun part => codeNodes part.1
termination_by sizeOf d
decreasing_by exact sizeOf_lt_of_mem_codeParts part.2

theorem codeNodes_eq (d : Datum) : d.codeNodes = d :: d.codeParts.flatMap codeNodes := by
  rw [codeNodes, List.flatMap_subtype (g := codeNodes) (fun _ _ => rfl), List.unattach_attach]

/-! ## Faults of single nodes -/

/-- The node is ill-formed, whatever its parts are. -/
inductive IllFormed : Datum → Prop where
  /-- A special form has a number of operands that it does not accept. -/
  | count {symbol : String} {form : SpecialForm} {operands : List Datum}
      (hhead : Head.ofSymbol symbol = .special form) (hcount : ¬ form.arity.accepts operands.length) :
      IllFormed (.list (.sym symbol :: operands))
  /-- So has an import. -/
  | importCount {symbol bundle : String} {operands : List Datum}
      (hhead : Head.ofSymbol symbol = .bundle bundle)
      (hcount : ¬ importArity.accepts operands.length) : IllFormed (.list (.sym symbol :: operands))
  /-- A target is no symbol, or parameters are no list of distinct symbols. -/
  | binding {symbol : String} {form : SpecialForm} {names value : Datum}
      (hhead : Head.ofSymbol symbol = .special form) (hnames : form.Misbinds names) :
      IllFormed (.list [.sym symbol, names, value])

/-- The error for items that are no list of distinct symbols: that of the first item that is no symbol
or repeats one. -/
inductive ParameterFault : List Datum → Error → Prop where
  | notSymbol {names : List String} {item : Datum} (hdistinct : names.Nodup)
      (hitem : ∀ name, item ≠ .sym name) (rest : List Datum) :
      ParameterFault (names.map .sym ++ item :: rest) (.parameterNotSymbol item)
  | duplicate {names : List String} {name : String} (hdistinct : names.Nodup) (hname : name ∈ names)
      (rest : List Datum) :
      ParameterFault (names.map .sym ++ .sym name :: rest) (.duplicateParameter name)

/-- The error for an ill-formed node. -/
inductive Fault : Datum → Error → Prop where
  | count {symbol : String} {form : SpecialForm} {operands : List Datum}
      (hhead : Head.ofSymbol symbol = .special form) (hcount : ¬ form.arity.accepts operands.length) :
      Fault (.list (.sym symbol :: operands)) (.arityMismatch form.keyword form.arity operands.length)
  | importCount {symbol bundle : String} {operands : List Datum}
      (hhead : Head.ofSymbol symbol = .bundle bundle)
      (hcount : ¬ importArity.accepts operands.length) :
      Fault (.list (.sym symbol :: operands)) (.arityMismatch symbol importArity operands.length)
  | target {symbol : String} {form : SpecialForm} {target value : Datum}
      (hhead : Head.ofSymbol symbol = .special form)
      (hform : form = .assignment ∨ form = .definition) (htarget : ∀ name, target ≠ .sym name) :
      Fault (.list [.sym symbol, target, value]) (.targetNotSymbol form.keyword target)
  | parametersNotList {symbol : String} {parameters body : Datum}
      (hhead : Head.ofSymbol symbol = .special .lambda)
      (hparameters : ∀ items, parameters ≠ .list items) :
      Fault (.list [.sym symbol, parameters, body]) (.parametersNotList parameters)
  | parameter {symbol : String} {items : List Datum} {body : Datum} {e : Error}
      (hhead : Head.ofSymbol symbol = .special .lambda) (hitems : ParameterFault items e) :
      Fault (.list [.sym symbol, .list items, body]) e

variable {symbol bundle : String} {form : SpecialForm} {head d target value : Datum}
variable {operands nodes nodes' items : List Datum} {names : List String} {e e' : Error}

/-! ## Parameter lists -/

/-- Distinct symbols in front of other items are taken one after the other. -/
theorem parameterNames_append {before : List String} (hdistinct : names.Nodup)
    (hfresh : ∀ name ∈ names, name ∉ before) (rest : List Datum) :
    parameterNames before (names.map .sym ++ rest) =
      (parameterNames (names.reverse ++ before) rest).map (names ++ ·) := by
  induction names generalizing before with
  | nil =>
    rw [List.map_nil, List.nil_append, List.reverse_nil, List.nil_append]
    cases parameterNames before rest <;> rfl
  | cons name names ih =>
    obtain ⟨hname, hdistinct⟩ := List.nodup_cons.mp hdistinct
    obtain ⟨hnew, hfresh⟩ := List.forall_mem_cons.mp hfresh
    have hfresh' : ∀ other ∈ names, other ∉ name :: before := by
      intro other hother hmem
      rcases List.mem_cons.mp hmem with rfl | hmem
      · exact hname hother
      · exact hfresh other hother hmem
    rw [List.map_cons, List.cons_append, parameterNames, if_neg hnew, ih hdistinct hfresh',
      List.reverse_cons, List.append_assoc, List.singleton_append]
    cases parameterNames (names.reverse ++ name :: before) rest <;> rfl

theorem parameterNames_of_fault (h : ParameterFault items e) : parameterNames [] items = .error e := by
  cases h with
  | notSymbol hdistinct hitem rest =>
    rw [parameterNames_append hdistinct (fun _ _ => List.not_mem_nil)]
    rename_i item
    cases item with
    | sym name => exact absurd rfl (hitem name)
    | _ => rfl
  | duplicate hdistinct hname rest =>
    rw [parameterNames_append hdistinct (fun _ _ => List.not_mem_nil), parameterNames,
      if_pos (by simpa using hname)]
    rfl

/-- Behind distinct symbols, items either go on with distinct symbols to their end or have a fault. -/
theorem distinct_or_fault_behind (hdistinct : names.Nodup) (items : List Datum) :
    (∃ names' : List String, names'.Nodup ∧ names.map .sym ++ items = names'.map .sym) ∨
      ∃ e, ParameterFault (names.map .sym ++ items) e := by
  induction items generalizing names with
  | nil => exact .inl ⟨names, hdistinct, List.append_nil _⟩
  | cons item items ih =>
    by_cases hitem : ∃ name, item = .sym name
    · obtain ⟨name, rfl⟩ := hitem
      by_cases hname : name ∈ names
      · exact .inr ⟨_, .duplicate hdistinct hname items⟩
      · have hlonger : (names ++ [name]).Nodup := by
          simpa [List.nodup_append, hdistinct] using fun other hother (heq : other = name) =>
            hname (heq ▸ hother)
        have hnext := ih hlonger
        rwa [List.map_append, List.append_assoc] at hnext
    · exact .inr ⟨_, .notSymbol hdistinct (fun name heq => hitem ⟨name, heq⟩) items⟩

theorem distinct_or_fault (items : List Datum) :
    (∃ names : List String, names.Nodup ∧ items = names.map .sym) ∨ ∃ e, ParameterFault items e :=
  distinct_or_fault_behind List.nodup_nil items

theorem parameters_of_nodup (hdistinct : names.Nodup) :
    parameters (.list (names.map .sym)) = .ok names := by
  have hfresh : ∀ name ∈ names, name ∉ ([] : List String) := fun _ _ => List.not_mem_nil
  have happend := parameterNames_append hdistinct hfresh []
  rw [List.append_nil] at happend
  rw [parameters, happend, parameterNames]
  exact congrArg Except.ok (List.append_nil names)

/-- Parameters are accepted exactly if they are a list of distinct symbols. -/
theorem parameters_eq_ok_iff : d.parameters = .ok names ↔ names.Nodup ∧ d = .list (names.map .sym) := by
  constructor
  · intro h
    cases d with
    | list items =>
      rcases distinct_or_fault items with ⟨names', hdistinct, rfl⟩ | ⟨e, hfault⟩
      · rw [parameters_of_nodup hdistinct] at h
        obtain rfl := Except.ok.inj h
        exact ⟨hdistinct, rfl⟩
      · rw [parameters, parameterNames_of_fault hfault] at h
        cases h
    | num x => cases h
    | str text => cases h
    | sym name => cases h
  · rintro ⟨hdistinct, rfl⟩
    exact parameters_of_nodup hdistinct

/-! ## Faults and ill-formed nodes -/

theorem Fault.illFormed (h : d.Fault e) : d.IllFormed := by
  cases h with
  | count hhead hcount => exact .count hhead hcount
  | importCount hhead hcount => exact .importCount hhead hcount
  | target hhead hform htarget =>
    rcases hform with rfl | rfl
    · exact .binding hhead htarget
    · exact .binding hhead htarget
  | parametersNotList hhead hparameters =>
    exact .binding hhead fun ⟨names, _, hlist⟩ => hparameters _ hlist
  | parameter hhead hitems =>
    refine .binding hhead fun ⟨names, hdistinct, hlist⟩ => ?_
    have hok := parameters_of_nodup hdistinct
    rw [← hlist, parameters, parameterNames_of_fault hitems] at hok
    cases hok

/-- Every ill-formed node has a fault. -/
theorem illFormed_iff_exists_fault : d.IllFormed ↔ ∃ e, d.Fault e := by
  constructor
  · intro h
    cases h with
    | count hhead hcount => exact ⟨_, .count hhead hcount⟩
    | importCount hhead hcount => exact ⟨_, .importCount hhead hcount⟩
    | @binding symbol form names value hhead hnames =>
      cases form with
      | assignment => exact ⟨_, .target hhead (.inl rfl) hnames⟩
      | definition => exact ⟨_, .target hhead (.inr rfl) hnames⟩
      | lambda =>
        by_cases hlist : ∃ items, names = .list items
        · obtain ⟨items, rfl⟩ := hlist
          rcases distinct_or_fault items with ⟨names, hdistinct, rfl⟩ | ⟨e, hfault⟩
          · exact absurd ⟨names, hdistinct, rfl⟩ hnames
          · exact ⟨e, .parameter hhead hfault⟩
        · exact ⟨_, .parametersNotList hhead fun items heq => hlist ⟨items, heq⟩⟩
      | quote => exact hnames.elim
      | conditional => exact hnames.elim
      | sequence => exact hnames.elim
  · rintro ⟨e, h⟩
    exact h.illFormed

theorem targetName_of_not_symbol (h : ∀ name, target ≠ .sym name) (form : SpecialForm) :
    target.targetName form = .error (.targetNotSymbol form.keyword target) := by
  cases target with
  | sym name => exact absurd rfl (h name)
  | _ => rfl

theorem parameters_of_not_list (h : ∀ items, d ≠ .list items) :
    d.parameters = .error (.parametersNotList d) := by
  cases d with
  | list items => exact absurd rfl (h items)
  | _ => rfl

/-- The fault of a node is found before its parts are looked at. -/
theorem Fault.ofDatum (h : d.Fault e) : Expr.ofDatum d = .error e := by
  cases h with
  | count hhead hcount => simp only [Expr.ofDatum, hhead, Arity.check_eq_error_iff.mpr ⟨hcount, rfl⟩]
  | @importCount symbol bundle operands hhead hcount =>
    have hmany : ∀ body, operands ≠ [body] := by
      rintro body rfl
      exact hcount rfl
    simp only [Expr.ofDatum, hhead]
  | target hhead hform htarget =>
    rcases hform with rfl | rfl
    · simp only [Expr.ofDatum, hhead, targetName_of_not_symbol htarget]
      rfl
    · simp only [Expr.ofDatum, hhead, targetName_of_not_symbol htarget]
      rfl
  | parametersNotList hhead hparameters =>
    simp only [Expr.ofDatum, hhead, parameters_of_not_list hparameters]
    rfl
  | parameter hhead hitems =>
    simp only [Expr.ofDatum, hhead, parameters, parameterNames_of_fault hitems]
    rfl

/-- A node has at most one fault. -/
theorem Fault.unique (h : d.Fault e) (h' : d.Fault e') : e = e' :=
  Except.error.inj (h.ofDatum.symm.trans h'.ofDatum)

/-! ## The first fault in a row of nodes -/

/-- The first ill-formed node of a row has this fault. -/
def FirstFault (nodes : List Datum) (e : Error) : Prop :=
  ∃ before node after, nodes = before ++ node :: after ∧ (∀ n ∈ before, ¬ n.IllFormed) ∧ node.Fault e

theorem firstFault_cons :
    FirstFault (d :: nodes) e ↔ d.Fault e ∨ ¬ d.IllFormed ∧ FirstFault nodes e := by
  constructor
  · rintro ⟨before, node, after, hnodes, hbefore, hfault⟩
    cases before with
    | nil =>
      obtain ⟨rfl, rfl⟩ := List.cons.inj hnodes
      exact .inl hfault
    | cons n before =>
      obtain ⟨rfl, rfl⟩ := List.cons.inj hnodes
      obtain ⟨hfirst, hbefore⟩ := List.forall_mem_cons.mp hbefore
      exact .inr ⟨hfirst, before, node, after, rfl, hbefore, hfault⟩
  · rintro (hfault | ⟨hfirst, before, node, after, rfl, hbefore, hfault⟩)
    · exact ⟨[], d, nodes, rfl, fun _ => nofun, hfault⟩
    · exact ⟨d :: before, node, after, rfl, List.forall_mem_cons.mpr ⟨hfirst, hbefore⟩, hfault⟩

theorem FirstFault.exists_illFormed (h : FirstFault nodes e) : ∃ node ∈ nodes, node.IllFormed := by
  obtain ⟨before, node, after, rfl, _, hfault⟩ := h
  exact ⟨node, List.mem_append_right before List.mem_cons_self, hfault.illFormed⟩

/-- A row with ill-formed nodes has a first fault. -/
theorem exists_firstFault_iff : (∃ e, FirstFault nodes e) ↔ ∃ node ∈ nodes, node.IllFormed := by
  constructor
  · rintro ⟨e, h⟩
    exact h.exists_illFormed
  · rintro ⟨node, hnode, hill⟩
    induction nodes with
    | nil => cases hnode
    | cons d nodes ih =>
      by_cases hd : d.IllFormed
      · obtain ⟨e, hfault⟩ := illFormed_iff_exists_fault.mp hd
        exact ⟨e, firstFault_cons.mpr (.inl hfault)⟩
      · rcases List.mem_cons.mp hnode with rfl | hnode
        · exact absurd hill hd
        · obtain ⟨e, hfirst⟩ := ih hnode
          exact ⟨e, firstFault_cons.mpr (.inr ⟨hd, hfirst⟩)⟩

theorem FirstFault.unique (h : FirstFault nodes e) (h' : FirstFault nodes e') : e = e' := by
  induction nodes with
  | nil =>
    obtain ⟨_, hnode, _⟩ := h.exists_illFormed
    cases hnode
  | cons d nodes ih =>
    rcases firstFault_cons.mp h with hfault | ⟨hwell, hrest⟩
    · rcases firstFault_cons.mp h' with hfault' | ⟨hwell', _⟩
      · exact hfault.unique hfault'
      · exact absurd hfault.illFormed hwell'
    · rcases firstFault_cons.mp h' with hfault' | ⟨_, hrest'⟩
      · exact absurd hfault'.illFormed hwell
      · exact ih hrest hrest'

/-- The outcome is the one that a row of nodes calls for. -/
def Judged {α : Type} (nodes : List Datum) : Except Error α → Prop
  | .ok _ => ∀ node ∈ nodes, ¬ node.IllFormed
  | .error e => FirstFault nodes e

namespace Judged

variable {α β : Type} {x : Except Error α} {f : α → Except Error β}

theorem ok (a : α) : Judged [] (.ok a : Except Error α) := fun _ => nofun

/-- What is done in order is judged by the nodes in order. -/
theorem bind (hx : Judged nodes x) (hf : ∀ a, Judged nodes' (f a)) :
    Judged (nodes ++ nodes') (x >>= f) := by
  cases x with
  | error e =>
    obtain ⟨before, node, after, rfl, hbefore, hfault⟩ := hx
    exact ⟨before, node, after ++ nodes', List.append_assoc .., hbefore, hfault⟩
  | ok a =>
    show Judged (nodes ++ nodes') (f a)
    have hrest := hf a
    cases hfa : f a with
    | error e =>
      rw [hfa] at hrest
      obtain ⟨before, node, after, rfl, hbefore, hfault⟩ := hrest
      exact ⟨nodes ++ before, node, after, (List.append_assoc ..).symm,
        List.forall_mem_append.mpr ⟨hx, hbefore⟩, hfault⟩
    | ok b =>
      rw [hfa] at hrest
      exact List.forall_mem_append.mpr ⟨hx, hrest⟩

/-- Behind a node that is well-formed, its parts decide. -/
theorem node (hd : ¬ d.IllFormed) (hx : Judged nodes x) : Judged (d :: nodes) x := by
  cases x with
  | ok a => exact List.forall_mem_cons.mpr ⟨hd, hx⟩
  | error e => exact firstFault_cons.mpr (.inr ⟨hd, hx⟩)

theorem fault (hd : d.Fault e) : Judged (d :: nodes) (.error e : Except Error α) :=
  firstFault_cons.mpr (.inl hd)

theorem eq_error_iff (hx : Judged nodes x) : x = .error e ↔ FirstFault nodes e := by
  cases x with
  | ok a =>
    constructor
    · exact nofun
    · intro hfirst
      obtain ⟨node, hnode, hill⟩ := hfirst.exists_illFormed
      exact absurd hill (hx node hnode)
  | error e' =>
    constructor
    · intro h
      obtain rfl := Except.error.inj h
      exact hx
    · intro hfirst
      rw [hfirst.unique hx]

/-- Building an expression from others cannot fail. -/
theorem last (hx : Judged nodes x) (g : α → β) :
    Judged nodes (do return g (← x)) := by
  have h := hx.bind fun a => ok (g a)
  rwa [List.append_nil] at h

end Judged

/-! ## Well-formed nodes -/

/-- A form with an accepted number of operands can only be ill-formed where its names are. -/
theorem not_illFormed_special (hhead : Head.ofSymbol symbol = .special form)
    (haccepts : form.arity.accepts operands.length = true)
    (hnames : ∀ names value, operands = [names, value] → ¬ form.Misbinds names) :
    ¬ IllFormed (.list (.sym symbol :: operands)) := by
  intro h
  cases h with
  | count hhead' hcount =>
    obtain rfl := Head.special.inj (hhead.symm.trans hhead')
    exact hcount haccepts
  | importCount hhead' _ => cases hhead.symm.trans hhead'
  | binding hhead' hmisbinds =>
    obtain rfl := Head.special.inj (hhead.symm.trans hhead')
    exact hnames _ _ rfl hmisbinds

theorem not_illFormed_bundle (hhead : Head.ofSymbol symbol = .bundle bundle) (body : Datum) :
    ¬ IllFormed (.list [.sym symbol, body]) := by
  intro h
  cases h with
  | count hhead' _ => cases hhead.symm.trans hhead'
  | importCount _ hcount => exact hcount rfl

theorem not_illFormed_ordinary (hhead : Head.ofSymbol symbol = .ordinary) (operands : List Datum) :
    ¬ IllFormed (.list (.sym symbol :: operands)) := by
  intro h
  cases h with
  | count hhead' _ => cases hhead.symm.trans hhead'
  | importCount hhead' _ => cases hhead.symm.trans hhead'
  | binding hhead' _ => cases hhead.symm.trans hhead'

/-- A list whose head is no symbol is an application. -/
theorem not_illFormed_of_head (hhead : ∀ symbol, head ≠ .sym symbol) (operands : List Datum) :
    ¬ IllFormed (.list (head :: operands)) := by
  intro h
  cases h with
  | count => exact hhead _ rfl
  | importCount => exact hhead _ rfl
  | binding => exact hhead _ rfl

end Datum

namespace Expr

open Datum

variable {symbol : String} {form : SpecialForm} {d target value parameters body : Datum} {e : Error}

/-! ## Analysis -/

/-- A target is looked at before the value that it gets. -/
theorem judged_binding (hhead : Head.ofSymbol symbol = .special form)
    (hform : form = .assignment ∨ form = .definition) (hvalue : Judged value.codeNodes (ofDatum value))
    (build : String → Expr → Expr) :
    Judged (.list [.sym symbol, target, value] :: value.codeNodes)
      (do return build (← target.targetName form) (← ofDatum value)) := by
  have haccepts : form.arity.accepts [target, value].length = true := by
    rcases hform with rfl | rfl <;> rfl
  by_cases htarget : ∃ name, target = .sym name
  · obtain ⟨name, rfl⟩ := htarget
    have hnames : ∀ names value', [.sym name, value] = [names, value'] → ¬ form.Misbinds names := by
      intro names value' heq hmisbinds
      obtain ⟨rfl, -⟩ := List.cons.inj heq
      rcases hform with rfl | rfl
      · exact hmisbinds name rfl
      · exact hmisbinds name rfl
    exact .node (not_illFormed_special hhead haccepts hnames) (hvalue.last (build name))
  · have hnot : ∀ name, target ≠ .sym name := fun name heq => htarget ⟨name, heq⟩
    rw [targetName_of_not_symbol hnot]
    exact .fault (.target hhead hform hnot)

/-- Parameters are looked at before the body. -/
theorem judged_lambda (hhead : Head.ofSymbol symbol = .special .lambda)
    (hbody : Judged body.codeNodes (ofDatum body)) :
    Judged (.list [.sym symbol, parameters, body] :: body.codeNodes)
      (do return lambda (← parameters.parameters) (← ofDatum body)) := by
  by_cases hlist : ∃ items, parameters = .list items
  · obtain ⟨items, rfl⟩ := hlist
    rcases distinct_or_fault items with ⟨names, hdistinct, rfl⟩ | ⟨e, hfault⟩
    · have hnames : ∀ names' body', [.list (names.map .sym), body] = [names', body'] →
          ¬ SpecialForm.lambda.Misbinds names' := by
        intro names' body' heq hmisbinds
        obtain ⟨rfl, -⟩ := List.cons.inj heq
        exact hmisbinds ⟨names, hdistinct, rfl⟩
      rw [parameters_of_nodup hdistinct]
      exact .node (not_illFormed_special hhead rfl hnames) (hbody.last (lambda names))
    · rw [Datum.parameters, parameterNames_of_fault hfault]
      exact .fault (.parameter hhead hfault)
  · have hnot : ∀ items, parameters ≠ .list items := fun items heq => hlist ⟨items, heq⟩
    rw [parameters_of_not_list hnot]
    exact .fault (.parametersNotList hhead hnot)

/-- Analysis gives what the code nodes of a datum call for.  The induction is on the analysis; in each
case the node itself is judged first and then what analysis does with its parts, in order. -/
theorem judged_analysis :
    (∀ d, Judged d.codeNodes (ofDatum d)) ∧ ∀ ds, Judged (ds.flatMap codeNodes) (ofData ds) := by
  refine ofDatum.mutual_induct (fun d => Judged d.codeNodes (ofDatum d))
    (fun ds => Judged (ds.flatMap codeNodes) (ofData ds))
    ?number ?string ?symbol ?empty ?quote ?ifThen ?ifElse ?assign ?define ?lambda ?sequence ?unexpected
    ?miscounted ?withBundle ?miscountedImport ?named ?application ?nil ?cons
  case number =>
    intro x
    rw [codeNodes_eq, ofDatum]
    exact .node nofun (.ok _)
  case string =>
    intro text
    rw [codeNodes_eq, ofDatum]
    exact .node nofun (.ok _)
  case symbol =>
    intro name
    rw [codeNodes_eq, ofDatum]
    exact .node nofun (.ok _)
  case empty =>
    rw [codeNodes_eq, ofDatum]
    exact .node nofun (.ok _)
  case quote =>
    intro symbol datum hhead hchecked
    rw [codeNodes_eq]
    simp only [codeParts, ofDatum, hhead, hchecked]
    exact .node (not_illFormed_special hhead (Arity.check_eq_ok_iff.mp hchecked) fun _ _ _ h => h) (.ok _)
  case ifThen =>
    intro symbol test yes hhead hchecked htest hyes
    rw [codeNodes_eq]
    simp only [codeParts, ofDatum, hhead, hchecked, List.flatMap_cons, List.flatMap_nil,
      List.append_nil]
    exact .node (not_illFormed_special hhead (Arity.check_eq_ok_iff.mp hchecked) fun _ _ _ h => h)
      (.bind htest fun t => hyes.last (ifThen t))
  case ifElse =>
    intro symbol test yes no hhead hchecked htest hyes hno
    rw [codeNodes_eq]
    simp only [codeParts, ofDatum, hhead, hchecked, List.flatMap_cons, List.flatMap_nil,
      List.append_nil]
    exact .node (not_illFormed_special hhead (Arity.check_eq_ok_iff.mp hchecked) fun _ _ _ h => h)
      (.bind htest fun t => .bind hyes fun y => hno.last (ifElse t y))
  case assign =>
    intro symbol target value hhead hchecked hvalue
    rw [codeNodes_eq]
    simp only [codeParts, ofDatum, hhead, hchecked, List.drop_one, List.tail_cons,
      List.flatMap_cons, List.flatMap_nil, List.append_nil]
    exact judged_binding hhead (.inl rfl) hvalue assign
  case define =>
    intro symbol target value hhead hchecked hvalue
    rw [codeNodes_eq]
    simp only [codeParts, ofDatum, hhead, hchecked, List.drop_one, List.tail_cons,
      List.flatMap_cons, List.flatMap_nil, List.append_nil]
    exact judged_binding hhead (.inr rfl) hvalue define
  case lambda =>
    intro symbol parameters body hhead hchecked hbody
    rw [codeNodes_eq]
    simp only [codeParts, ofDatum, hhead, hchecked, List.drop_one, List.tail_cons,
      List.flatMap_cons, List.flatMap_nil, List.append_nil]
    exact judged_lambda hhead hbody
  case sequence =>
    intro symbol steps hhead hchecked hsteps
    rw [codeNodes_eq]
    simp only [codeParts, ofDatum, hhead, hchecked]
    exact .node (not_illFormed_special hhead (Arity.check_eq_ok_iff.mp hchecked) fun _ _ _ h => h) (hsteps.last sequence)
  case unexpected =>
    -- every accepted number of operands has been taken apart in one of the cases above
    intro symbol form operands hquote hthen helse hassign hdefine hlambda hsequence hhead hchecked
    have haccepts := Arity.check_eq_ok_iff.mp hchecked
    cases form with
    | quote =>
      have hcount := Arity.accepts_exact.mp haccepts
      exact match operands, hcount with
        | [datum], _ => (hquote datum rfl rfl).elim
    | conditional =>
      obtain ⟨hleast, hmost⟩ := Arity.accepts_range.mp haccepts
      exact match operands, hleast, hmost with
        | [test, yes], _, _ => (hthen test yes rfl rfl).elim
        | [test, yes, no], _, _ => (helse test yes no rfl rfl).elim
    | assignment =>
      have hcount := Arity.accepts_exact.mp haccepts
      exact match operands, hcount with
        | [target, value], _ => (hassign target value rfl rfl).elim
    | definition =>
      have hcount := Arity.accepts_exact.mp haccepts
      exact match operands, hcount with
        | [target, value], _ => (hdefine target value rfl rfl).elim
    | lambda =>
      have hcount := Arity.accepts_exact.mp haccepts
      exact match operands, hcount with
        | [parameters, body], _ => (hlambda parameters body rfl rfl).elim
    | sequence => exact (hsequence rfl).elim
  case miscounted =>
    intro symbol operands form hhead e hchecked
    obtain ⟨hcount, rfl⟩ := Arity.check_eq_error_iff.mp hchecked
    rw [codeNodes_eq]
    simp only [ofDatum, hhead, hchecked]
    exact .fault (.count hhead hcount)
  case withBundle =>
    intro symbol bundle hhead body hbody
    rw [codeNodes_eq]
    simp only [codeParts, ofDatum, hhead, List.flatMap_cons, List.flatMap_nil, List.append_nil]
    exact .node (not_illFormed_bundle hhead body) (hbody.last (withBundle bundle))
  case miscountedImport =>
    intro symbol bundle hhead operands hsingle
    rw [codeNodes_eq]
    have hcount : ¬ importArity.accepts operands.length := by
      intro haccepts
      obtain ⟨body, hbody⟩ := List.length_eq_one_iff.mp (Arity.accepts_exact.mp haccepts)
      exact hsingle body hbody
    rw [(Fault.importCount hhead hcount).ofDatum]
    exact .fault (.importCount hhead hcount)
  case named =>
    intro symbol operands hhead hoperands
    rw [codeNodes_eq]
    simp only [codeParts, ofDatum, hhead, List.flatMap_cons]
    have hsymbol : Judged (codeNodes (.sym symbol)) (.ok (name symbol) : Except Error Expr) := by
      rw [codeNodes_eq]
      exact .node nofun (.ok _)
    exact .node (not_illFormed_ordinary hhead operands)
      (hsymbol.bind fun _ => hoperands.last (application (name symbol)))
  case application =>
    intro head operands hsymbol hhead hoperands
    rw [codeNodes_eq, codeParts_of_head hsymbol, List.flatMap_cons, ofDatum]
    · exact .node (not_illFormed_of_head hsymbol operands)
        (hhead.bind fun callee => hoperands.last (application callee))
    · exact hsymbol
  case nil => exact .ok []
  case cons =>
    intro d ds hd hds
    rw [List.flatMap_cons, ofData]
    exact hd.bind fun e => hds.last (e :: ·)

/-- Analysis accepts a datum exactly if none of its code nodes is ill-formed, and otherwise reports the
fault of the first one that is.  A form whose number of operands is accepted can be taken apart, and
whatever is quoted is accepted. -/
theorem analysis_reports_firstFault (d : Datum) :
    ((∃ e, ofDatum d = .error e) ↔ ∃ node ∈ d.codeNodes, node.IllFormed) ∧
    (∀ e, ofDatum d = .error e ↔ FirstFault d.codeNodes e) ∧
    (∀ form got, ofDatum d ≠ .error (.unexpectedOperands form got)) ∧
    ofDatum (.list [.sym SpecialForm.quote.keyword, d]) = .ok (quote (.ofDatum d)) := by
  have herror : ∀ e, ofDatum d = .error e ↔ FirstFault d.codeNodes e :=
    fun e => (judged_analysis.1 d).eq_error_iff
  refine ⟨(exists_congr herror).trans exists_firstFault_iff, herror, ?_, rfl⟩
  intro form got h
  -- no fault of a node is this error
  obtain ⟨_, node, _, _, _, hfault⟩ := (herror _).mp h
  cases hfault with
  | parameter _ hitems => cases hitems

/-- The names of an outer form come before the number of operands of an inner one. -/
example : ofDatum (.list [.sym "begin", .sym "f",
    .list [.sym "lambda", .list [.sym "a", .sym "a"], .list [.sym "quote"]], .list [.sym "if"]]) =
      .error (.duplicateParameter "a") := rfl

end Expr

end MiniLisp
