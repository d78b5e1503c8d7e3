import MiniLisp.Proofs.Expr.Rules
import MiniLisp.Proofs.Reader.OnePass
import MiniLisp.Proofs.Value.Quoted

/-!
# Sources of expressions

Analysis loses nothing of a datum: `Expr.source` writes the datum down again from the expression alone.
So different data have different expressions, and what looks alike is kept apart: `()` from `(())`, a
choice with two operands from one with three, a literal from the same datum under a quote.  Numbers that
compare as equal may still be different, so `==` is treated by itself: sources of equal expressions are
equal, and equal data stand for equal expressions.
-/

namespace MiniLisp

/-! ## Heads -/

/-- The list of a special form with its operands. -/
def Datum.ofForm (form : SpecialForm) (operands : List Datum) : Datum :=
  .list (.sym form.keyword :: operands)

@[simp] theorem Datum.ofForm_beq_ofForm {form : SpecialForm} {operands operands' : List Datum} :
    (ofForm form operands).beq (ofForm form operands') = beqItems operands operands' := by
  simp [ofForm, beq, beqItems]

/-- The symbol that imports a bundle. -/
def bundleSymbol (name : String) : String := String.ofList (bundleMark :: name.toList)

namespace Head

variable {symbol bundle : String} {form : SpecialForm}

theorem eq_keyword (h : ofSymbol symbol = .special form) : symbol = form.keyword := by
  unfold ofSymbol at h
  split at h
  · rename_i found hfound
    obtain rfl := Head.special.inj h
    have hkeyword := List.find?_some hfound
    exact (eq_of_beq hkeyword).symm
  · split at h <;> cases h

theorem eq_bundleSymbol (h : ofSymbol symbol = .bundle bundle) : symbol = bundleSymbol bundle := by
  unfold ofSymbol at h
  split at h
  · cases h
  · split at h
    · rename_i found hfound
      obtain rfl := Head.bundle.inj h
      unfold bundleName? at hfound
      split at hfound
      · rename_i mark name hsymbol
        split at hfound
        · rename_i hmark
          obtain rfl := Option.some.inj hfound
          rw [bundleSymbol, String.toList_ofList, ← hmark.1, ← hsymbol, String.ofList_toList]
        · cases hfound
      · cases hfound
    · cases h

end Head

namespace Expr

open Datum

variable {d d' : Datum} {ds ds' : List Datum} {e e' callee callee' : Expr} {es es' : List Expr}

/-! ## Sources -/

mutual

/-- The datum that stands for the expression. -/
def source : Expr → Datum
  | literal v => v.toDatum
  | name n => .sym n
  | quote v => .ofForm .quote [v.toDatum]
  | ifThen test yes => .ofForm .conditional [test.source, yes.source]
  | ifElse test yes no => .ofForm .conditional [test.source, yes.source, no.source]
  | assign target value => .ofForm .assignment [.sym target, value.source]
  | define target value => .ofForm .definition [.sym target, value.source]
  | lambda parameters body => .ofForm .lambda [.list (parameters.map .sym), body.source]
  | sequence steps => .ofForm .sequence (sources steps)
  | withBundle bundle body => .list [.sym (bundleSymbol bundle), body.source]
  | application (literal (.list [])) [] => .list []
  | application callee arguments => .list (callee.source :: sources arguments)

/-- The data that stand for the expressions, in order. -/
def sources : List Expr → List Datum
  | [] => []
  | e :: es => e.source :: sources es

end

theorem source_application (h : callee = literal (.list []) → es = [] → False) :
    source (application callee es) = .list (callee.source :: sources es) := by
  rw [source]
  exact h

theorem source_of_standsFor (h : d.StandsFor e) : e.source = d := by
  refine @StandsFor.rec (fun d e _ => e.source = d) (fun ds es _ => sources es = ds)
    ?num ?str ?sym ?empty ?quote ?ifThen ?ifElse ?assign ?define ?lambda ?sequence ?withBundle ?named
    ?application ?nil ?cons d e h
  case num => exact fun x => rfl
  case str => exact fun text => rfl
  case sym => exact fun name => rfl
  case empty => rfl
  case quote =>
    intro symbol hhead d
    rw [Head.eq_keyword hhead, source, Value.toDatum_ofDatum, ofForm]
  case ifThen =>
    intro symbol test yes t y hhead _ _ htest hyes
    rw [Head.eq_keyword hhead, source, htest, hyes, ofForm]
  case ifElse =>
    intro symbol test yes no t y n hhead _ _ _ htest hyes hno
    rw [Head.eq_keyword hhead, source, htest, hyes, hno, ofForm]
  case assign =>
    intro symbol value v hhead target _ hvalue
    rw [Head.eq_keyword hhead, source, hvalue, ofForm]
  case define =>
    intro symbol value v hhead target _ hvalue
    rw [Head.eq_keyword hhead, source, hvalue, ofForm]
  case lambda =>
    intro symbol names body b hhead _ _ hbody
    rw [Head.eq_keyword hhead, source, hbody, ofForm]
  case sequence =>
    intro symbol steps es hhead _ hsteps
    rw [Head.eq_keyword hhead, source, hsteps, ofForm]
  case withBundle =>
    intro symbol bundle body b hhead _ hbody
    rw [Head.eq_bundleSymbol hhead, source, hbody]
  case named =>
    intro symbol operands es _ _ hoperands
    have hname : name symbol = literal (.list []) → es = [] → False := nofun
    rw [source_application hname, source, hoperands]
  case application =>
    intro head operands callee es _ hcallee _ hhead hoperands
    -- only `()` stands for an application of a list
    have hlist : callee = literal (.list []) → es = [] → False := by
      rintro rfl
      cases hcallee
    rw [source_application hlist, hhead, hoperands]
  case nil => rfl
  case cons =>
    intro d ds e es _ _ hd hds
    rw [sources, hd, hds]

/-- A datum can be told from its expression. -/
theorem source_of_ofDatum (h : ofDatum d = .ok e) : e.source = d :=
  source_of_standsFor (ofDatum_eq_ok_iff.mp h)

/-! ## Sources of equal expressions -/

/-- No other expression equals the literal `()`. -/
theorem eq_literal_nil_iff_of_beq (h : e.beq e' = true) :
    e = literal (.list []) ↔ e' = literal (.list []) := by
  constructor
  · rintro rfl
    cases e' with
    | literal v =>
      cases v with
      | list vs =>
        cases vs with
        | nil => rfl
        | cons v vs => cases h
      | _ => cases h
    | _ => cases h
  · rintro rfl
    cases e with
    | literal v =>
      cases v with
      | list vs =>
        cases vs with
        | nil => rfl
        | cons v vs => cases h
      | _ => cases h
    | _ => cases h

theorem eq_nil_iff_of_beqAll (h : beqAll es es' = true) : es = [] ↔ es' = [] := by
  cases es with
  | nil =>
    cases es' with
    | nil => exact Iff.rfl
    | cons e' es' => cases h
  | cons e es =>
    cases es' with
    | nil => cases h
    | cons e' es' => simp

/-- Expressions that are equal come from data that are equal. -/
theorem source_beq_source :
    (∀ e e' : Expr, e.beq e' = true → e.source.beq e'.source = true) ∧
      ∀ es es', beqAll es es' = true → beqItems (sources es) (sources es') = true := by
  refine Expr.beq.mutual_induct (fun e e' => e.beq e' = true → e.source.beq e'.source = true)
    (fun es es' => beqAll es es' = true → beqItems (sources es) (sources es') = true)
    ?literal ?name ?quote ?ifThen ?ifElse ?assign ?define ?lambda ?sequence ?withBundle ?application
    ?apart ?none ?cons ?longer
  case literal => exact Value.toDatum_beq_toDatum.1
  case name => exact fun m n h => h
  case quote =>
    intro v w h
    rw [source, source, ofForm_beq_ofForm, beqItems, Value.toDatum_beq_toDatum.1 v w h]
    rfl
  case ifThen =>
    intro t y t' y' ht hy h
    obtain ⟨htest, hyes⟩ := Bool.and_eq_true_iff.mp h
    simp [source, beqItems, ht htest, hy hyes]
  case ifElse =>
    intro t y n t' y' n' ht hy hn h
    obtain ⟨h, hno⟩ := Bool.and_eq_true_iff.mp h
    obtain ⟨htest, hyes⟩ := Bool.and_eq_true_iff.mp h
    simp [source, beqItems, ht htest, hy hyes, hn hno]
  case assign =>
    intro m e n f he h
    obtain ⟨hname, hvalue⟩ := Bool.and_eq_true_iff.mp h
    simp [source, beqItems, eq_of_beq hname, he hvalue]
  case define =>
    intro m e n f he h
    obtain ⟨hname, hvalue⟩ := Bool.and_eq_true_iff.mp h
    simp [source, beqItems, eq_of_beq hname, he hvalue]
  case lambda =>
    intro ps e qs f he h
    obtain ⟨hnames, hbody⟩ := Bool.and_eq_true_iff.mp h
    simp [source, Datum.beq, beqItems, eq_of_beq hnames, he hbody]
  case sequence =>
    intro es fs hes h
    rw [source, source, ofForm_beq_ofForm]
    exact hes h
  case withBundle =>
    intro b e c f he h
    obtain ⟨hname, hbody⟩ := Bool.and_eq_true_iff.mp h
    simp [source, Datum.beq, beqItems, eq_of_beq hname, he hbody]
  case application =>
    intro callee es callee' es' hcallee hes h
    obtain ⟨hfirst, hrest⟩ := Bool.and_eq_true_iff.mp h
    -- the source of `()` is no list of sources, so it is told apart first
    by_cases hempty : callee = literal (.list []) ∧ es = []
    · have hcallee' := (eq_literal_nil_iff_of_beq hfirst).mp hempty.1
      have hes' := (eq_nil_iff_of_beqAll hrest).mp hempty.2
      rw [hempty.1, hempty.2, hcallee', hes']
      rfl
    · have hempty' : callee' = literal (.list []) → es' = [] → False := fun hcallee' hes' =>
        hempty ⟨(eq_literal_nil_iff_of_beq hfirst).mpr hcallee', (eq_nil_iff_of_beqAll hrest).mpr hes'⟩
      rw [source_application (fun hcallee hes => hempty ⟨hcallee, hes⟩), source_application hempty']
      exact Bool.and_eq_true_iff.mpr ⟨hcallee hfirst, hes hrest⟩
  case apart =>
    intros
    rename_i h
    rw [Expr.beq] at h
    · cases h
    all_goals assumption
  case none => exact fun _ => rfl
  case cons =>
    intro e es f fs he hes h
    obtain ⟨hfirst, hrest⟩ := Bool.and_eq_true_iff.mp h
    exact Bool.and_eq_true_iff.mpr ⟨he hfirst, hes hrest⟩
  case longer =>
    intro es es' hnone hcons h
    rw [beqAll] at h
    · cases h
    all_goals assumption

/-! ## Expressions of equal data -/

/-- Data that are equal to a datum stand for expressions that are equal to the one of the datum. -/
theorem exists_of_beq (h : d.StandsFor e) :
    ∀ d', d.beq d' = true → ∃ e', d'.StandsFor e' ∧ e.beq e' = true := by
  -- a datum that is equal has the same shape, so the same rule applies to it
  refine @StandsFor.rec (fun d e _ => ∀ d', d.beq d' = true → ∃ e', d'.StandsFor e' ∧ e.beq e' = true)
    (fun ds es _ => ∀ ds', beqItems ds ds' = true → ∃ es', StandFor ds' es' ∧ beqAll es es' = true)
    ?num ?str ?sym ?empty ?quote ?ifThen ?ifElse ?assign ?define ?lambda ?sequence ?withBundle ?named
    ?application ?nil ?cons d e h
  case num =>
    intro x d' hd'
    cases d' with
    | num y => exact ⟨_, .num y, hd'⟩
    | _ => cases hd'
  case str =>
    intro text d' hd'
    cases d' with
    | str text' => exact ⟨_, .str text', hd'⟩
    | _ => cases hd'
  case sym =>
    intro x d' hd'
    obtain rfl := eq_sym_of_beq hd'
    exact ⟨_, .sym x, hd'⟩
  case empty =>
    intro d' hd'
    obtain ⟨items, rfl, hitems⟩ := eq_list_of_beq hd'
    obtain rfl := eq_nil_of_beqItems hitems
    exact ⟨_, .empty, rfl⟩
  case quote =>
    intro symbol hhead d d' hd'
    obtain ⟨operands, rfl, hoperands⟩ := eq_headed_of_beq hd'
    obtain ⟨datum, rfl, hdatum⟩ := eq_single_of_beqItems hoperands
    exact ⟨_, .quote hhead datum, Value.ofDatum_beq_ofDatum.1 d datum hdatum⟩
  case ifThen =>
    intro symbol test yes t y hhead _ _ htest hyes d' hd'
    obtain ⟨operands, rfl, hoperands⟩ := eq_headed_of_beq hd'
    obtain ⟨test', yes', rfl, htest', hyes'⟩ := eq_pair_of_beqItems hoperands
    obtain ⟨t', ht', htt'⟩ := htest test' htest'
    obtain ⟨y', hy', hyy'⟩ := hyes yes' hyes'
    exact ⟨_, .ifThen hhead ht' hy', by simp [Expr.beq, htt', hyy']⟩
  case ifElse =>
    intro symbol test yes no t y n hhead _ _ _ htest hyes hno d' hd'
    obtain ⟨operands, rfl, hoperands⟩ := eq_headed_of_beq hd'
    obtain ⟨test', rest, rfl, htest', hrest⟩ := eq_cons_of_beqItems hoperands
    obtain ⟨yes', no', rfl, hyes', hno'⟩ := eq_pair_of_beqItems hrest
    obtain ⟨t', ht', htt'⟩ := htest test' htest'
    obtain ⟨y', hy', hyy'⟩ := hyes yes' hyes'
    obtain ⟨n', hn', hnn'⟩ := hno no' hno'
    exact ⟨_, .ifElse hhead ht' hy' hn', by simp [Expr.beq, htt', hyy', hnn']⟩
  case assign =>
    intro symbol value v hhead target _ hvalue d' hd'
    obtain ⟨operands, rfl, hoperands⟩ := eq_headed_of_beq hd'
    obtain ⟨target', value', rfl, htarget', hvalue'⟩ := eq_pair_of_beqItems hoperands
    obtain rfl := eq_sym_of_beq htarget'
    obtain ⟨v', hv', hvv'⟩ := hvalue value' hvalue'
    exact ⟨_, .assign hhead target hv', by simp [Expr.beq, hvv']⟩
  case define =>
    intro symbol value v hhead target _ hvalue d' hd'
    obtain ⟨operands, rfl, hoperands⟩ := eq_headed_of_beq hd'
    obtain ⟨target', value', rfl, htarget', hvalue'⟩ := eq_pair_of_beqItems hoperands
    obtain rfl := eq_sym_of_beq htarget'
    obtain ⟨v', hv', hvv'⟩ := hvalue value' hvalue'
    exact ⟨_, .define hhead target hv', by simp [Expr.beq, hvv']⟩
  case lambda =>
    intro symbol names body b hhead hnames _ hbody d' hd'
    obtain ⟨operands, rfl, hoperands⟩ := eq_headed_of_beq hd'
    obtain ⟨parameters, body', rfl, hparameters, hbody'⟩ := eq_pair_of_beqItems hoperands
    obtain ⟨items, rfl, hitems⟩ := eq_list_of_beq hparameters
    obtain rfl := eq_syms_of_beqItems hitems
    obtain ⟨b', hb', hbb'⟩ := hbody body' hbody'
    exact ⟨_, .lambda hhead hnames hb', by simp [Expr.beq, hbb']⟩
  case sequence =>
    intro symbol steps es hhead _ hsteps d' hd'
    obtain ⟨steps', rfl, hsteps'⟩ := eq_headed_of_beq hd'
    obtain ⟨es', hes', heses'⟩ := hsteps steps' hsteps'
    exact ⟨_, .sequence hhead hes', heses'⟩
  case withBundle =>
    intro symbol bundle body b hhead _ hbody d' hd'
    obtain ⟨operands, rfl, hoperands⟩ := eq_headed_of_beq hd'
    obtain ⟨body', rfl, hbody'⟩ := eq_single_of_beqItems hoperands
    obtain ⟨b', hb', hbb'⟩ := hbody body' hbody'
    exact ⟨_, .withBundle hhead hb', by simp [Expr.beq, hbb']⟩
  case named =>
    intro symbol operands es hhead _ hoperands d' hd'
    obtain ⟨operands', rfl, hoperands'⟩ := eq_headed_of_beq hd'
    obtain ⟨es', hes', heses'⟩ := hoperands operands' hoperands'
    exact ⟨_, .named hhead hes', by simp [Expr.beq, heses']⟩
  case application =>
    intro head operands callee es hsymbol _ _ hhead hoperands d' hd'
    obtain ⟨items, rfl, hitems⟩ := eq_list_of_beq hd'
    obtain ⟨head', operands', rfl, hhead', hoperands'⟩ := eq_cons_of_beqItems hitems
    obtain ⟨callee', hcallee', hcc'⟩ := hhead head' hhead'
    obtain ⟨es', hes', heses'⟩ := hoperands operands' hoperands'
    have hsymbol' : ∀ symbol, head' ≠ .sym symbol := by
      rintro symbol rfl
      exact hsymbol symbol (sym_of_beq_sym hhead')
    exact ⟨_, .application hsymbol' hcallee' hes', by simp [Expr.beq, hcc', heses']⟩
  case nil =>
    intro ds' hds'
    obtain rfl := eq_nil_of_beqItems hds'
    exact ⟨[], .nil, rfl⟩
  case cons =>
    intro d ds e es _ _ hd hds items hitems
    obtain ⟨d', ds', rfl, hd', hds'⟩ := eq_cons_of_beqItems hitems
    obtain ⟨e', he', hee'⟩ := hd d' hd'
    obtain ⟨es', hes', heses'⟩ := hds ds' hds'
    exact ⟨e' :: es', .cons he' hes', by simp [beqAll, hee', heses']⟩

/-- The steps of a sequence are analysed one by one, and so are the forms of a text. -/
theorem ofDatum_sequence (h : ofData ds = .ok es) :
    ofDatum (.ofForm .sequence ds) = .ok (sequence es) := by
  simp only [ofForm, ofDatum, Head.ofSymbol, SpecialForm.ofKeyword?_keyword, h]
  rfl

theorem beqAll_eq (es es' : List Expr) : beqAll es es' = (es == es') := by
  induction es generalizing es' with
  | nil => cases es' <;> rfl
  | cons e es ih =>
    cases es' with
    | nil => rfl
    | cons e' es' =>
      rw [beqAll, ih, List.cons_beq_cons]
      rfl

/-- Different data have different expressions. -/
theorem eq_iff_of_ofDatum (h : ofDatum d = .ok e) (h' : ofDatum d' = .ok e') : e = e' ↔ d = d' := by
  constructor
  · rintro rfl
    rw [← source_of_ofDatum h, source_of_ofDatum h']
  · rintro rfl
    exact Except.ok.inj (h.symm.trans h')

/-- Analysis keeps what is equal and what is not. -/
theorem beq_of_ofDatum (h : ofDatum d = .ok e) (h' : ofDatum d' = .ok e') : e.beq e' = d.beq d' := by
  rw [Bool.eq_iff_iff]
  constructor
  · intro hequal
    have hsource := source_beq_source.1 e e' hequal
    rwa [source_of_ofDatum h, source_of_ofDatum h'] at hsource
  · intro hequal
    obtain ⟨e'', he'', hbeq⟩ := exists_of_beq (ofDatum_eq_ok_iff.mp h) d' hequal
    obtain rfl := Except.ok.inj (h'.symm.trans (ofDatum_eq_ok_iff.mpr he''))
    exact hbeq

/-- Analysis loses no information: expressions are the same exactly if their data are, and compare as
equal exactly if their data do.  So it is with the expressions and the forms of program texts. -/
theorem analysis_injective :
    (∀ {d d' : Datum} {e e' : Expr}, ofDatum d = .ok e → ofDatum d' = .ok e' →
      (e = e' ↔ d = d') ∧ (e == e') = (d == d')) ∧
    ∀ {ip ip' : Interpreter} {text text' : String} {forms forms' : List Datum} {es es' : List Expr},
      ip.read text = .ok forms → ip'.read text' = .ok forms' → ip.analyze text = .ok es →
      ip'.analyze text' = .ok es' → (es = es' ↔ forms = forms') ∧ (es == es') = (forms == forms') := by
  constructor
  · intro d d' e e' h h'
    exact ⟨eq_iff_of_ofDatum h h', beq_of_ofDatum h h'⟩
  · intro ip ip' text text' forms forms' es es' hread hread' hes hes'
    rw [Interpreter.analyze, hread] at hes
    rw [Interpreter.analyze, hread'] at hes'
    -- a text is a sequence of its forms, so the first part speaks of it as well
    have hsequence := ofDatum_sequence hes
    have hsequence' := ofDatum_sequence hes'
    constructor
    · have hiff := eq_iff_of_ofDatum hsequence hsequence'
      simpa [ofForm] using hiff
    · have hbeq := beq_of_ofDatum hsequence hsequence'
      rwa [ofForm_beq_ofForm, Expr.beq, beqAll_eq, beqItems_eq] at hbeq

/-- `()` and `(())` are kept apart, and so are a choice without a second branch and one whose second
branch is `()`. -/
theorem analysis_injective_nothing :
    let ip : Interpreter := ⟨⟨0, 2⟩, fun _ => none⟩
    let nothing := application (literal (.list [])) []
    let short := Datum.list [.sym "if", .sym "a", .sym "b"]
    let long := Datum.list [.sym "if", .sym "a", .sym "b", .list []]
    let es := [ifThen (name "a") (name "b")]
    let es' := [ifElse (name "a") (name "b") nothing]
    (ofDatum (.list []) = .ok nothing ∧ ofDatum (.list [.list []]) = .ok (application nothing []) ∧
      nothing ≠ application nothing []) ∧
    ip.read "(if a b)" = .ok [short] ∧ ip.read "(if a b ())" = .ok [long] ∧
      ip.analyze "(if a b)" = .ok es ∧ ip.analyze "(if a b ())" = .ok es' ∧ es ≠ es' ∧
      (es == es') = ([short] == [long]) := by
  intro ip nothing short long es es'
  have hnothing : ofDatum (.list []) = .ok nothing := rfl
  have hcall : ofDatum (.list [.list []]) = .ok (application nothing []) := rfl
  have hread : ip.read "(if a b)" = .ok [short] := Interpreter.read_of_scan rfl rfl (by decide)
  have hread' : ip.read "(if a b ())" = .ok [long] := Interpreter.read_of_scan rfl rfl (by decide)
  have hes : ip.analyze "(if a b)" = .ok es := by
    rw [Interpreter.analyze, hread]
    rfl
  have hes' : ip.analyze "(if a b ())" = .ok es' := by
    rw [Interpreter.analyze, hread']
    rfl
  obtain ⟨hdata, _⟩ := analysis_injective.1 hnothing hcall
  obtain ⟨hforms, hequal⟩ := analysis_injective.2 hread hread' hes hes'
  have happart : nothing ≠ application nothing [] := fun heq => by cases hdata.mp heq
  have happart' : es ≠ es' := fun heq => absurd (hforms.mp heq) (by simp [short, long])
  exact ⟨⟨hnothing, hcall, happart⟩, hread, hread', hes, hes', happart', hequal⟩

end Expr

end MiniLisp
