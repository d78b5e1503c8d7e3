import MiniLisp.Proofs.Expr.Faults

/-!
# Analysis by rules

Analysis as a relation: one rule for each kind of datum that stands for an expression, with what it asks
of the parts of the datum (`Datum.StandsFor`).  The analysis of a datum succeeds exactly by these rules
(`Expr.ofDatum_eq_ok_iff`), so what holds of all programs that are accepted is proved by induction on
them and never by unfolding the analysis.
-/

namespace MiniLisp

namespace Datum

mutual

/-- The datum stands for the expression. -/
inductive StandsFor : Datum → Expr → Prop where
  | num (x : Float) : StandsFor (.num x) (.literal (.num x))
  | str (text : String) : StandsFor (.str text) (.literal (.str text))
  | sym (name : String) : StandsFor (.sym name) (.name name)
  /-- An application of nothing. -/
  | empty : StandsFor (.list []) (.application (.literal (.list [])) [])
  | quote {symbol : String} (hhead : Head.ofSymbol symbol = .special .quote) (d : Datum) :
      StandsFor (.list [.sym symbol, d]) (.quote (.ofDatum d))
  | ifThen {symbol : String} {test yes : Datum} {t y : Expr}
      (hhead : Head.ofSymbol symbol = .special .conditional) (htest : StandsFor test t)
      (hyes : StandsFor yes y) : StandsFor (.list [.sym symbol, test, yes]) (.ifThen t y)
  | ifElse {symbol : String} {test yes no : Datum} {t y n : Expr}
      (hhead : Head.ofSymbol symbol = .special .conditional) (htest : StandsFor test t)
      (hyes : StandsFor yes y) (hno : StandsFor no n) :
      StandsFor (.list [.sym symbol, test, yes, no]) (.ifElse t y n)
  | assign {symbol : String} {value : Datum} {v : Expr}
      (hhead : Head.ofSymbol symbol = .special .assignment) (target : String)
      (hvalue : StandsFor value v) :
      StandsFor (.list [.sym symbol, .sym target, value]) (.assign target v)
  | define {symbol : String} {value : Datum} {v : Expr}
      (hhead : Head.ofSymbol symbol = .special .definition) (target : String)
      (hvalue : StandsFor value v) :
      StandsFor (.list [.sym symbol, .sym target, value]) (.define target v)
  | lambda {symbol : String} {names : List String} {body : Datum} {b : Expr}
      (hhead : Head.ofSymbol symbol = .special .lambda) (hnames : names.Nodup)
      (hbody : StandsFor body b) :
      StandsFor (.list [.sym symbol, .list (names.map .sym), body]) (.lambda names b)
  | sequence {symbol : String} {steps : List Datum} {es : List Expr}
      (hhead : Head.ofSymbol symbol = .special .sequence) (hsteps : StandFor steps es) :
      StandsFor (.list (.sym symbol :: steps)) (.sequence es)
  | withBundle {symbol bundle : String} {body : Datum} {b : Expr}
      (hhead : Head.ofSymbol symbol = .bundle bundle) (hbody : StandsFor body b) :
      StandsFor (.list [.sym symbol, body]) (.withBundle bundle b)
  | named {symbol : String} {operands : List Datum} {es : List Expr}
      (hhead : Head.ofSymbol symbol = .ordinary) (hoperands : StandFor operands es) :
      StandsFor (.list (.sym symbol :: operands)) (.application (.name symbol) es)
  | application {head : Datum} {operands : List Datum} {callee : Expr} {es : List Expr}
      (hsymbol : ∀ symbol, head ≠ .sym symbol) (hhead : StandsFor head callee)
      (hoperands : StandFor operands es) :
      StandsFor (.list (head :: operands)) (.application callee es)

/-- The data stand for the expressions, one for one. -/
inductive StandFor : List Datum → List Expr → Prop where
  | nil : StandFor [] []
  | cons {d : Datum} {ds : List Datum} {e : Expr} {es : List Expr} (h : StandsFor d e)
      (hrest : StandFor ds es) : StandFor (d :: ds) (e :: es)

end

end Datum

namespace Expr

open Datum

variable {d : Datum} {ds : List Datum} {e : Expr} {es : List Expr}

/-! ## Accepted data stand for their expressions -/

theorem ok_of_bind {α β : Type} {x : Except Error α} {f : α → Except Error β} {b : β}
    (h : (x >>= f) = .ok b) : ∃ a, x = .ok a ∧ f a = .ok b := by
  cases x with
  | error e => cases h
  | ok a => exact ⟨a, rfl, h⟩

theorem ofData_cons (h : ofData (d :: ds) = .ok es) :
    ∃ e es', ofDatum d = .ok e ∧ ofData ds = .ok es' ∧ es = e :: es' := by
  rw [ofData] at h
  obtain ⟨e, he, h⟩ := ok_of_bind h
  obtain ⟨es', hes', h⟩ := ok_of_bind h
  exact ⟨e, es', he, hes', (Except.ok.inj h).symm⟩

theorem targetName_eq_ok {form : SpecialForm} {target : Datum} {name : String}
    (h : target.targetName form = .ok name) : target = .sym name := by
  cases target with
  | sym x =>
    obtain rfl := Except.ok.inj h
    rfl
  | num x => cases h
  | str text => cases h
  | list items => cases h

/-- The induction is on the analysis; in each case the steps that have succeeded are taken apart. -/
theorem standsFor_of_analysis :
    (∀ d e, ofDatum d = .ok e → d.StandsFor e) ∧ ∀ ds es, ofData ds = .ok es → StandFor ds es := by
  -- the cases are the branches of the analysis, those that end in an error among them
  refine ofDatum.mutual_induct (fun d => ∀ e, ofDatum d = .ok e → d.StandsFor e)
    (fun ds => ∀ es, ofData ds = .ok es → StandFor ds es)
    ?number ?string ?symbol ?empty ?quote ?ifThen ?ifElse ?assign ?define ?lambda ?sequence ?unexpected
    ?miscounted ?withBundle ?miscountedImport ?named ?application ?nil ?cons
  case number =>
    intro x e he
    obtain rfl := Except.ok.inj he
    exact .num x
  case string =>
    intro text e he
    obtain rfl := Except.ok.inj he
    exact .str text
  case symbol =>
    intro name e he
    obtain rfl := Except.ok.inj he
    exact .sym name
  case empty =>
    intro e he
    obtain rfl := Except.ok.inj he
    exact .empty
  case quote =>
    intro symbol d hhead hchecked e he
    simp only [ofDatum, hhead, hchecked] at he
    obtain rfl := Except.ok.inj he
    exact .quote hhead d
  case ifThen =>
    intro symbol test yes hhead hchecked htest hyes e he
    simp only [ofDatum, hhead, hchecked] at he
    obtain ⟨t, ht, he⟩ := ok_of_bind he
    obtain ⟨y, hy, he⟩ := ok_of_bind he
    obtain rfl := Except.ok.inj he
    exact .ifThen hhead (htest t ht) (hyes y hy)
  case ifElse =>
    intro symbol test yes no hhead hchecked htest hyes hno e he
    simp only [ofDatum, hhead, hchecked] at he
    obtain ⟨t, ht, he⟩ := ok_of_bind he
    obtain ⟨y, hy, he⟩ := ok_of_bind he
    obtain ⟨n, hn, he⟩ := ok_of_bind he
    obtain rfl := Except.ok.inj he
    exact .ifElse hhead (htest t ht) (hyes y hy) (hno n hn)
  case assign =>
    intro symbol target value hhead hchecked hvalue e he
    simp only [ofDatum, hhead, hchecked] at he
    obtain ⟨x, hx, he⟩ := ok_of_bind he
    obtain ⟨v, hv, he⟩ := ok_of_bind he
    obtain rfl := Except.ok.inj he
    obtain rfl := targetName_eq_ok hx
    exact .assign hhead x (hvalue v hv)
  case define =>
    intro symbol target value hhead hchecked hvalue e he
    simp only [ofDatum, hhead, hchecked] at he
    obtain ⟨x, hx, he⟩ := ok_of_bind he
    obtain ⟨v, hv, he⟩ := ok_of_bind he
    obtain rfl := Except.ok.inj he
    obtain rfl := targetName_eq_ok hx
    exact .define hhead x (hvalue v hv)
  case lambda =>
    intro symbol parameters body hhead hchecked hbody e he
    simp only [ofDatum, hhead, hchecked] at he
    obtain ⟨names, hnames, he⟩ := ok_of_bind he
    obtain ⟨b, hb, he⟩ := ok_of_bind he
    obtain rfl := Except.ok.inj he
    obtain ⟨hdistinct, rfl⟩ := parameters_eq_ok_iff.mp hnames
    exact .lambda hhead hdistinct (hbody b hb)
  case sequence =>
    intro symbol steps hhead hchecked hsteps e he
    simp only [ofDatum, hhead, hchecked] at he
    obtain ⟨es, hes, he⟩ := ok_of_bind he
    obtain rfl := Except.ok.inj he
    exact .sequence hhead (hsteps es hes)
  case unexpected =>
    intro symbol form operands hquote hthen helse hassign hdefine hlambda hsequence hhead hchecked e he
    simp only [ofDatum, hhead, hchecked] at he
    cases he
  case miscounted =>
    intro symbol operands form hhead fault hchecked e he
    simp only [ofDatum, hhead, hchecked] at he
    cases he
  case withBundle =>
    intro symbol bundle hhead body hbody e he
    simp only [ofDatum, hhead] at he
    obtain ⟨b, hb, he⟩ := ok_of_bind he
    obtain rfl := Except.ok.inj he
    exact .withBundle hhead (hbody b hb)
  case miscountedImport =>
    intro symbol bundle hhead operands hsingle e he
    simp only [ofDatum, hhead] at he
    cases he
  case named =>
    intro symbol operands hhead hoperands e he
    simp only [ofDatum, hhead] at he
    obtain ⟨es, hes, he⟩ := ok_of_bind he
    obtain rfl := Except.ok.inj he
    exact .named hhead (hoperands es hes)
  case application =>
    intro head operands hsymbol hhead hoperands e he
    rw [ofDatum] at he
    · obtain ⟨callee, hcallee, he⟩ := ok_of_bind he
      obtain ⟨es, hes, he⟩ := ok_of_bind he
      obtain rfl := Except.ok.inj he
      exact .application hsymbol (hhead callee hcallee) (hoperands es hes)
    · exact hsymbol
  case nil =>
    intro es hes
    obtain rfl := Except.ok.inj hes
    exact .nil
  case cons =>
    intro d ds hd hds es hes
    obtain ⟨e, es', he, hes', rfl⟩ := ofData_cons hes
    exact .cons (hd e he) (hds es' hes')

/-! ## Data that stand for expressions are accepted -/

theorem ofDatum_of_standsFor (h : d.StandsFor e) : ofDatum d = .ok e := by
  -- one case for each rule: its premises decide every test of the analysis
  refine @StandsFor.rec (fun d e _ => ofDatum d = .ok e) (fun ds es _ => ofData ds = .ok es)
    ?num ?str ?sym ?empty ?quote ?ifThen ?ifElse ?assign ?define ?lambda ?sequence ?withBundle ?named
    ?application ?nil ?cons d e h
  case num => exact fun x => rfl
  case str => exact fun text => rfl
  case sym => exact fun name => rfl
  case empty => rfl
  case quote =>
    intro symbol hhead d
    simp only [ofDatum, hhead]
    rfl
  case ifThen =>
    intro symbol test yes t y hhead _ _ htest hyes
    simp only [ofDatum, hhead, htest, hyes]
    rfl
  case ifElse =>
    intro symbol test yes no t y n hhead _ _ _ htest hyes hno
    simp only [ofDatum, hhead, htest, hyes, hno]
    rfl
  case assign =>
    intro symbol value v hhead target _ hvalue
    simp only [ofDatum, hhead, hvalue]
    rfl
  case define =>
    intro symbol value v hhead target _ hvalue
    simp only [ofDatum, hhead, hvalue]
    rfl
  case lambda =>
    intro symbol names body b hhead hnames _ hbody
    simp only [ofDatum, hhead, parameters_of_nodup hnames, hbody]
    rfl
  case sequence =>
    intro symbol steps es hhead _ hsteps
    simp only [ofDatum, hhead, hsteps]
    rfl
  case withBundle =>
    intro symbol bundle body b hhead _ hbody
    simp only [ofDatum, hhead, hbody]
    rfl
  case named =>
    intro symbol operands es hhead _ hoperands
    simp only [ofDatum, hhead, hoperands]
    rfl
  case application =>
    intro head operands callee es hsymbol _ _ hhead hoperands
    rw [ofDatum, hhead, hoperands]
    · rfl
    · exact hsymbol
  case nil => rfl
  case cons =>
    intro d ds e es _ _ hd hds
    rw [ofData, hd, hds]
    rfl

/-- Analysis gives an expression exactly if the datum stands for it. -/
theorem ofDatum_eq_ok_iff : ofDatum d = .ok e ↔ d.StandsFor e :=
  ⟨standsFor_of_analysis.1 d e, ofDatum_of_standsFor⟩

end Expr

end MiniLisp
