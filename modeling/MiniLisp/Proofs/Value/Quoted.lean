import MiniLisp.Value.Basic

/-!
# Equality of trees and of the values they are quoted as

Trees are equal if they have the same shape, the same words and numbers that compare as equal.  What is
equal to a tree is told from the tree here, one lemma for each shape.  Quoting keeps a tree apart from
every other tree: it can be told from the value, and values are equal exactly if their trees are.
-/

namespace MiniLisp

/-! ## Equality of trees -/

namespace Datum

variable {d d' : Datum} {ds ds' items : List Datum} {name : String}
variable {names : List String}

@[simp] theorem sym_beq_sym (name : String) : (sym name).beq (sym name) = true := beq_self_eq_true name

theorem eq_list_of_beq (h : (list items).beq d' = true) :
    ∃ items', d' = .list items' ∧ beqItems items items' = true := by
  cases d' with
  | list items' => exact ⟨items', rfl, h⟩
  | num x => cases h
  | str text => cases h
  | sym name => cases h

theorem eq_sym_of_beq (h : (sym name).beq d' = true) : d' = .sym name := by
  cases d' with
  | sym name' => rw [eq_of_beq (show (name == name') = true from h)]
  | num x => cases h
  | str text => cases h
  | list items => cases h

theorem sym_of_beq_sym (h : d.beq (sym name) = true) : d = .sym name := by
  cases d with
  | sym name' => rw [eq_of_beq (show (name' == name) = true from h)]
  | num x => cases h
  | str text => cases h
  | list items => cases h

theorem eq_nil_of_beqItems (h : beqItems [] ds' = true) : ds' = [] := by
  cases ds' with
  | nil => rfl
  | cons d' ds' => cases h

theorem eq_cons_of_beqItems (h : beqItems (d :: ds) items = true) :
    ∃ d' ds', items = d' :: ds' ∧ d.beq d' = true ∧ beqItems ds ds' = true := by
  cases items with
  | nil => cases h
  | cons d' ds' =>
    obtain ⟨hfirst, hrest⟩ := Bool.and_eq_true_iff.mp h
    exact ⟨d', ds', rfl, hfirst, hrest⟩

theorem eq_single_of_beqItems (h : beqItems [d] items = true) : ∃ d', items = [d'] ∧ d.beq d' = true := by
  obtain ⟨d', ds', rfl, hd, hrest⟩ := eq_cons_of_beqItems h
  obtain rfl := eq_nil_of_beqItems hrest
  exact ⟨d', rfl, hd⟩

theorem eq_pair_of_beqItems {first second : Datum} (h : beqItems [first, second] items = true) :
    ∃ first' second', items = [first', second'] ∧ first.beq first' = true ∧
      second.beq second' = true := by
  obtain ⟨first', ds', rfl, hfirst, hrest⟩ := eq_cons_of_beqItems h
  obtain ⟨second', rfl, hsecond⟩ := eq_single_of_beqItems hrest
  exact ⟨first', second', rfl, hfirst, hsecond⟩

/-- A list behind a symbol is equal only to lists behind the same symbol. -/
theorem eq_headed_of_beq (h : (list (sym name :: ds)).beq d' = true) :
    ∃ ds', d' = .list (.sym name :: ds') ∧ beqItems ds ds' = true := by
  obtain ⟨items, rfl, hitems⟩ := eq_list_of_beq h
  obtain ⟨head, ds', rfl, hhead, hrest⟩ := eq_cons_of_beqItems hitems
  obtain rfl := eq_sym_of_beq hhead
  exact ⟨ds', rfl, hrest⟩

@[simp] theorem syms_beqItems_syms (names : List String) :
    beqItems (names.map sym) (names.map sym) = true := by
  induction names with
  | nil => rfl
  | cons name names ih => simp [beqItems, ih]

theorem beqItems_eq (ds ds' : List Datum) : beqItems ds ds' = (ds == ds') := by
  induction ds generalizing ds' with
  | nil => cases ds' <;> rfl
  | cons d ds ih =>
    cases ds' with
    | nil => rfl
    | cons d' ds' =>
      rw [beqItems, ih, List.cons_beq_cons]
      rfl

theorem eq_syms_of_beqItems (h : beqItems (names.map sym) ds' = true) : ds' = names.map .sym := by
  induction names generalizing ds' with
  | nil => exact eq_nil_of_beqItems h
  | cons name names ih =>
    obtain ⟨d', rest, rfl, hfirst, hrest⟩ := eq_cons_of_beqItems h
    rw [eq_sym_of_beq hfirst, ih hrest, List.map_cons]

end Datum

/-! ## Quoted data -/

namespace Value

mutual

/-- The tree that is quoted as the value.  `()` stands in for the values that no tree is quoted as. -/
def toDatum : Value → Datum
  | num x => .num x
  | str text => .str text
  | sym name => .sym name
  | list items => .list (toData items)
  | bool _ | closure _ | primitive _ | nil | unspecified => .list []

/-- The trees that are quoted as the values, in order. -/
def toData : List Value → List Datum
  | [] => []
  | v :: vs => v.toDatum :: toData vs

end

mutual

theorem toDatum_ofDatum : ∀ d, (ofDatum d).toDatum = d
  | .num _ | .str _ | .sym _ => rfl
  | .list items => by rw [ofDatum, toDatum, toData_ofData]

theorem toData_ofData : ∀ ds, toData (ofData ds) = ds
  | [] => rfl
  | d :: ds => by rw [ofData, toData, toDatum_ofDatum, toData_ofData]

end

/-- Trees are equal if the values that they are quoted as are. -/
theorem toDatum_beq_toDatum :
    (∀ v w : Value, v.beq w = true → v.toDatum.beq w.toDatum = true) ∧
      ∀ vs ws, beqItems vs ws = true → Datum.beqItems (toData vs) (toData ws) = true := by
  -- the cases are those of the comparison; in `apart` and `longer` it has failed already
  refine beq.mutual_induct (fun v w => v.beq w = true → v.toDatum.beq w.toDatum = true)
    (fun vs ws => beqItems vs ws = true → Datum.beqItems (toData vs) (toData ws) = true)
    ?num ?str ?sym ?bool ?list ?closure ?primitive ?nil ?unspecified ?apart ?none ?cons ?longer
  case num => exact fun x y h => h
  case str => exact fun s t h => h
  case sym => exact fun m n h => h
  case list => exact fun vs ws hitems h => hitems h
  case bool | closure | primitive => exact fun _ _ _ => rfl
  case nil | unspecified | none => exact fun _ => rfl
  case cons =>
    intro v vs w ws hv hvs h
    obtain ⟨hfirst, hrest⟩ := Bool.and_eq_true_iff.mp h
    exact Bool.and_eq_true_iff.mpr ⟨hv hfirst, hvs hrest⟩
  case apart =>
    intro v w hnum hstr hsym hbool hlist hclosure hprimitive hnil hunspecified h
    rw [beq] at h
    · cases h
    all_goals assumption
  case longer =>
    intro vs ws hnone hcons h
    rw [beqItems] at h
    · cases h
    all_goals assumption

theorem ofDatum_beq_ofDatum :
    (∀ d d' : Datum, d.beq d' = true → (ofDatum d).beq (ofDatum d') = true) ∧
      ∀ ds ds', Datum.beqItems ds ds' = true → beqItems (ofData ds) (ofData ds') = true := by
  refine Datum.beq.mutual_induct (fun d d' => d.beq d' = true → (ofDatum d).beq (ofDatum d') = true)
    (fun ds ds' => Datum.beqItems ds ds' = true → beqItems (ofData ds) (ofData ds') = true)
    ?num ?str ?sym ?list ?apart ?none ?cons ?longer
  case num => exact fun x y h => h
  case str => exact fun s t h => h
  case sym => exact fun m n h => h
  case list => exact fun vs ws hitems h => hitems h
  case none => exact fun _ => rfl
  case cons =>
    intro v vs w ws hv hvs h
    obtain ⟨hfirst, hrest⟩ := Bool.and_eq_true_iff.mp h
    exact Bool.and_eq_true_iff.mpr ⟨hv hfirst, hvs hrest⟩
  case apart =>
    intro d d' hnum hstr hsym hlist h
    rw [Datum.beq] at h
    · cases h
    all_goals assumption
  case longer =>
    intro vs ws hnone hcons h
    rw [Datum.beqItems] at h
    · cases h
    all_goals assumption

end Value

end MiniLisp
