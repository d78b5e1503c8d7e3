import MiniLisp.Proofs.Reader.Written
import MiniLisp.Proofs.Value.Holds

/-!
# Values that texts can spell

Programs take strings and symbols from words, and no word holds a delimiter; they nest lists as the text
does.  Primitives keep to that: joining strings brings no delimiters into them, `cons` and `cdr` give
lists that are nested no deeper than their arguments or one level deep (`Primitive.textual_call`).
The only primitive that could nest lists deeper is the one that collects its arguments.
-/

namespace MiniLisp

/-! ## Atoms of words -/

namespace Datum

variable {letters : List Char}

/-- A word is a number, a string of some of its characters, or a symbol. -/
theorem ofWord_cases (letters : List Char) :
    (∃ x, ofWord letters = .num x) ∨
      (∃ inner, inner ⊆ letters ∧ ofWord letters = .str (String.ofList inner)) ∨
      ofWord letters = .sym (String.ofList letters) := by
  have hinner : ∀ inner, unquote? letters = some inner → inner ⊆ letters := by
    intro inner h
    cases letters with
    | nil => cases h
    | cons quote rest =>
      rw [unquote?] at h
      split at h
      · obtain rfl := Option.some.inj h
        intro c hc
        exact List.mem_cons_of_mem quote (List.dropLast_subset rest hc)
      · cases h
  unfold ofWord
  split
  · rename_i x _
    exact .inl ⟨x, rfl⟩
  · split
    · rename_i inner hunquote
      exact .inr (.inl ⟨inner, hinner inner hunquote, rfl⟩)
    · exact .inr (.inr rfl)

end Datum

/-! ## The kind of values -/

namespace Value

/-- Strings without delimiters, symbols that are words, and lists of which at most `depth` are nested.
All other values belong to the kind, but not the primitive that collects its arguments. -/
inductive Textual : Nat → Value → Prop where
  | num {depth : Nat} (x : Float) : Textual depth (.num x)
  | str {depth : Nat} {text : String} (h : ∀ c ∈ text.toList, Datum.isDelimiter c = false) :
      Textual depth (.str text)
  | sym {depth : Nat} {name : String} (hword : Datum.IsWord name.toList)
      (hname : Datum.ofWord name.toList = .sym name) : Textual depth (.sym name)
  | bool {depth : Nat} (b : Bool) : Textual depth (.bool b)
  | list {depth : Nat} {items : List Value} (h : ∀ v ∈ items, Textual depth v) :
      Textual (depth + 1) (.list items)
  | closure {depth : Nat} (id : ClosureId) : Textual depth (.closure id)
  | primitive {depth : Nat} {p : Primitive} (h : p.operation ≠ .collect) : Textual depth (.primitive p)
  | nil {depth : Nat} : Textual depth .nil
  | unspecified {depth : Nat} : Textual depth .unspecified

variable {m n depth : Nat} {v w : Value}

theorem Textual.mono (h : v.Textual m) (hle : m ≤ n) : v.Textual n := by
  induction h generalizing n with
  | num x => exact .num x
  | str h => exact .str h
  | sym hword hname => exact .sym hword hname
  | bool b => exact .bool b
  | list _ ih =>
    obtain ⟨n, rfl⟩ : ∃ k, n = k + 1 := ⟨n - 1, by omega⟩
    exact .list fun v hv => ih v hv (Nat.le_of_succ_le_succ hle)
  | closure id => exact .closure id
  | primitive h => exact .primitive h
  | nil => exact .nil
  | unspecified => exact .unspecified

/-- A value that is no list belongs to the kind at every depth. -/
theorem Textual.flat (h : v.Textual m) (hflat : ∀ items, v ≠ .list items) : v.Textual n := by
  cases h with
  | num x => exact .num x
  | str h => exact .str h
  | sym hword hname => exact .sym hword hname
  | bool b => exact .bool b
  | list h => exact absurd rfl (hflat _)
  | closure id => exact .closure id
  | primitive h => exact .primitive h
  | nil => exact .nil
  | unspecified => exact .unspecified

/-- The items of a value are nested less deep than the value, if it is not its own item. -/
theorem Textual.items (h : v.Textual (depth + 1)) : ∀ w ∈ v.items, w.Textual depth := by
  intro w hw
  cases v with
  | list items =>
    cases h with
    | list hitems => exact hitems w hw
  | nil => cases hw
  | _ =>
    obtain rfl := List.mem_singleton.mp hw
    exact h.flat nofun

/-- The atom of a word belongs to the kind at every depth. -/
theorem textual_ofWord {letters : List Char} (h : Datum.IsWord letters) (depth : Nat) :
    (ofDatum (Datum.ofWord letters)).Textual depth := by
  rcases Datum.ofWord_cases letters with ⟨x, hx⟩ | ⟨inner, hinner, hstr⟩ | hsym
  · rw [hx]
    exact .num x
  · rw [hstr]
    refine .str fun c hc => ?_
    rw [String.toList_ofList] at hc
    exact h.solid c (hinner hc)
  · rw [hsym]
    refine .sym ?_ ?_
    · rwa [String.toList_ofList]
    · rwa [String.toList_ofList]

theorem mem_ofData {ds : List Datum} (h : v ∈ ofData ds) : ∃ d ∈ ds, v = ofDatum d := by
  induction ds with
  | nil => cases h
  | cons d ds ih =>
    rcases List.mem_cons.mp h with rfl | h
    · exact ⟨d, List.mem_cons_self, rfl⟩
    · obtain ⟨d', hd', hv⟩ := ih h
      exact ⟨d', List.mem_cons_of_mem d hd', hv⟩

/-- Quoted data are nested as deep as they are in the text. -/
theorem textual_ofDatum {d : Datum} (h : d.Readable depth) : (ofDatum d).Textual depth := by
  induction h with
  | word h => exact textual_ofWord h _
  | list _ ih =>
    refine .list fun v hv => ?_
    obtain ⟨d, hd, rfl⟩ := mem_ofData hv
    exact ih d hd

end Value

/-! ## Primitives -/

variable {args : List Value} {v : Value} {depth : Nat}

/-- Strings that are joined bring no delimiter in. -/
theorem Operation.solid_join {texts : List String} (h : texts? args = some texts)
    (hargs : ∀ a ∈ args, a.Textual depth) :
    ∀ c ∈ (String.join texts).toList, Datum.isDelimiter c = false := by
  -- a joined text is solid as each of the texts is, and strings are solid as arguments
  induction args generalizing texts with
  | nil =>
    obtain rfl := Option.some.inj h
    exact fun _ => nofun
  | cons a args ih =>
    obtain ⟨hfirst, hrest⟩ := List.forall_mem_cons.mp hargs
    unfold texts? at h
    split at h
    · rename_i hcons
      cases hcons
    · rename_i text vs hcons
      obtain ⟨rfl, rfl⟩ := List.cons.inj hcons
      obtain ⟨texts', htexts', rfl⟩ := Option.map_eq_some_iff.mp h
      cases hfirst with
      | str htext =>
        intro c hc
        rw [String.join_cons, String.toList_append] at hc
        rcases List.mem_append.mp hc with hc | hc
        · exact htext c hc
        · exact ih htexts' hrest c hc
    · cases h

/-- What a primitive answers is nested no deeper than its arguments, or one level deep. -/
theorem Primitive.textual_call {p : Primitive} {σ : Store} (hp : p.operation ≠ .collect)
    (hargs : ∀ a ∈ args, a.Textual (depth + 1)) (h : (p.call args σ).1 = .ok v) :
    v.Textual (depth + 1) := by
  cases Primitive.answers_call h with
  | number x => exact .num x
  | truth b => exact .bool b
  | done => exact .unspecified
  | text htexts => exact .str (Operation.solid_join htexts hargs)
  | @cons a b heq =>
    subst heq
    refine .list fun w hw => ?_
    rcases List.mem_append.mp hw with hw | hw
    · exact (hargs a (by simp)).items w hw
    · exact (hargs b (by simp)).items w hw
  | @car a heq =>
    subst heq
    unfold Value.car
    cases hhead : a.items.head? with
    | none => exact .nil
    | some w =>
      have hw := (hargs a List.mem_cons_self).items w (List.mem_of_head? hhead)
      -- an item stands one list less deep than the argument, which the bound allows
      exact hw.mono (Nat.le_succ depth)
  | @cdr a heq =>
    subst heq
    exact .list fun w hw => (hargs a List.mem_cons_self).items w (List.mem_of_mem_tail hw)
  | collected hcollect => exact absurd hcollect hp

end MiniLisp
