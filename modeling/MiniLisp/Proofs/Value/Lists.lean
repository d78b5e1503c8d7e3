import Mathlib.Algebra.GroupWithZero.Nat
import Mathlib.Tactic.ByContra
import MiniLisp.Proofs.Value.Equality

/-!
# Values as lists

The list primitives look at every value as a list of items.  Up to this view `cons` joins lists and `car`
and `cdr` take one apart (`list_laws`).  What `cons` makes of the first item and the rest is the list of
all items only if the first one is a single item: the brackets of a list get lost (`join_eq_self_iff`).
-/

namespace MiniLisp.Value

variable {v w : Value} {vs ws : List Value}

/-! ## Taking apart -/

theorem car_of_items {v x : Value} {items : List Value} (h : v.items = x :: items) : v.car = x := by
  rw [car, h]
  rfl

theorem items_cdr_of_items {v x : Value} {items : List Value} (h : v.items = x :: items) :
    v.cdr.items = items := by
  rw [items_cdr, h]
  rfl

/-- A value equals `Nil` or the empty list exactly if it has no items. -/
theorem isEmpty_items (v : Value) : v.items.isEmpty = (v == .nil || v == .list []) := by
  cases v with
  | list vs => cases vs <;> rfl
  | _ => rfl

theorem car_of_items_nil (h : v.items = []) : v.car = nil := by
  rw [car, h]
  rfl

/-! ## Single items -/

/-- The values as lists, one after the other. -/
def join (vs : List Value) : List Value := vs.flatMap items

/-- A value that is one item when it is viewed as a list. -/
def Single (v : Value) : Prop := v ≠ .nil ∧ ∀ vs, v ≠ .list vs

theorem Single.items {v : Value} (h : v.Single) : v.items = [v] := by
  cases v with
  | list vs => exact absurd rfl (h.2 vs)
  | nil => exact absurd rfl h.1
  | _ => rfl

theorem sum_sizeOf_lt (vs : List Value) : (vs.map sizeOf).sum < sizeOf vs := by
  induction vs with
  | nil => exact Nat.one_pos
  | cons v vs ih =>
    rw [List.map_cons, List.sum_cons, List.cons.sizeOf_spec]
    omega

/-- All that is not a single item loses something when it is viewed as a list. -/
theorem sum_sizeOf_items_lt {v : Value} (h : ¬ v.Single) : (v.items.map sizeOf).sum < sizeOf v := by
  cases v with
  | list vs =>
    rw [items, Value.list.sizeOf_spec]
    exact Nat.lt_add_left 1 (sum_sizeOf_lt vs)
  | nil => exact Nat.one_pos
  | _ => exact absurd ⟨nofun, nofun⟩ h

theorem sum_sizeOf_items_le (v : Value) : (v.items.map sizeOf).sum ≤ sizeOf v := by
  by_cases h : v.Single
  · rw [h.items]
    exact Nat.le_refl _
  · exact Nat.le_of_lt (sum_sizeOf_items_lt h)

theorem sum_sizeOf_join_le (vs : List Value) : ((join vs).map sizeOf).sum ≤ (vs.map sizeOf).sum := by
  induction vs with
  | nil => exact Nat.le_refl _
  | cons v vs ih =>
    rw [join, List.flatMap_cons, List.map_append, List.sum_append, List.map_cons, List.sum_cons]
    exact Nat.add_le_add (sum_sizeOf_items_le v) ih

/-- Joined values are the values themselves exactly if each of them is one item.  Otherwise the join is
smaller, as the brackets of a list are lost. -/
theorem join_eq_self_iff {vs : List Value} : join vs = vs ↔ ∀ v ∈ vs, v.Single := by
  constructor
  · intro h
    induction vs with
    | nil => exact fun _ => nofun
    | cons v vs ih =>
      -- sizes are compared, since the joined values need not line up with the values themselves
      have hsum : ((join (v :: vs)).map sizeOf).sum = ((v :: vs).map sizeOf).sum := by rw [h]
      rw [join, List.flatMap_cons, List.map_append, List.sum_append, List.map_cons, List.sum_cons] at hsum
      have hv : v.Single := by
        by_contra hv
        have hlt := sum_sizeOf_items_lt hv
        have hle := sum_sizeOf_join_le vs
        rw [join] at hle
        omega
      rw [join, List.flatMap_cons, hv.items] at h
      exact List.forall_mem_cons.mpr ⟨hv, ih (List.cons.inj h).2⟩
  · intro h
    induction vs with
    | nil => rfl
    | cons v vs ih =>
      obtain ⟨hv, hvs⟩ := List.forall_mem_cons.mp h
      rw [join, List.flatMap_cons, hv.items]
      exact congrArg (v :: ·) (ih hvs)

/-- No other value is the only item of itself. -/
theorem single_of_items (h : v.items = [v]) : v.Single := by
  by_contra hv
  have hlt := sum_sizeOf_items_lt hv
  rw [h] at hlt
  simp at hlt

/-- Joining the first item and the rest gives all items exactly if the first one is single. -/
theorem car_cons_cdr_iff : v.car.cons v.cdr = list v.items ↔
    v.items = [] ∨ ∃ first rest, v.items = first :: rest ∧ first.Single := by
  cases hitems : v.items with
  | nil =>
    rw [car_of_items_nil hitems, cons, items_cdr, hitems]
    exact iff_of_true rfl (.inl rfl)
  | cons first rest =>
    rw [car_of_items hitems, cons, items_cdr_of_items hitems, list.injEq,
      or_iff_right (List.cons_ne_nil first rest)]
    constructor
    · intro h
      exact ⟨first, rest, rfl, single_of_items (List.append_cancel_right h)⟩
    · rintro ⟨_, _, ⟨⟩, hsingle⟩
      rw [hsingle.items]
      rfl

/-! ## Nesting -/

theorem depthOfItems_le_iff {n deepest : Nat} :
    depthOfItems deepest vs ≤ n ↔ deepest ≤ n ∧ ∀ v ∈ vs, v.depth ≤ n := by
  induction vs generalizing deepest with
  | nil => simp [depthOfItems]
  | cons v vs ih => rw [depthOfItems, ih, Nat.max_le, List.forall_mem_cons, and_assoc]

/-- A list nests one deeper than its items. -/
theorem depth_list_le_iff {n : Nat} : (list vs).depth ≤ n + 1 ↔ ∀ v ∈ vs, v.depth ≤ n := by
  rw [depth, Nat.add_le_add_iff_right, depthOfItems_le_iff]
  exact and_iff_right (Nat.zero_le n)

/-- The items of a value nest less deep than the value does as a list. -/
theorem depth_le_of_mem_items {n : Nat} (hmem : w ∈ v.items) (h : v.depth ≤ n + 1) : w.depth ≤ n := by
  cases v with
  | list vs => exact depth_list_le_iff.mp h w hmem
  | nil => cases hmem
  | _ =>
    obtain rfl := List.mem_singleton.mp hmem
    exact Nat.zero_le n

theorem depth_cons_le (v w : Value) : (v.cons w).depth ≤ max 1 (max v.depth w.depth) := by
  -- the bound is positive, so it leaves one level less for the items
  obtain ⟨n, hn⟩ : ∃ n, max 1 (max v.depth w.depth) = n + 1 :=
    Nat.exists_eq_add_of_le' (Nat.le_max_left 1 _)
  have hv : v.depth ≤ n + 1 := by omega
  have hw : w.depth ≤ n + 1 := by omega
  rw [hn, cons, depth_list_le_iff]
  intro u hu
  rcases List.mem_append.mp hu with hu | hu
  · exact depth_le_of_mem_items hu hv
  · exact depth_le_of_mem_items hu hw

/-! ## Comparing -/

theorem AlikeItems.length_eq (h : AlikeItems vs ws) : vs.length = ws.length := by
  induction vs generalizing ws with
  | nil =>
    cases h
    rfl
  | cons v vs ih =>
    cases h with
    | cons _ hrest => exact congrArg Nat.succ (ih hrest)

mutual

/-- Equal values are nested equally deep. -/
theorem Alike.depth_eq : {v w : Value} → v.Alike w → v.depth = w.depth
  | _, _, .list h => congrArg Nat.succ (h.depthOfItems_eq 0)
  | _, _, .num _ | _, _, .str _ | _, _, .sym _ | _, _, .bool _ | _, _, .closure _
  | _, _, .primitive _ | _, _, .nil | _, _, .unspecified => rfl

theorem AlikeItems.depthOfItems_eq : {vs ws : List Value} → AlikeItems vs ws → (deepest : Nat) →
    depthOfItems deepest vs = depthOfItems deepest ws
  | _, _, .nil, _ => rfl
  | _, _, .cons h hrest, deepest => by
    rw [depthOfItems, depthOfItems, h.depth_eq, hrest.depthOfItems_eq]

end

/-- No value other than a single item equals the only item of itself. -/
theorem single_of_alikeItems {first : Value} {rest : List Value}
    (h : AlikeItems (first.items ++ rest) (first :: rest)) : first.Single := by
  have hlength := h.length_eq
  rw [List.length_append, List.length_cons] at hlength
  have hone : first.items.length = 1 := by omega
  obtain ⟨w, hw⟩ := List.length_eq_one_iff.mp hone
  cases first with
  | list ws =>
    obtain rfl : ws = [w] := hw
    obtain ⟨hsame, -⟩ : w.Alike (list [w]) ∧ AlikeItems rest rest := by
      cases h with
      | cons h hrest => exact ⟨h, hrest⟩
    -- a list cannot equal its only item, which nests less deep
    have hdepth := hsame.depth_eq
    have hdeeper : w.depth < (list [w]).depth := by
      rw [depth, depthOfItems, depthOfItems, Nat.zero_max]
      exact Nat.lt_succ_self _
    exact absurd hdepth (Nat.ne_of_lt hdeeper)
  | nil => cases hw
  | _ => exact ⟨nofun, nofun⟩

theorem NaNFree.items (h : v.NaNFree) : (list v.items).NaNFree := by
  intro x hx
  cases hx with
  | item hmem hpart => exact h x (hpart.of_items hmem)

/-- The comparison of the language tells the two lists apart if they are not the same. -/
theorem car_cons_cdr_beq_iff (h : v.NaNFree) :
    (v.car.cons v.cdr == list v.items) = true ↔ v.car.cons v.cdr = list v.items := by
  constructor
  · intro heq
    rw [car_cons_cdr_iff]
    cases hitems : v.items with
    | nil => exact .inl rfl
    | cons first rest =>
      rw [car_of_items hitems, cons, items_cdr_of_items hitems, hitems, beq_iff_alike] at heq
      cases heq with
      | list heq => exact .inr ⟨first, rest, rfl, single_of_alikeItems heq⟩
  · intro heq
    rw [heq]
    exact beq_iff_alike.mpr (NaNFree.alike _ h.items)

/-! ## Laws -/

/-- The laws of the list primitives. -/
structure ListLaws (a b c v : Value) : Prop where
  /-- The primitives answer what the laws speak of, and change nothing. -/
  calls : ∀ (stamp : Nat) (σ : Store),
    Primitive.call ⟨stamp, "cons", .exact 2, .cons⟩ [a, b] σ = (.ok (a.cons b), σ) ∧
      Primitive.call ⟨stamp, "car", .exact 1, .car⟩ [v] σ = (.ok v.car, σ) ∧
      Primitive.call ⟨stamp, "cdr", .exact 1, .cdr⟩ [v] σ = (.ok v.cdr, σ)
  joined : (a.cons b).items = a.items ++ b.items
  assoc : (a.cons b).cons c = a.cons (b.cons c)
  unit : ∀ u : Value, u = list [] ∨ u = nil → (u.cons v).items = v.items ∧ (v.cons u).items = v.items
  split : v.items = [] ∧ v.car = nil ∨ v.items = v.car :: v.cdr.items
  rebuilt : v.car.cons v.cdr = list v.items ↔
    v.items = [] ∨ ∃ first rest, v.items = first :: rest ∧ first ≠ nil ∧ ∀ ws, first ≠ list ws
  /-- The comparison of the language finds the same, but NaN is not equal to itself there. -/
  compared : v.NaNFree →
    ((v.car.cons v.cdr == list v.items) = true ↔ v.car.cons v.cdr = list v.items)
  nested : (a.cons b).depth ≤ max 1 (max a.depth b.depth)

theorem list_laws (a b c v : Value) : ListLaws a b c v where
  calls _ _ := ⟨rfl, rfl, rfl⟩
  joined := items_cons a b
  assoc := by rw [cons, items_cons, cons, items_cons, List.append_assoc]
  unit u hu := by
    have hnone : u.items = [] := by
      rcases hu with rfl | rfl <;> rfl
    rw [items_cons, items_cons, hnone, List.append_nil]
    exact ⟨rfl, rfl⟩
  split := by
    cases hitems : v.items with
    | nil => exact .inl ⟨rfl, car_of_items_nil hitems⟩
    | cons first rest =>
      rw [car_of_items hitems, items_cdr_of_items hitems]
      exact .inr rfl
  rebuilt := car_cons_cdr_iff
  compared := car_cons_cdr_beq_iff
  nested := depth_cons_le a b

end MiniLisp.Value
