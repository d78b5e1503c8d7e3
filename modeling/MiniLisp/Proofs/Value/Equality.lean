import MiniLisp.Proofs.Value.Parts

/-!
# Equality of values

Numbers are compared as doubles, lists item by item and callable values by identity.  The comparison is
symmetric and transitive; it is reflexive on values in which no number is NaN.
-/

namespace MiniLisp

/-! ## Equality of doubles -/

namespace Number

open Float.Model

/-- Exponents and mantissas compare as equal just if they are. -/
theorem compare_then_eq_iff {e e' : Int} {m m' : Nat} :
    (compare e e').then (compare m m') = .eq ↔ e = e' ∧ m = m' := by
  rw [Ordering.then_eq_eq, Int.compare_eq_eq, Nat.compare_eq_eq]

/-- Two doubles that compare as equal are zeros, or the same. -/
theorem eq_of_unpacked_beq {a b : UnpackedFloat} (h : UnpackedFloat.beq a b = true) :
    (∃ s t, a = .zero s ∧ b = .zero t) ∨ a = b ∧ a.isNaN = false := by
  have hcompare : a.compare b = some .eq := eq_of_beq h
  -- the only unequal doubles that compare as equal are the two zeros
  cases a with
  | notANumber => cases hcompare
  | zero s =>
    cases b with
    | infinity t => cases t <;> cases hcompare
    | notANumber => cases hcompare
    | zero t => exact .inl ⟨s, t, rfl, rfl⟩
    | finite t _ _ _ => cases t <;> cases hcompare
  | infinity s =>
    cases b with
    | infinity t =>
      cases s <;> cases t
      · exact .inr ⟨rfl, rfl⟩
      · cases hcompare
      · cases hcompare
      · exact .inr ⟨rfl, rfl⟩
    | notANumber => cases hcompare
    | zero t => cases s <;> cases hcompare
    | finite t _ _ _ => cases s <;> cases hcompare
  | finite s m e _ =>
    cases b with
    | infinity t => cases t <;> cases hcompare
    | notANumber => cases hcompare
    | zero t => cases s <;> cases hcompare
    | finite t m' e' _ =>
      cases s with
      | positive =>
        cases t with
        | positive =>
          obtain ⟨rfl, rfl⟩ := compare_then_eq_iff.mp (Option.some.inj hcompare)
          exact .inr ⟨rfl, rfl⟩
        | negative => cases hcompare
      | negative =>
        cases t with
        | positive => cases hcompare
        | negative =>
          -- negative numbers compare the other way round
          have hswap := Ordering.swap_eq_eq.mp (Option.some.inj hcompare)
          obtain ⟨rfl, rfl⟩ := compare_then_eq_iff.mp hswap
          exact .inr ⟨rfl, rfl⟩

/-- A double that is not NaN is equal to itself. -/
theorem unpacked_beq_self {a : UnpackedFloat} (h : a.isNaN = false) :
    UnpackedFloat.beq a a = true := by
  cases a with
  | notANumber => cases h
  | zero s => rfl
  | infinity s => cases s <;> rfl
  | finite s m e _ =>
    have hsame := compare_then_eq_iff.mpr ⟨Eq.refl e, Eq.refl m⟩
    cases s with
    | positive => exact beq_iff_eq.mpr (congrArg some hsame)
    | negative => exact beq_iff_eq.mpr (congrArg some (Ordering.swap_eq_eq.mpr hsame))

/-- Two doubles are equal if both are zeros, or if they are the same and not NaN. -/
theorem unpacked_beq_iff (a b : UnpackedFloat) :
    UnpackedFloat.beq a b = true ↔
      (∃ s t, a = .zero s ∧ b = .zero t) ∨ a = b ∧ a.isNaN = false := by
  constructor
  · exact eq_of_unpacked_beq
  · rintro (⟨s, t, rfl, rfl⟩ | ⟨rfl, h⟩)
    · rfl
    · exact unpacked_beq_self h

variable {x y z : Float}

theorem beq_iff : (x == y) = true ↔
    (∃ s t, x.toModel.unpack = .zero s ∧ y.toModel.unpack = .zero t) ∨
      x.toModel.unpack = y.toModel.unpack ∧ x.isNaN = false :=
  unpacked_beq_iff x.toModel.unpack y.toModel.unpack

theorem beq_self (h : x.isNaN = false) : (x == x) = true := beq_iff.mpr (.inr ⟨rfl, h⟩)

theorem beq_symm (h : (x == y) = true) : (y == x) = true := by
  rcases beq_iff.mp h with ⟨s, t, hx, hy⟩ | ⟨hxy, hx⟩
  · exact beq_iff.mpr (.inl ⟨t, s, hy, hx⟩)
  · have hy : y.isNaN = false := by
      show y.toModel.unpack.isNaN = false
      rw [← hxy]
      exact hx
    exact beq_iff.mpr (.inr ⟨hxy.symm, hy⟩)

theorem beq_trans (hxy : (x == y) = true) (hyz : (y == z) = true) : (x == z) = true := by
  rcases beq_iff.mp hxy with ⟨s, t, hx, hy⟩ | ⟨hsame, hx⟩
  · rcases beq_iff.mp hyz with ⟨_, u, _, hz⟩ | ⟨hsame, _⟩
    · exact beq_iff.mpr (.inl ⟨s, u, hx, hz⟩)
    · exact beq_iff.mpr (.inl ⟨s, t, hx, hsame ▸ hy⟩)
  · rcases beq_iff.mp hyz with ⟨s, t, hy, hz⟩ | ⟨hsame', _⟩
    · exact beq_iff.mpr (.inl ⟨s, t, hsame.trans hy, hz⟩)
    · exact beq_iff.mpr (.inr ⟨hsame.trans hsame', hx⟩)

end Number

/-! ## Equality of values -/

namespace Value

mutual

/-- The values are equal, by their kind. -/
inductive Alike : Value → Value → Prop where
  | num {x y : Float} (h : (x == y) = true) : Alike (num x) (num y)
  | str (text : String) : Alike (str text) (str text)
  | sym (name : String) : Alike (sym name) (sym name)
  | bool (b : Bool) : Alike (bool b) (bool b)
  | list {vs ws : List Value} (h : AlikeItems vs ws) : Alike (list vs) (list ws)
  | closure (id : ClosureId) : Alike (closure id) (closure id)
  | primitive {p q : Primitive} (h : p.stamp = q.stamp) : Alike (primitive p) (primitive q)
  | nil : Alike nil nil
  | unspecified : Alike unspecified unspecified

/-- The items are equal, one by one. -/
inductive AlikeItems : List Value → List Value → Prop where
  | nil : AlikeItems [] []
  | cons {v w : Value} {vs ws : List Value} (h : Alike v w) (hrest : AlikeItems vs ws) :
      AlikeItems (v :: vs) (w :: ws)

end

mutual

theorem alike_of_beq (v w : Value) (h : v.beq w = true) : v.Alike w := by
  cases v with
  | num x => cases w with
    | num y => exact .num h
    | _ => cases h
  | str s => cases w with
    | str t =>
      obtain rfl : s = t := eq_of_beq h
      exact .str s
    | _ => cases h
  | sym m => cases w with
    | sym n =>
      obtain rfl : m = n := eq_of_beq h
      exact .sym m
    | _ => cases h
  | bool a => cases w with
    | bool b =>
      obtain rfl : a = b := eq_of_beq h
      exact .bool a
    | _ => cases h
  | list vs => cases w with
    | list ws => exact .list (alikeItems_of_beqItems vs ws h)
    | _ => cases h
  | closure i => cases w with
    | closure j =>
      obtain rfl : i = j := eq_of_beq h
      exact .closure i
    | _ => cases h
  | primitive p => cases w with
    | primitive q => exact .primitive (eq_of_beq h)
    | _ => cases h
  | nil => cases w with
    | nil => exact .nil
    | _ => cases h
  | unspecified => cases w with
    | unspecified => exact .unspecified
    | _ => cases h

theorem alikeItems_of_beqItems (vs ws : List Value) (h : beqItems vs ws = true) :
    AlikeItems vs ws := by
  cases vs with
  | nil => cases ws with
    | nil => exact .nil
    | cons w ws => cases h
  | cons v vs => cases ws with
    | nil => cases h
    | cons w ws =>
      obtain ⟨hv, hvs⟩ := Bool.and_eq_true_iff.mp h
      exact .cons (alike_of_beq v w hv) (alikeItems_of_beqItems vs ws hvs)

end

variable {v w : Value}

mutual

theorem beq_of_alike : {v w : Value} → v.Alike w → v.beq w = true
  | _, _, .num h => h
  | _, _, .str text => beq_self_eq_true text
  | _, _, .sym name => beq_self_eq_true name
  | _, _, .bool b => beq_self_eq_true b
  | _, _, .list h => beqItems_of_alikeItems h
  | _, _, .closure id => beq_self_eq_true id
  | _, _, .primitive h => beq_iff_eq.mpr h
  | _, _, .nil => rfl
  | _, _, .unspecified => rfl

theorem beqItems_of_alikeItems : {vs ws : List Value} → AlikeItems vs ws → beqItems vs ws = true
  | _, _, .nil => rfl
  | _, _, .cons h hrest =>
    Bool.and_eq_true_iff.mpr ⟨beq_of_alike h, beqItems_of_alikeItems hrest⟩

end

/-- The comparison of the language finds out whether values are alike. -/
theorem beq_iff_alike : (v == w) = true ↔ v.Alike w :=
  ⟨alike_of_beq v w, beq_of_alike⟩

/-- Primitives are compared by their stamps. -/
theorem beq_primitive (p q : Primitive) : (primitive p == primitive q) = (p.stamp == q.stamp) := rfl

/-! ### Laws -/

/-- No number in the value is NaN, at any list depth. -/
def NaNFree (v : Value) : Prop := ∀ x : Float, (num x).Part v → x.isNaN = false

mutual

theorem NaNFree.alike (v : Value) (h : v.NaNFree) : v.Alike v := by
  cases v with
  | num x => exact .num (Number.beq_self (h x .self))
  | list vs => exact .list (NaNFree.alikeItems vs fun v hv x hx => h x (.item hv hx))
  | str text => exact .str text
  | sym name => exact .sym name
  | bool b => exact .bool b
  | closure id => exact .closure id
  | primitive p => exact .primitive rfl
  | nil => exact .nil
  | unspecified => exact .unspecified

theorem NaNFree.alikeItems (vs : List Value) (h : ∀ v ∈ vs, v.NaNFree) : AlikeItems vs vs := by
  cases vs with
  | nil => exact .nil
  | cons v vs =>
    obtain ⟨hv, hvs⟩ := List.forall_mem_cons.mp h
    exact .cons (NaNFree.alike v hv) (NaNFree.alikeItems vs hvs)

end

mutual

theorem Alike.symm : {v w : Value} → v.Alike w → w.Alike v
  | _, _, .num h => .num (Number.beq_symm h)
  | _, _, .list h => .list h.symm
  | _, _, .primitive h => .primitive h.symm
  | _, _, .str text => .str text
  | _, _, .sym name => .sym name
  | _, _, .bool b => .bool b
  | _, _, .closure id => .closure id
  | _, _, .nil => .nil
  | _, _, .unspecified => .unspecified

theorem AlikeItems.symm : {vs ws : List Value} → AlikeItems vs ws → AlikeItems ws vs
  | _, _, .nil => .nil
  | _, _, .cons h hrest => .cons h.symm hrest.symm

end

mutual

theorem Alike.trans : {u v w : Value} → u.Alike v → v.Alike w → u.Alike w
  | _, _, _, .num h, .num h' => .num (Number.beq_trans h h')
  | _, _, _, .list h, .list h' => .list (h.trans h')
  | _, _, _, .primitive h, .primitive h' => .primitive (h.trans h')
  | _, _, _, .str text, .str _ => .str text
  | _, _, _, .sym name, .sym _ => .sym name
  | _, _, _, .bool b, .bool _ => .bool b
  | _, _, _, .closure id, .closure _ => .closure id
  | _, _, _, .nil, .nil => .nil
  | _, _, _, .unspecified, .unspecified => .unspecified

theorem AlikeItems.trans :
    {us vs ws : List Value} → AlikeItems us vs → AlikeItems vs ws → AlikeItems us ws
  | _, _, _, .nil, .nil => .nil
  | _, _, _, .cons h hrest, .cons h' hrest' => .cons (h.trans h') (hrest.trans hrest')

end

/-- A value that equals a closure is a copy of it. -/
theorem Alike.eq_closure {id : ClosureId} (h : v.Alike (.closure id)) : v = .closure id := by
  cases h
  rfl

/-- Equality, as far as it is one. -/
structure EqualityLaws : Prop where
  refl : ∀ v : Value, v.NaNFree → (v == v) = true
  symm : ∀ v w : Value, (v == w) = true → (w == v) = true
  trans : ∀ u v w : Value, (u == v) = true → (v == w) = true → (u == w) = true
  /-- The equality of the language is the same. -/
  computes : ∀ v w : Value, Operation.equal.compute [v, w] = .ok (.bool (v == w))

theorem equalityLaws : EqualityLaws where
  refl _ hv := beq_iff_alike.mpr hv.alike
  symm _ _ h := beq_iff_alike.mpr (beq_iff_alike.mp h).symm
  trans _ _ _ h h' := beq_iff_alike.mpr ((beq_iff_alike.mp h).trans (beq_iff_alike.mp h'))
  computes _ _ := rfl

theorem beq_closure_iff {id : ClosureId} : (v == closure id) = true ↔ v = closure id := by
  constructor
  · exact fun h => (beq_iff_alike.mp h).eq_closure
  · rintro rfl
    exact beq_iff_alike.mpr (.closure id)

end Value

end MiniLisp
