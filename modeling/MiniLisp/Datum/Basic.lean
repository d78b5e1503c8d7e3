/-!
# Program text as data

A program text is read into trees of numbers, strings, symbols and lists before any form is
recognised.  Numbers compare as IEEE doubles, so `0` equals `-0`.
-/

namespace MiniLisp

/-- A tree of program text. -/
inductive Datum where
  | num (x : Float)
  | str (text : String)
  | sym (name : String)
  | list (items : List Datum)
deriving Inhabited

namespace Datum

/-! ## Equality -/

mutual

/-- Equality of trees, with numbers compared as doubles. -/
def beq : Datum → Datum → Bool
  | num x, num y => x == y
  | str s, str t => s == t
  | sym m, sym n => m == n
  | list ds, list es => beqItems ds es
  | _, _ => false

/-- Lists are equal when they have the same length and equal items at each place. -/
def beqItems : List Datum → List Datum → Bool
  | [], [] => true
  | d :: ds, e :: es => d.beq e && beqItems ds es
  | _, _ => false

end

instance : BEq Datum := ⟨beq⟩

/-! ## Nesting -/

mutual

/-- How many lists are nested around the deepest place: an atom has depth zero and `()` depth one. -/
def depth : Datum → Nat
  | list items => depthOfItems 0 items + 1
  | _ => 0

/-- The greatest depth among some items, and at least `deepest`. -/
def depthOfItems (deepest : Nat) : List Datum → Nat
  | [] => deepest
  | d :: ds => depthOfItems (max deepest d.depth) ds

end

end Datum

end MiniLisp
