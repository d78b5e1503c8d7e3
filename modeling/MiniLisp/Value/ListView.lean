import MiniLisp.Value.Basic

/-!
# Values as lists

The list primitives look at every argument through one view: a list is its items, `Nil` is the empty
list, and any other value is a list of one item.
-/

namespace MiniLisp.Value

/-- The items of a value seen as a list. -/
def items : Value → List Value
  | list vs => vs
  | nil => []
  | v => [v]

/-- The items of the first value before those of the second. -/
def cons (v w : Value) : Value := list (v.items ++ w.items)

/-- The first item, or `Nil` if there is none. -/
def car (v : Value) : Value := v.items.head?.getD nil

/-- All items but the first. -/
def cdr (v : Value) : Value := list v.items.tail

@[simp] theorem items_list (vs : List Value) : (list vs).items = vs := rfl

@[simp] theorem items_nil : nil.items = [] := rfl

@[simp] theorem items_cons (v w : Value) : (cons v w).items = v.items ++ w.items := rfl

@[simp] theorem items_cdr (v : Value) : v.cdr.items = v.items.tail := rfl

end MiniLisp.Value
