/-!
# Accepted argument counts

Special forms and primitives state how many arguments they take.  A count is checked before any
argument is looked at, so the code behind the check knows the shape of its argument list.
-/

namespace MiniLisp

/-- The argument counts that a form or a primitive accepts. -/
inductive Arity where
  | exact (count : Nat)
  | atLeast (least : Nat)
  /-- Both ends are accepted. -/
  | range (least most : Nat)
  | any
deriving DecidableEq

namespace Arity

/-- Is `count` an accepted number of arguments? -/
def accepts : Arity → Nat → Bool
  | exact n, count => count == n
  | atLeast n, count => n ≤ count
  | range least most, count => least ≤ count && count ≤ most
  | any, _ => true

/-- The words that stand before "arguments" in an error message. -/
def text : Arity → String
  | exact n => toString n
  | atLeast n => "at least " ++ toString n
  | range least most => toString least ++ " to " ++ toString most
  | any => "any number of"

@[simp] theorem accepts_exact {n count : Nat} : (exact n).accepts count = true ↔ count = n := by
  simp [accepts]

@[simp] theorem accepts_atLeast {n count : Nat} :
    (atLeast n).accepts count = true ↔ n ≤ count := by
  simp [accepts]

@[simp] theorem accepts_range {least most count : Nat} :
    (range least most).accepts count = true ↔ least ≤ count ∧ count ≤ most := by
  simp [accepts]

@[simp] theorem accepts_any {count : Nat} : any.accepts count = true := rfl

end Arity

end MiniLisp
