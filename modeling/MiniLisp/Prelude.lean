import MiniLisp.Program

/-!
# The standard unit

Definitions in the language itself that are loaded before a script: negation, the comparisons that
include equality, and functions on lists.
-/

namespace MiniLisp

/-- The text of the standard unit, one form. -/
def prelude : String :=
"(begin
  (define not (lambda (x) (if x False True)))
  (define null? (lambda (xs) (if (= xs Nil) True (= xs (quote ())))))
  (define <= (lambda (a b) (not (> a b))))
  (define >= (lambda (a b) (not (< a b))))
  (define abs (lambda (n) (if (< n 0) (- 0 n) n)))
  (define length
    (lambda (xs) (if (null? xs) 0 (+ 1 (length (cdr xs))))))
  (define map
    (lambda (f xs)
      (if (null? xs)
        (quote ())
        (cons (f (car xs)) (map f (cdr xs))))))
  (define filter
    (lambda (keep? xs)
      (if (null? xs)
        (quote ())
        (if (keep? (car xs))
          (cons (car xs) (filter keep? (cdr xs)))
          (filter keep? (cdr xs))))))
  (define reduce
    (lambda (f acc xs)
      (if (null? xs) acc (reduce f (f acc (car xs)) (cdr xs))))))
"

/-- Loads the standard unit into a scope. -/
def Interpreter.loadPrelude (ip : Interpreter) (scope : FrameId) : Action Value :=
  ip.loadUnit prelude scope

end MiniLisp
