import ExactAlgebra.Coefficient.Arithmetic
import ExactAlgebra.Expr.Basic

namespace ExactAlgebra.Expr

-- The factorial of a canonical operand, evaluated for natural numbers up to a limit.
def factorialOf (limit : Int) (e : Expr) : Expr :=
  match e.integer? with
  | some n => if 0 ≤ n ∧ n ≤ limit then num (Coefficient.factorial n.toNat) else fact e
  | none   => fact e

end ExactAlgebra.Expr
