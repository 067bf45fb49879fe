import ExactAlgebra.Expr.Basic

namespace ExactAlgebra

inductive Operator where
  | add
  | sub
  | mul
  | div
  | pow
  deriving DecidableEq

namespace Expr

def neg (a : Expr) : Expr := prod [num (-1), a]

-- The operators build trees and leave them as they are: a difference is a sum with a multiple by -1
-- and a quotient a product with a power of -1.
def binary : Operator → Expr → Expr → Expr
  | .add, a, b => sum [a, b]
  | .sub, a, b => sum [a, neg b]
  | .mul, a, b => prod [a, b]
  | .div, a, b => prod [a, pow b (num (-1))]
  | .pow, a, b => pow a b

end Expr

end ExactAlgebra
