import ExactAlgebra.Expr.Scale
import ExactAlgebra.Expr.Split
import ExactAlgebra.Operation.Merge

namespace ExactAlgebra

open ExactAlgebra.Expr

-- Terms with the same symbolic part add their coefficients.
def Operation.collectTerms (a b : Expr) : Except Fault Collected := do
  match ← a.split?, ← b.split? with
  | some (p, s), some (q, t) =>
    if s = t then return if p + q = 0 then .cancelled else .one (scale (p + q) s)
    else return .apart
  | _, _ => return .apart

-- The canonical sum of canonical terms.
def Expr.sumOf (xs : List Expr) : Except Fault Expr :=
  Operation.sum.combineWith Operation.collectTerms xs

end ExactAlgebra
