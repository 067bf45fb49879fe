import ExactAlgebra.Operation.Basic

namespace ExactAlgebra.Expr

-- Multiplies the leading literals of a product into a literal other than 0 and 1.
def scaleFactors (c : Rat) : List Expr → Expr
  | [] => num c
  | num q :: xs =>
    if c * q = 1 then Operation.product.gather xs
    else if c * q = 0 then num 0
    else scaleFactors (c * q) xs
  | xs => prod (num c :: xs)

-- The product of a literal and a canonical expression.
def scale (c : Rat) : Expr → Expr
  | num q => num (c * q)
  | e =>
    if c = 0 then num 0
    else if c = 1 then e
    else match e with
      | prod xs => scaleFactors c xs
      | e       => prod [num c, e]

end ExactAlgebra.Expr
