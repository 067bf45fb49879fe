import ExactAlgebra.Expr.Basic

namespace ExactAlgebra.Expr

-- The name of a tree's shape.
def shape : Expr → String
  | num _  => "Numeric"
  | sym _  => "Symbol"
  | sum _  => "Sum"
  | prod _ => "Product"
  | pow .. => "Pow"
  | fact _ => "Factorial"
  | app .. => "Function"

-- The symbol or function that the canonical order reaches in a tree when the other side is no
-- expression. The order is settled before it gets there if it meets a number or an empty list.
mutual
def anchor? : Expr → Option Expr
  | num _            => none
  | sum xs | prod xs => anchorOfLast? xs
  | pow b _          => anchor? b
  | fact e           => anchor? e
  | e                => e

def anchorOfLast? : List Expr → Option Expr
  | []      => none
  | [x]     => anchor? x
  | _ :: xs => anchorOfLast? xs
end

end ExactAlgebra.Expr
