import ExactAlgebra.Factorial
import ExactAlgebra.Product

namespace ExactAlgebra

structure Config where
  -- The largest number whose factorial is evaluated.
  factorialLimit : Nat := 10000
  deriving DecidableEq

namespace Expr

-- Operands come first, from left to right and all of them, so that no rule can hide one that is
-- undefined.
mutual
def simplify (c : Config) : Expr → Except Fault Expr
  | num q    => .ok (num q)
  | sym s    => .ok (sym s)
  | sum xs   => do sumOf (← simplifyAll c xs)
  | prod xs  => do productOf (← simplifyAll c xs)
  | pow b e  => do powerOf (← simplify c b) (← simplify c e)
  | fact e   => do return factorialOf c.factorialLimit (← simplify c e)
  | app s xs => do return app s (← simplifyAll c xs)

def simplifyAll (c : Config) : List Expr → Except Fault (List Expr)
  | []      => .ok []
  | x :: xs => do return (← simplify c x) :: (← simplifyAll c xs)
end

end Expr

end ExactAlgebra
