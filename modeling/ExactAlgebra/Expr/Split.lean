import ExactAlgebra.Expr.Basic
import ExactAlgebra.Fault

namespace ExactAlgebra.Expr

-- Splits a term into its coefficient and its symbolic part: the leading literal of a product and
-- the other factors, or else 1 and the whole term. A number has no symbolic part.
def split? : Expr → Except Fault (Option (Rat × Expr))
  | num _              => .ok none
  | prod []            => .error .noLeadingFactor
  | prod [num c, x]    => .ok (c, x)
  | prod (num c :: xs) => .ok (c, prod xs)
  | e                  => .ok (some (1, e))

-- What is no power counts as its own first power, and a number has neither base nor exponent.

def base? : Expr → Option Expr
  | num _   => none
  | pow b _ => b
  | e       => e

def exponent? : Expr → Option Expr
  | num _   => none
  | pow _ e => e
  | _       => num 1

end ExactAlgebra.Expr
