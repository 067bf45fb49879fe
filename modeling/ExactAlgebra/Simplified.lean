import ExactAlgebra.Expr.Text
import ExactAlgebra.Simplify

namespace ExactAlgebra

open ExactAlgebra.Expr

-- An expression that counts as canonical. Whoever wraps one vouches for it: nothing here checks the
-- form, and the operations on wrapped expressions rely on it.
structure Simplified where
  expr : Expr
  deriving DecidableEq

namespace Simplified

def constant (q : Rat) : Simplified := ⟨num q⟩

def symbol (name : String) : Simplified := ⟨sym name⟩

def text (s : Simplified) : String :=
  "Simplified(" ++ s.expr.text ++ ")"

-- The coefficient and the symbolic part, which a number has not.
def split? (s : Simplified) : Except Fault (Option (Rat × Simplified)) := do
  return (← s.expr.split?).map fun (c, e) => (c, ⟨e⟩)

def base? (s : Simplified) : Option Simplified :=
  s.expr.base?.map mk

def exponent? (s : Simplified) : Option Simplified :=
  s.expr.exponent?.map mk

def sum (xs : List Simplified) : Except Fault Simplified :=
  mk <$> sumOf (xs.map expr)

def product (xs : List Simplified) : Except Fault Simplified :=
  mk <$> productOf (xs.map expr)

def power (base exponent : Simplified) : Except Fault Simplified :=
  mk <$> powerOf base.expr exponent.expr

def factorial (limit : Int) (s : Simplified) : Simplified :=
  ⟨factorialOf limit s.expr⟩

end Simplified

def Expr.simplified (c : Config) (e : Expr) : Except Fault Simplified :=
  Simplified.mk <$> e.simplify c

end ExactAlgebra
