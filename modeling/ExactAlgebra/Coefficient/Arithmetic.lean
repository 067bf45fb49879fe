import ExactAlgebra.Fault

namespace ExactAlgebra.Coefficient

open Undefined

-- The quotient of a numerator and a denominator.
def ratio (p q : Rat) : Except Fault Rat :=
  if q = 0 then .error (.undefined (zeroDenominator p q)) else .ok (p / q)

def divide (p q : Rat) : Except Fault Rat :=
  if q = 0 then .error (.undefined (zeroDivisor (text p))) else .ok (p / q)

-- The powers of 1, -1 and 0 are known without multiplying, so for them the exponent may be
-- arbitrarily large.
def power (q : Rat) (n : Int) : Except Fault Rat :=
  if q = 0 ∧ n < 0 then .error (.undefined (zeroNegativePower n))
  else if q = 1 then .ok 1
  else if q = -1 then .ok (if n % 2 = 0 then 1 else -1)
  else if q = 0 then .ok (if n = 0 then 1 else 0)
  else .ok (q ^ n)

def factorial : Nat → Nat
  | 0     => 1
  | n + 1 => (n + 1) * factorial n

end ExactAlgebra.Coefficient
