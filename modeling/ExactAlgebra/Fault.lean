import ExactAlgebra.Coefficient.Basic

namespace ExactAlgebra

-- Why an expression has no value in the exact rationals.
inductive Undefined where
  | zeroPower (exponent : Rat)
  | zeroNegativePower (exponent : Rat)
  | zeroDenominator (numerator denominator : Rat)
  | zeroDivisor (dividend : String)
  deriving DecidableEq

open Coefficient in
def Undefined.message : Undefined → String
  | zeroPower e         => "0 raised to " ++ text e
  | zeroNegativePower n => "0 raised to negative power " ++ text n
  | zeroDenominator p q => "zero denominator in " ++ text p ++ "/" ++ text q
  | zeroDivisor p       => "division of " ++ p ++ " by zero"

-- What can stop the work on an expression. An empty product has no leading factor to read a
-- coefficient from, and `exhausted` says that a computation outran its budget.
inductive Fault where
  | undefined (cause : Undefined)
  | noLeadingFactor
  | exhausted
  deriving DecidableEq

namespace Fault

def message : Fault → String
  | undefined cause => cause.message
  | noLeadingFactor => "tuple index out of range"
  | exhausted       => "budget exhausted"

end Fault

end ExactAlgebra
