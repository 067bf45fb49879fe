namespace ExactAlgebra.Coefficient

-- Coefficients are exact rationals: always in lowest terms, with a positive denominator.

def integer? (q : Rat) : Option Int :=
  if q.den = 1 then some q.num else none

def sign (q : Rat) : Int :=
  if q < 0 then -1 else if q = 0 then 0 else 1

def signed (negative : Bool) (q : Rat) : Rat :=
  if negative then -q else q

-- The numerator alone for a whole number, otherwise `p/q` in lowest terms.
def text (q : Rat) : String :=
  if q.den = 1 then toString q.num else toString q.num ++ "/" ++ toString q.den

theorem integer?_eq_some_iff {q : Rat} {n : Int} : integer? q = some n ↔ q = n := by
  constructor <;> intro h
  case mp =>
    simp only [integer?] at h
    split at h <;> simp at h
    case isTrue hd => exact Rat.ext (by simp [h]) (by simp [hd])
  case mpr => simp [integer?, h]

@[simp]
theorem integer?_intCast (n : Int) : integer? n = some n :=
  integer?_eq_some_iff.mpr rfl

end ExactAlgebra.Coefficient
