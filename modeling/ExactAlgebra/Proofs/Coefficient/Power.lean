import ExactAlgebra.Coefficient.Arithmetic
import Mathlib.Algebra.Order.Field.Rat
import Mathlib.Algebra.Ring.Int.Parity

namespace ExactAlgebra.Coefficient

-- The shortcuts give the power as well.
theorem power_eq {q : Rat} {n : Int} :
    power q n =
      if q = 0 ∧ n < 0 then .error (.undefined (.zeroNegativePower n)) else .ok (q ^ n) := by
  unfold power
  split
  case isTrue => rfl
  split
  case isTrue hq => rw [hq, one_zpow]
  split
  case isTrue hq =>
    subst hq
    split
    case isTrue hn  => rw [(Int.even_iff.mpr hn).neg_one_zpow]
    case isFalse hn => rw [(Int.odd_iff.mpr (by omega)).neg_one_zpow]
  split
  case isTrue hq  => rw [hq, zero_zpow_eq]
  case isFalse    => rfl

end ExactAlgebra.Coefficient
