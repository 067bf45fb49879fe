import ExactAlgebra.Binary64.Decimal
import ExactAlgebra.Expr.Order

namespace ExactAlgebra.Request

-- The value of a plain number: a rational, an infinity, or none.
inductive Number where
  | finite (q : Rat)
  | infinite (negative : Bool)
  | nan

namespace Number

def ofBinary64 : Binary64 → Number
  | .finite s q => finite (Coefficient.signed s q)
  | .infinite s => infinite s
  | .nan        => nan

-- What is no number compares with nothing, not even with itself.
def compare? : Number → Number → Option Ordering
  | finite p, finite q         => Expr.compareLeaves p q
  | nan, _ | _, nan            => none
  | infinite true, infinite true   => some .eq
  | infinite false, infinite false => some .eq
  | infinite true, _ | _, infinite false => some .lt
  | infinite false, _ | _, infinite true => some .gt

end Number

end ExactAlgebra.Request
