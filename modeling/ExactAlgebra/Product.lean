import ExactAlgebra.Coefficient.Arithmetic
import ExactAlgebra.Sum

namespace ExactAlgebra

open ExactAlgebra.Expr

-- Products collect powers of one base, which raises that base again, and the power of a product is
-- the product of the powers of its factors. The rules are stated over the step that raises a base
-- to a whole power, and `raise` ties the knot with a bound on the depth.
section

variable (raise : Expr → Int → Except Fault Expr)

-- The power of canonical operands. 0 has positive literal powers only, 1 absorbs its exponent, and
-- any other base is raised to whole powers only.
def Expr.powerWith (base exponent : Expr) : Except Fault Expr :=
  if base.isZero then
    match exponent with
    | num q => if 0 < q then .ok (num 0) else .error (.undefined (.zeroPower q))
    | _     => .ok (pow base exponent)
  else if base.isOne then .ok (num 1)
  else match exponent.integer? with
    | some n => raise base n
    | none   => .ok (pow base exponent)

-- Powers of the same base add their exponents.
def Operation.collectPowersWith (a b : Expr) : Except Fault Collected :=
  match a.base?, a.exponent?, b.base?, b.exponent? with
  | some s, some e, some t, some f =>
    if s = t then do
      let r ← powerWith raise s (← sumOf [e, f])
      return if r.isOne then .cancelled else .one r
    else .ok .apart
  | _, _, _, _ => .ok .apart

end

namespace Expr

-- A factor is less deep than its product and a base less deep than its power.
def raise : Nat → Expr → Int → Except Fault Expr
  | 0, _, _ => .error .exhausted
  | d + 1, base, n =>
    if n = 0 then .ok (num 1)
    else if n = 1 then .ok base
    else match base with
      | num q => num <$> Coefficient.power q n
      | pow b e =>
        let f := scale n e
        match f.integer? with
        | some _ => powerWith (raise d) b f
        | none   => .ok (pow b f)
      | prod xs => do
        let ys ← xs.mapM (raise d · n)
        Operation.product.combineWith (Operation.collectPowersWith (raise d)) ys
      | e => .ok (pow e (num n))

-- The canonical power of canonical operands.
def powerOf (base exponent : Expr) : Except Fault Expr :=
  powerWith (raise base.weight) base exponent

end Expr

-- Collects powers whose base is no deeper than the operands.
def Operation.collectPowers (a b : Expr) : Except Fault Collected :=
  collectPowersWith (raise (a.weight + b.weight)) a b

-- The canonical product of canonical factors.
def Expr.productOf (xs : List Expr) : Except Fault Expr :=
  Operation.product.combineWith (Operation.collectPowersWith (raise (weights xs))) xs

end ExactAlgebra
