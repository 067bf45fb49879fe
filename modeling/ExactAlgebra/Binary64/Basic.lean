namespace ExactAlgebra

-- A float of 53 significant bits, by the number it stands for. Zero has a sign, too.
inductive Binary64 where
  | finite (negative : Bool) (magnitude : Rat)
  | infinite (negative : Bool)
  | nan
  deriving DecidableEq

namespace Binary64

-- The nearest integer, and of two that are equally near the even one.
def roundEven (q : Rat) : Int :=
  let n := q.floor
  if q - n < 1 / 2 then n
  else if 1 / 2 < q - n then n + 1
  else n + n % 2

-- The exponent `e` with `2 ^ e ≤ q < 2 ^ (e + 1)`, for a positive `q`.
def binaryExponent (q : Rat) : Int :=
  let e : Int := q.num.natAbs.log2 - q.den.log2
  if (2 : Rat) ^ e ≤ q then e else e - 1

-- The nearest float to a magnitude, unless it is too large for any.
def nearest? (q : Rat) : Option Rat :=
  if q = 0 then some 0
  else
    let e := binaryExponent q - 52
    let unit := (2 : Rat) ^ (if e < -1074 then -1074 else e)
    let r := roundEven (q / unit) * unit
    if r < (2 : Rat) ^ (1024 : Int) then some r else none

def ofMagnitude (negative : Bool) (q : Rat) : Binary64 :=
  match nearest? q with
  | some r => finite negative r
  | none   => infinite negative

def neg : Binary64 → Binary64
  | finite s q => finite (!s) q
  | infinite s => infinite (!s)
  | nan        => nan

end Binary64

end ExactAlgebra
