import ExactAlgebra.Binary64.Basic
import ExactAlgebra.Decimal

namespace ExactAlgebra.Binary64

-- An exponent far out of range decides without being raised to.
def ofDecimal (negative : Bool) (d : Decimal) : Binary64 :=
  let size : Int := d.exponent + (d.digits.dropWhile (· = 0)).length
  if Text.value d.digits = 0 ∨ size < -400 then finite negative 0
  else if 400 < size then infinite negative
  else ofMagnitude negative d.value

-- The float that a text denotes: the nearest one to a decimal, an infinity or no number.
def ofText? (s : String) : Option Binary64 :=
  let (negative, cs) := Text.sign (Text.trim s.toList)
  match String.ofList (cs.map Char.toLower) with
  | "inf" | "infinity" => some (infinite negative)
  | "nan"              => some nan
  | _                  => (Decimal.ofChars? cs).map (ofDecimal negative)

-- The exponent `k` with `10 ^ k ≤ q < 10 ^ (k + 1)`, for a positive `q`. The logarithm of 2 to the
-- base 10 gives it to within one.
def decimalExponent (q : Rat) : Int :=
  let k := binaryExponent q * 30103 / 100000
  if (10 : Rat) ^ (k + 1) ≤ q then k + 1 else if q < (10 : Rat) ^ k then k - 1 else k

-- The multiple of a unit next to a magnitude that reads back as it. Of two, the nearer one, and of
-- two that are equally near, the even one.
def multiple? (q unit : Rat) : Option Int :=
  let lo := (q / unit).floor
  match [lo, lo + 1].filter fun (n : Int) => nearest? (n * unit) = some q with
  | [n] => some n
  | []  => none
  | _   => some (roundEven (q / unit))

-- The fewest digits that read back, with the place of the last one.
def shortest (q : Rat) : Int × Int :=
  let places := (List.range 17).map fun (i : Nat) => decimalExponent q - i
  (places.findSome? fun k => (multiple? q ((10 : Rat) ^ k)).map (·, k)).getD (0, 0)

def zeros (n : Int) : String :=
  String.ofList (List.replicate n.toNat '0')

-- A decimal whose point stands `point` places behind the start of its digits. It is positional from
-- four places before the first digit to sixteen behind it.
def layout (ds : List Char) (point : Int) : String :=
  let text := String.ofList ds
  let size : Int := ds.length
  if point < -3 ∨ 16 < point then
    let e := point - 1
    let mantissa := String.ofList (match ds with
      | d :: c :: cs => d :: '.' :: c :: cs
      | ds           => ds)
    let width := if e.natAbs < 10 then "0" else ""
    mantissa ++ (if e < 0 then "e-" else "e+") ++ width ++ toString e.natAbs
  else if point ≤ 0 then "0." ++ zeros (-point) ++ text
  else if size ≤ point then text ++ zeros (point - size) ++ ".0"
  else String.ofList (ds.take point.toNat ++ '.' :: ds.drop point.toNat)

def magnitudeText (q : Rat) : String :=
  if q = 0 then "0.0"
  else
    let (n, k) := shortest q
    let ds := (toString n).toList
    layout (ds.reverse.dropWhile (· = '0')).reverse (k + ds.length)

def text : Binary64 → String
  | finite s q => (if s then "-" else "") ++ magnitudeText q
  | infinite s => if s then "-inf" else "inf"
  | nan        => "nan"

end ExactAlgebra.Binary64
