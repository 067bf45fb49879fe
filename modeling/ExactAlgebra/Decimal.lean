import ExactAlgebra.Text.Numeral

namespace ExactAlgebra

-- A decimal by its digits and the power of ten that the last one counts.
structure Decimal where
  digits   : List Nat
  exponent : Int

namespace Decimal

def value (d : Decimal) : Rat :=
  Text.value d.digits * (10 : Rat) ^ d.exponent

def exponent? : List Char → Option Int
  | []      => some 0
  | c :: cs =>
    let (negative, cs) := Text.sign cs
    if c = 'e' ∨ c = 'E' then
      (Text.natural? cs).map fun (n : Nat) => if negative then -n else n
    else none

-- Digits, of which some may stand behind a point, and perhaps an exponent.
def ofChars? (cs : List Char) : Option Decimal :=
  let (whole, rest) := Text.digits cs
  let (fraction, rest) := match rest with
    | '.' :: cs => Text.digits cs
    | cs        => ([], cs)
  if whole ++ fraction = [] then none
  else (exponent? rest).map fun e => ⟨whole ++ fraction, e - fraction.length⟩

end Decimal

end ExactAlgebra
