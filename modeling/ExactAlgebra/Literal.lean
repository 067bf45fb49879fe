import ExactAlgebra.Decimal

namespace ExactAlgebra

-- A magnitude as it is written: a quotient of whole numbers, a decimal, or a decimal with letters
-- in the places behind its point. Such places are held open and have no value.
inductive Literal where
  | quotient (p q : Nat)
  | decimal (d : Decimal)
  | lettered (places : List Char)

namespace Literal

def isPlace (c : Char) : Bool :=
  c = 'd' || c = 'D'

def lettered? (cs : List Char) : Option Literal :=
  let places := cs.takeWhile isPlace
  if places = [] then none
  else (Decimal.exponent? (cs.dropWhile isPlace)).map fun _ => lettered places

def ofChars? (cs : List Char) : Option Literal :=
  let decimal? := (Decimal.ofChars? cs).map decimal
  match Text.digits cs with
  | (d :: ds, '/' :: cs) => (Text.natural? cs).map (quotient (Text.value (d :: ds)))
  | (_ :: _, '.' :: cs)  => decimal? <|> lettered? cs
  | _                    => decimal?

end Literal

end ExactAlgebra
