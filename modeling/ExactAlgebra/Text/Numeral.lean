import ExactAlgebra.Text.Class

namespace ExactAlgebra.Text

def trim (cs : List Char) : List Char :=
  ((cs.dropWhile isBlank).reverse.dropWhile isBlank).reverse

def sign : List Char → Bool × List Char
  | '-' :: cs => (true, cs)
  | '+' :: cs => (false, cs)
  | cs        => (false, cs)

-- The digits in front and what follows them. Between two digits there may be an underscore.
def digits : List Char → List Nat × List Char
  | []      => ([], [])
  | c :: cs =>
    match digit? c, cs with
    | none, _           => ([], c :: cs)
    | some d, '_' :: cs =>
      let (ds, rest) := digits cs
      (d :: ds, if ds = [] then '_' :: cs else rest)
    | some d, cs        =>
      let (ds, rest) := digits cs
      (d :: ds, rest)

def value (ds : List Nat) : Nat :=
  ds.foldl (fun n d => 10 * n + d) 0

def natural? (cs : List Char) : Option Nat :=
  match digits cs with
  | (d :: ds, []) => some (value (d :: ds))
  | _             => none

end ExactAlgebra.Text
