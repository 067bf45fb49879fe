import ExactAlgebra.Expr.Basic

namespace ExactAlgebra.Expr

def numText (q : Rat) : String :=
  if q.den = 1 then "const(" ++ toString q.num ++ ")"
  else "const(" ++ toString q.num ++ ", " ++ toString q.den ++ ")"

-- Names are written as they are, without escapes.
mutual
def text : Expr → String
  | num q    => numText q
  | sym s    => "var('" ++ s ++ "')"
  | sum []   => "Sum(())"
  | sum xs   => "(" ++ " + ".intercalate (texts xs) ++ ")"
  | prod []  => "Product(())"
  | prod xs  => "(" ++ " * ".intercalate (texts xs) ++ ")"
  | pow b e  => "(" ++ text b ++ " ** " ++ text e ++ ")"
  | fact e   => "factorial(" ++ text e ++ ")"
  | app s xs => s ++ "(" ++ ", ".intercalate (texts xs) ++ ")"

def texts : List Expr → List String
  | []      => []
  | x :: xs => text x :: texts xs
end

end ExactAlgebra.Expr
