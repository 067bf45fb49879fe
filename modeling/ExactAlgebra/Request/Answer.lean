import ExactAlgebra.Expr.Symbols
import ExactAlgebra.Request.Refusal
import ExactAlgebra.Request.Value

namespace ExactAlgebra.Request

-- What simplifying a canonical form once more gives.
inductive Again where
  | same
  | other (s : Simplified)
  | refused (r : Refusal)

structure Description where
  value : Value
  text : String
  unknowns : List String
  isConstant : Bool
  isZero : Bool
  isOne : Bool

structure Relations where
  eq : Bool
  ne : Bool
  lt : Except Refusal Bool
  le : Except Refusal Bool
  gt : Except Refusal Bool
  ge : Except Refusal Bool

structure NumberFacts where
  isInteger : Bool
  integer? : Option Int
  sign : Int
  isZero : Bool
  isOne : Bool

inductive Answer where
  | value (v : Value)
  | values (vs : List Value)
  | simplified (s : Simplified) (again : Again)
  | description (d : Description)
  | matrix (rows : List (List Ordering))
  | relations (r : Relations)
  | number (n : NumberFacts)
  | collected (c : Collected)
  | split (parts : Option (Rat × Value))
  | operation (o : Operation)
  | config (c : Config) (text : String)
  | refused (r : Refusal)

namespace Answer

-- The value that a session can keep of an answer.
def value? : Answer → Option Value
  | value v        => some v
  | simplified s _ => some (.simplified s)
  | description d  => some d.value
  | _              => none

end Answer

end ExactAlgebra.Request
