import ExactAlgebra.Expr.Shape
import ExactAlgebra.Request.Number
import ExactAlgebra.Simplified

namespace ExactAlgebra.Request

-- What a request can hold: plain numbers and texts, which are no expressions yet, and expressions,
-- bare or wrapped as canonical.
inductive Value where
  | nothing
  | bool (b : Bool)
  | int (n : Int)
  | fraction (q : Rat)
  | float (x : Binary64)
  | str (s : String)
  | expr (e : Expr)
  | simplified (s : Simplified)

namespace Value

def kind : Value → String
  | nothing      => "NoneType"
  | bool _       => "bool"
  | int _        => "int"
  | fraction _   => "Fraction"
  | float _      => "float"
  | str _        => "str"
  | expr e       => e.shape
  | simplified _ => "Simplified"

def text : Value → String
  | nothing      => "None"
  | bool b       => if b then "True" else "False"
  | int n        => toString n
  | fraction q   => Coefficient.text q
  | float x      => x.text
  | str s        => s
  | expr e       => e.text
  | simplified s => s.text

-- The exact numbers that expressions accept. Truth values are none of them.
def rational? : Value → Option Rat
  | int n      => some n
  | fraction q => some q
  | _          => none

-- The exact numbers of arithmetic, where truth values count as 0 and 1.
def exactNumber? : Value → Option Rat
  | bool b => some (if b then 1 else 0)
  | v      => v.rational?

def number? : Value → Option Number
  | float x => some (.ofBinary64 x)
  | v       => v.exactNumber?.map .finite

-- Plain numbers are equal by value, across their kinds.
def alike : Value → Value → Bool
  | nothing, nothing           => true
  | str s, str t               => s = t
  | expr x, expr y             => x = y
  | simplified x, simplified y => x = y
  | a, b => match a.number?, b.number? with
    | some p, some q => p.compare? q = some .eq
    | _, _           => false

-- A canonical number is, beyond that, equal to a rational of its value.
def equal : Value → Value → Bool
  | simplified x, b => match b.rational? with
    | some q => x.expr = .num q
    | none   => alike (simplified x) b
  | a, simplified y => match a.rational? with
    | some q => y.expr = .num q
    | none   => alike a (simplified y)
  | a, b => alike a b

-- The values without repetitions, in the order of their first occurrences.
def distinct (vs : List Value) : List Value :=
  (vs.foldl (fun seen v => if seen.any (alike v) then seen else v :: seen) []).reverse

end Value

end ExactAlgebra.Request
