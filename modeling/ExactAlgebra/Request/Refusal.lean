import ExactAlgebra.Fault
import ExactAlgebra.Text.Quoted

namespace ExactAlgebra.Request

inductive Relation where
  | lt
  | le
  | gt
  | ge
  deriving DecidableEq

def Relation.symbol : Relation → String
  | lt => "<"
  | le => "<="
  | gt => ">"
  | ge => ">="

def Relation.holds : Relation → Ordering → Bool
  | lt => Ordering.isLT
  | le => Ordering.isLE
  | gt => Ordering.isGT
  | ge => Ordering.isGE

-- Why a request has no answer. Kinds of values are given by their names.
inductive Refusal where
  | fault (f : Fault)
  | notExpression (kind : String)
  | notRational (kind : String)
  | notNumber
  | badNumber (text : String)
  | notDigits (text : String)
  | overZero (numerator : Rat)
  | infiniteNumber
  | nanNumber
  | inexact (kind : String)
  | unordered (left right : String)
  | incomparable (r : Relation) (left right : String)
  | unsupported (symbol left right : String)
  | unsupportedSign (kind : String)
  | notJoined (kind : String)
  | notRepeated (kind : String)
  | lacks (kind part : String)
  | notCallable (kind : String)
  | limitKind (kind : String)
  | limitSign (limit : Int)
  | unbound (register : String)

namespace Refusal

instance : MonadLift (Except Fault) (Except Refusal) where
  monadLift := Except.mapError fault

-- The start of a text, for messages that show no more of it.
def shortened (s : String) : String :=
  String.ofList (s.toList.take 200)

def message : Refusal → String
  | fault f             => f.message
  | notExpression k     => "Cannot convert " ++ k ++ " to Expr"
  | notRational k       => "Cannot convert " ++ k ++ " to an exact rational"
  | notNumber           => "argument should be a string or a Rational instance"
  | badNumber s         => "Invalid literal for Fraction: " ++ Text.quoted s
  | notDigits s         => "invalid literal for int() with base 10: " ++ shortened (Text.quoted s)
  | overZero q          => "Fraction(" ++ Coefficient.text q ++ ", 0)"
  | infiniteNumber      => "cannot convert Infinity to integer ratio"
  | nanNumber           => "cannot convert NaN to integer ratio"
  | inexact k           => "no exact result with " ++ k
  | unordered k l       => "Cannot order " ++ k ++ " against " ++ l
  | incomparable r k l  =>
    "'" ++ r.symbol ++ "' not supported between instances of '" ++ k ++ "' and '" ++ l ++ "'"
  | unsupported s k l   =>
    "unsupported operand type(s) for " ++ s ++ ": '" ++ k ++ "' and '" ++ l ++ "'"
  | unsupportedSign k   => "bad operand type for unary -: '" ++ k ++ "'"
  | notJoined k         => "can only concatenate str (not \"" ++ k ++ "\") to str"
  | notRepeated k       => "can't multiply sequence by non-int of type '" ++ k ++ "'"
  | lacks k a           => "'" ++ k ++ "' object has no attribute '" ++ a ++ "'"
  | notCallable k       => "'" ++ k ++ "' object is not callable"
  | limitKind k         => "factorial_limit must be an int, got " ++ k
  | limitSign n         => "factorial_limit must be >= 0, got " ++ toString n
  | unbound r           => r

end Refusal

end ExactAlgebra.Request
