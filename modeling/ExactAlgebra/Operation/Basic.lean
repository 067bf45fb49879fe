import ExactAlgebra.Expr.Basic

namespace ExactAlgebra

open ExactAlgebra.Expr

-- The two associative and commutative operations, with any number of operands.
inductive Operation where
  | sum
  | product
  deriving DecidableEq

namespace Operation

def name : Operation → String
  | sum     => "sum"
  | product => "product"

-- The name of the shape of the operation's trees.
def nodeName : Operation → String
  | sum     => "Sum"
  | product => "Product"

def identity : Operation → Rat
  | sum     => 0
  | product => 1

def absorbing? : Operation → Option Rat
  | sum     => none
  | product => some 0

def fold : Operation → Rat → Rat → Rat
  | sum     => (· + ·)
  | product => (· * ·)

def node : Operation → List Expr → Expr
  | sum     => .sum
  | product => .prod

-- An expression of another kind is the one operand of itself.
def operands : Operation → Expr → List Expr
  | sum, .sum xs      => xs
  | product, .prod xs => xs
  | _, e              => [e]

def owns : Operation → Expr → Bool
  | sum, .sum _      => true
  | product, .prod _ => true
  | _, _             => false

def isIdentity (o : Operation) (e : Expr) : Bool :=
  e = num o.identity

def absorbs (o : Operation) (e : Expr) : Bool :=
  o.absorbing?.any (e = num ·)

-- The expression of a list of operands: fewer than two need no node.
def gather (o : Operation) : List Expr → Expr
  | []  => num o.identity
  | [e] => e
  | es  => o.node es

end Operation

end ExactAlgebra
