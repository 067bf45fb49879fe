import ExactAlgebra.Request.Answer
import ExactAlgebra.Request.Arithmetic
import ExactAlgebra.Request.Compare

namespace ExactAlgebra.Request.Value

-- What values answer when they are asked for one of their parts, and what those refuse that lack
-- it.

def references (name : String) : Value → Except Refusal Bool
  | expr e => .ok (e.references name)
  | v      => .error (.lacks v.kind "references")

def describe (v : Value) : Except Refusal Description :=
  match v with
  | expr e       => .ok (describeExpr e e.text)
  | simplified s => .ok (describeExpr s.expr s.text)
  | v            => .error (.lacks v.kind "free_vars")
where
  describeExpr (e : Expr) (text : String) : Description :=
    ⟨v, text, e.unknowns, e.isConstant, e.isZero, e.isOne⟩

def numberFacts (v : Value) : Except Refusal NumberFacts :=
  match v.exactNumber? with
  | none   => .error (.lacks v.kind "denominator")
  | some q =>
    let n := Coefficient.integer? q
    .ok ⟨n.isSome, n, Coefficient.sign q, q = 0, q = 1⟩

def relations (a b : Value) : Relations where
  eq := equal a b
  ne := !equal a b
  lt := relate .lt a b
  le := relate .le a b
  gt := relate .gt a b
  ge := relate .ge a b

def matrix (vs : List Value) : Except Refusal (List (List Ordering)) :=
  vs.mapM fun v => vs.mapM (compare v)

-- The operands of a tree, and of anything else itself.
def operands (o : Operation) : Value → List Value
  | expr e => (o.operands e).map expr
  | v      => [v]

-- The coefficient and the symbolic part of a tree, and of anything else 1 and itself.
def split? : Value → Except Refusal (Option (Rat × Value))
  | expr e => do return (← e.split?).map fun (c, e) => (c, expr e)
  | v      => .ok (some (1, v))

def splitWrapped? : Value → Except Refusal (Option (Rat × Value))
  | simplified s => do return (← s.split?).map fun (c, s) => (c, simplified s)
  | v            => .error (.lacks v.kind "split_product")

def ofOption : Option Simplified → Value
  | some s => simplified s
  | none   => nothing

-- A bare power has a base and an exponent, but as they are and not as an answer.

def base : Value → Except Refusal Value
  | simplified s    => .ok (ofOption s.base?)
  | expr (.pow b _) => .error (.notCallable b.shape)
  | v               => .error (.lacks v.kind "base")

def exponent : Value → Except Refusal Value
  | simplified s    => .ok (ofOption s.exponent?)
  | expr (.pow _ e) => .error (.notCallable e.shape)
  | v               => .error (.lacks v.kind "exponent")

-- Of values that are no trees, equal ones are like terms. They are no bases of powers, for which
-- only 0 and 1 need no tree.
def collect (o : Operation) (a b : Value) : Except Refusal Collected := do
  match a, b, o with
  | expr x, expr y, _ => o.collect x y
  | _, _, .sum =>
    match ← a.split?, ← b.split? with
    | some (_, s), some (_, t) =>
      if equal s t then return .one (.prod [.num 2, ← s.toExpr]) else return .apart
    | _, _ => return .apart
  | nothing, _, .product => return .apart
  | _, _, .product =>
    if !equal a b then return .apart
    match a with
    | simplified s =>
      if s.expr.isZero then return .one (.num 0)
      else if s.expr.isOne then return .cancelled
      else throw (.notExpression a.kind)
    | a => throw (.lacks a.kind "is_zero")

end ExactAlgebra.Request.Value
