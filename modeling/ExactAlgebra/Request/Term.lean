import ExactAlgebra.Request.Arithmetic

namespace ExactAlgebra.Request

namespace Value

-- The canonical form, where a wrapped expression is unwrapped first.
def simplify (c : Config) (v : Value) : Except Refusal Simplified := do
  let e ← match v with
    | simplified s => .ok s.expr
    | v            => v.toExpr
  e.simplified c

end Value

-- How a request writes a value.
inductive Term where
  | value (v : Value)
  | ref (register : String)
  | num (value : Term)
  | ratio (numerator denominator : Term)
  | sum (terms : List Term)
  | prod (factors : List Term)
  | pow (base exponent : Term)
  | fact (operand : Term)
  | app (name : String) (args : List Term)
  | neg (a : Term)
  | binary (o : Operator) (a b : Term)
  | simplify (a : Term)
  | assume (a : Term)
  | constant (a : Term)
  | unwrap (a : Term)

abbrev Registers := List (String × Value)

namespace Term

variable (rs : Registers)

-- Parts are evaluated from left to right, all of them before any is put to use.
mutual
def eval : Term → Except Refusal Value
  | value v => .ok v
  | ref r =>
    match rs.lookup r with
    | some v => .ok v
    | none   => .error (.unbound r)
  | num a => do return .expr (.num (← (← eval a).toRational))
  | ratio a b => do
    let p ← eval a
    let q ← eval b
    return .expr (.num (← Coefficient.ratio (← p.toRational) (← q.toRational)))
  | sum as => do return .expr (.sum (← (← evalAll as).mapM Value.toExpr))
  | prod as => do return .expr (.prod (← (← evalAll as).mapM Value.toExpr))
  | pow a b => do
    let v ← eval a
    let w ← eval b
    return .expr (.pow (← v.toExpr) (← w.toExpr))
  | fact a => do return .expr (.fact (← (← eval a).toExpr))
  | app s as => do return .expr (.app s (← (← evalAll as).mapM Value.toExpr))
  | neg a => do (← eval a).neg
  | binary o a b => do
    let v ← eval a
    let w ← eval b
    return .expr (← v.binary o w)
  | simplify a => do return .simplified (← (← eval a).simplify {})
  | assume a => do
    match ← eval a with
    | .expr e => return .simplified ⟨e⟩
    | v       => throw (.notExpression v.kind)
  | constant a => do return .simplified (.constant (← (← eval a).toRational))
  | unwrap a => do return .expr (← (← eval a).wrapped).expr

def evalAll : List Term → Except Refusal (List Value)
  | []      => .ok []
  | a :: as => do return (← eval a) :: (← evalAll as)
end

end Term

end ExactAlgebra.Request
