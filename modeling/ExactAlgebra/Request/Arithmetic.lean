import ExactAlgebra.Expr.Arithmetic
import ExactAlgebra.Literal
import ExactAlgebra.Request.Compare

namespace ExactAlgebra

def Operator.symbol : Operator → String
  | add => "+"
  | sub => "-"
  | mul => "*"
  | div => "/"
  | pow => "** or pow()"

def Operation.operator : Operation → Operator
  | sum     => .add
  | product => .mul

def Operation.collect : Operation → Expr → Expr → Except Fault Collected
  | sum     => collectTerms
  | product => collectPowers

namespace Request.Value

-- Rationals serve as expressions.
def toExpr : Value → Except Refusal Expr
  | expr e => .ok e
  | v => match v.rational? with
    | some q => .ok (.num q)
    | none   => .error (.notExpression v.kind)

def toRational (v : Value) : Except Refusal Rat :=
  match v.rational? with
  | some q => .ok q
  | none   => .error (.notRational v.kind)

def numberOfText (s : String) : Except Refusal Rat :=
  let (negative, cs) := Text.sign (Text.trim s.toList)
  match Literal.ofChars? cs with
  | some (.quotient p 0) => .error (.overZero (Coefficient.signed negative p))
  | some (.quotient p q) => .ok (Coefficient.signed negative (p / q))
  | some (.decimal d)    => .ok (Coefficient.signed negative d.value)
  | some (.lettered cs)  => .error (.notDigits (String.ofList cs))
  | none                 => .error (.badNumber s)

-- The exact value of any plain number, or of a text that gives one.
def toNumber (v : Value) : Except Refusal Rat :=
  match v.number?, v with
  | some (.finite q), _   => .ok q
  | some (.infinite _), _ => .error .infiniteNumber
  | some .nan, _          => .error .nanNumber
  | none, str s           => numberOfText s
  | none, _               => .error .notNumber

def isExpr : Value → Bool
  | expr _ => true
  | _      => false

def wrapped : Value → Except Refusal Simplified
  | simplified s => .ok s
  | v            => .error (.lacks v.kind "expr")

-- One of the two sides has to be an expression, and takes the other along.
def binary (o : Operator) (a b : Value) : Except Refusal Expr := do
  if a.isExpr || b.isExpr then return .binary o (← a.toExpr) (← b.toExpr)
  else throw (.unsupported o.symbol a.kind b.kind)

def neg : Value → Except Refusal Value
  | expr e     => .ok (expr e.neg)
  | bool b     => .ok (int (if b then -1 else 0))
  | int n      => .ok (int (-n))
  | fraction q => .ok (fraction (-q))
  | float x    => .ok (float x.neg)
  | v          => .error (.unsupportedSign v.kind)

def count? : Value → Option Int
  | bool b => some (if b then 1 else 0)
  | int n  => some n
  | _      => none

-- A sum joins two texts, and a product with a count repeats one.
def foldTexts? : Operation → Value → Value → Option String
  | .sum, str s, str t => some (s ++ t)
  | .product, str s, v => v.count?.map (repeated s)
  | .product, v, str s => v.count?.map (repeated s)
  | _, _, _            => none
where
  repeated (s : String) (n : Int) : String := String.join (List.replicate n.toNat s)

-- Why two values that are not both numbers have no sum or product. With texts the reason reads
-- differently.
def foldRefusal : Operation → Value → Value → Refusal
  | .sum, str _, b     => .notJoined b.kind
  | .product, str _, b => .notRepeated b.kind
  | .product, a, str _ => .notRepeated a.kind
  | o, a, b            => .unsupported o.operator.symbol a.kind b.kind

-- An operation folds whole numbers to a whole number, fractions to a fraction and texts to a text.
-- A tree takes the other side into a tree.
def fold (o : Operation) (a b : Value) : Except Refusal Value :=
  match a, b, a.exactNumber?, b.exactNumber? with
  | fraction _, _, some p, some q => .ok (fraction (o.fold p q))
  | _, fraction _, some p, some q => .ok (fraction (o.fold p q))
  | _, _, some p, some q          => .ok (int (o.fold p q).num)
  | _, _, _, _ =>
    if a.isExpr || b.isExpr then expr <$> binary o.operator a b
    else if a.number?.isSome && b.number?.isSome then .error (.inexact "float")
    else match foldTexts? o a b with
      | some s => .ok (str s)
      | none   => .error (foldRefusal o a b)

def divide (a b : Value) : Except Refusal Value := do
  if equal b (int 0) then throw (.fault (.undefined (.zeroDivisor a.text)))
  let p ← a.toNumber
  match b, b.exactNumber? with
  | expr e, _  => return expr (.binary .div (.num p) e)
  | _, some q  => return fraction (← Coefficient.divide p q)
  | float _, _ => throw (.inexact b.kind)
  | _, none    => throw (.unsupported "/" "Fraction" b.kind)

-- Only whole exponents give exact powers.
def power (a b : Value) : Except Refusal Value := do
  let q ← a.toNumber
  match b, b.exactNumber? with
  | float _, _ => throw (.inexact b.kind)
  | _, none    => throw (.incomparable .lt b.kind "int")
  | _, some r  =>
    match Coefficient.integer? r with
    | some n => return fraction (← Coefficient.power q n)
    | none   =>
      if r < 0 ∧ q = 0 then throw (.fault (.undefined (.zeroNegativePower r)))
      else throw (.inexact b.kind)

-- The limit matters only when there is a natural number to compare with it.
def factorial (limit : Value) (s : Simplified) : Except Refusal Simplified :=
  match s.expr.integer? with
  | none   => .ok (s.factorial (-1))
  | some n =>
    if n < 0 then .ok (s.factorial (-1))
    else do return s.factorial (if ← relate .le (int n) limit then n else -1)

end Request.Value

end ExactAlgebra
