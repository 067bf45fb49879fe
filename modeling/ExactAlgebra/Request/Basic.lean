import ExactAlgebra.Request.Inspection
import ExactAlgebra.Request.Term

namespace ExactAlgebra

open Request in
inductive Request where
  | simplify (expr : Term) (limit : Option Term)
  | build (expr : Term)
  | describe (expr : Term)
  | references (expr : Term) (name : String)
  | compare (a b : Term)
  | matrix (items : List Term)
  | relations (a b : Term)
  | sort (items : List Term)
  | distinct (items : List Term)
  | ratio (numerator : Term) (denominator : Option Term)
  | number (q : Term)
  | divide (a b : Term)
  | numberPower (base exponent : Term)
  | combine (o : Operation) (operands : List Term)
  | operands (o : Operation) (expr : Term)
  | collect (o : Operation) (a b : Term)
  | fold (o : Operation) (a b : Term)
  | operation (o : Operation)
  | power (base exponent : Term)
  | factorial (operand : Term) (limit : Option Term)
  | split (s : Term)
  | base (s : Term)
  | exponent (s : Term)
  | splitExpr (expr : Term)
  | config (limit : Option Term)

def Config.text (c : Config) : String :=
  "Config(factorial_limit=" ++ toString c.factorialLimit ++ ")"

namespace Simplified

def combine : Operation → List Simplified → Except Fault Simplified
  | .sum     => sum
  | .product => product

-- Whether simplifying once more changes anything.
def again (c : Config) (s : Simplified) : Request.Again :=
  match s.expr.simplified c with
  | .ok t    => if t = s then .same else .other t
  | .error f => .refused (.fault f)

end Simplified

namespace Request

-- A limit for factorials has to be a natural number.
def Value.toConfig : Value → Except Refusal Config
  | int n => if n < 0 then .error (.limitSign n) else .ok ⟨n.toNat⟩
  | v     => .error (.limitKind v.kind)

variable (rs : Registers)

open Term (eval evalAll)

def evalOr (default : Value) : Option Term → Except Refusal Value
  | none   => .ok default
  | some t => eval rs t

def defaultLimit : Value :=
  .int ({} : Config).factorialLimit

def answer : Request → Except Refusal Answer
  | simplify t limit => do
    let v ← eval rs t
    let c ← (← evalOr rs defaultLimit limit).toConfig
    let s ← v.simplify c
    return .simplified s (s.again c)
  | build t => do return .value (← eval rs t)
  | describe t => do return .description (← (← eval rs t).describe)
  | references t s => do return .value (.bool (← (← eval rs t).references s))
  | compare a b => do
    let v ← eval rs a
    match ← v.compare (← eval rs b) with
    | .lt => return .value (.int (-1))
    | .eq => return .value (.int 0)
    | .gt => return .value (.int 1)
  | matrix ts => do return .matrix (← Value.matrix (← evalAll rs ts))
  | relations a b => do return .relations ((← eval rs a).relations (← eval rs b))
  | sort ts => do return .values (← Value.sort (← evalAll rs ts))
  | distinct ts => do return .values (Value.distinct (← evalAll rs ts))
  | ratio a b => do
    let v ← eval rs a
    let w ← evalOr rs (.int 1) b
    return .value (.fraction (← Coefficient.ratio (← v.toRational) (← w.toRational)))
  | number t => do return .number (← (← eval rs t).numberFacts)
  | divide a b => do return .value (← (← eval rs a).divide (← eval rs b))
  | numberPower a b => do return .value (← (← eval rs a).power (← eval rs b))
  | combine o ts => do
    let ss ← (← evalAll rs ts).mapM Value.wrapped
    return .value (.simplified (← Simplified.combine o ss))
  | operands o t => do return .values ((← eval rs t).operands o)
  | collect o a b => do return .collected (← Value.collect o (← eval rs a) (← eval rs b))
  | fold o a b => do return .value (← Value.fold o (← eval rs a) (← eval rs b))
  | operation o => .ok (.operation o)
  | power a b => do
    let v ← eval rs a
    let w ← eval rs b
    return .value (.simplified (← (← v.wrapped).power (← w.wrapped)))
  | factorial t limit => do
    let v ← eval rs t
    let l ← evalOr rs defaultLimit limit
    return .value (.simplified (← l.factorial (← v.wrapped)))
  | split t => do return .split (← (← eval rs t).splitWrapped?)
  | base t => do return .value (← (← eval rs t).base)
  | exponent t => do return .value (← (← eval rs t).exponent)
  | splitExpr t => do return .split (← (← eval rs t).split?)
  | config limit => do
    let c ← (← evalOr rs defaultLimit limit).toConfig
    return .config c c.text

-- A refusal is an answer, too.
def run (r : Request) : Answer :=
  match answer rs r with
  | .ok a    => a
  | .error f => .refused f

end Request

end ExactAlgebra
