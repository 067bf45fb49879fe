import ExactAlgebra.Expr.Order
import ExactAlgebra.Fault
import ExactAlgebra.Operation.Basic

namespace ExactAlgebra

open ExactAlgebra.Expr

-- What becomes of two operands side by side: they stay apart, they cancel to the identity, or one
-- operand takes their place.
inductive Collected where
  | apart
  | cancelled
  | one (e : Expr)
  deriving DecidableEq

-- What ends a merge early: a collected operand that absorbs all others, or a fault.
inductive Halt where
  | absorbed (e : Expr)
  | fault (f : Fault)
  deriving DecidableEq

namespace Operation

variable (o : Operation) (collect : Expr → Expr → Except Fault Collected)

-- Literals are folded into one, and other operands are left to `collect`.
def collectPair : Expr → Expr → Except Fault Collected
  | num p, num q =>
    let r := o.fold p q
    .ok (if r = o.identity then .cancelled else .one (num r))
  | a, b => collect a b

-- A collected operand may stand between the last operand of the output and the first pending one if
-- it keeps them in strictly ascending order and brings no operands of its own.
def fits (c : Expr) (last? next? : Option Expr) : Bool :=
  !o.owns c && last?.all (compare · c = .lt) && next?.all (compare c · = .lt)

-- Merges two ascending lists, with the output so far in reverse. A collected operand that fits goes
-- back in front of the left list, to be compared with the other side. One that does not fit is
-- merged into the output, after the pending operands have been merged with each other.
def mergeLoop : Nat → List Expr → List Expr → List Expr → Except Halt (List Expr)
  | 0, _, _, _ => .error (.fault .exhausted)
  | _ + 1, out, [], right => .ok (out.reverse ++ right)
  | _ + 1, out, left, [] => .ok (out.reverse ++ left)
  | n + 1, out, a :: left, b :: right => do
    match ← (o.collectPair collect a b).mapError Halt.fault with
    | .apart =>
      if compare b a = .lt then mergeLoop n (b :: out) (a :: left) right
      else mergeLoop n (a :: out) left (b :: right)
    | .cancelled => mergeLoop n out left right
    | .one c =>
      if o.absorbs c then .error (.absorbed c)
      else if o.fits c out.head? left.head? then mergeLoop n out (c :: left) right
      else
        let rest ← mergeLoop n [] left right
        let front ← mergeLoop n [] out.reverse (o.operands c)
        mergeLoop n [] front rest

-- A step either shortens the pending lists or, where operands collect, makes the whole lighter.
def mergeBudget (left right : List Expr) : Nat :=
  (weights left + weights right + 1) * (weights left + weights right + 1)

-- Merges two ascending lists of operands and collects what is alike.
def merge (left right : List Expr) : Except Halt (List Expr) :=
  o.mergeLoop collect (mergeBudget left right) [] left right

-- Combines canonical operands into one expression. An operand of the operation's own kind is merged
-- operand by operand, which flattens it.
def combineWith (xs : List Expr) : Except Fault Expr :=
  match xs.find? o.absorbs with
  | some e => .ok e
  | none =>
    match xs.filter (!o.isIdentity ·) with
    | []  => .ok (num o.identity)
    | [x] => .ok x
    | xs  =>
      match (sort xs).foldlM (fun out x => o.merge collect out (o.operands x)) [] with
      | .ok out              => .ok (o.gather out)
      | .error (.absorbed e) => .ok e
      | .error (.fault f)    => .error f

end Operation

end ExactAlgebra
