import ExactAlgebra.Request.Refusal
import ExactAlgebra.Request.Value

namespace ExactAlgebra.Request.Value

-- The canonical order, as far as it extends to values that are no expressions.
def compare (a b : Value) : Except Refusal Ordering :=
  if equal a b then .ok .eq
  else match a, b with
    | expr x, expr y => .ok (x.compare y)
    | expr x, b => match x.anchor? with
      | some e => .error (.unordered e.shape b.kind)
      | none   => .ok .lt
    | a, expr y => match y.anchor? with
      | some e => .error (.unordered a.kind e.shape)
      | none   => .ok .gt
    | a, b => .error (.unordered a.kind b.kind)

-- Expressions relate by the canonical order, and so do wrapped ones, but not one to the other.
def relate (r : Relation) : Value → Value → Except Refusal Bool
  | expr x, expr y             => .ok (r.holds (x.compare y))
  | simplified x, simplified y => .ok (r.holds (x.expr.compare y.expr))
  | str s, str t               => .ok (r.holds (Expr.compareLeaves s t))
  | a, b => match a.number?, b.number? with
    | some p, some q => .ok ((p.compare? q).any r.holds)
    | _, _           => .error (.incomparable r a.kind b.kind)

-- Inserts into a descending list, in front of everything that the value does not precede.
def insert (v : Value) : List Value → Except Refusal (List Value)
  | []      => .ok [v]
  | w :: ws => do
    if (← compare v w) = .lt then return w :: (← insert v ws)
    else return v :: w :: ws

-- Sorts stably by the canonical order, taking the values from left to right.
def sort (vs : List Value) : Except Refusal (List Value) :=
  List.reverse <$> vs.foldlM (fun ws v => insert v ws) []

end ExactAlgebra.Request.Value
