import ExactAlgebra.Expr.Basic

namespace ExactAlgebra.Expr

-- Numbers are compared by value and names by code point.
def compareLeaves {α} [LT α] [DecidableLT α] [DecidableEq α] (x y : α) : Ordering :=
  if x < y then .lt else if x = y then .eq else .gt

-- The canonical order:
-- * Numbers come before everything else.
-- * Products, and after them sums, are compared from the last operand backwards. Against a list of
--   operands anything else counts as a list of one.
-- * A power is compared by its base and then by its exponent, and anything else counts as its own
--   first power.
-- * A factorial directly follows its operand, and a function the symbol of its name.
mutual
def compare (a b : Expr) : Ordering :=
  match a, b with
  | num p, num q     => compareLeaves p q
  | num _, _         => .lt
  | _, num _         => .gt
  | prod xs, prod ys => compareLists xs.reverse ys.reverse
  | prod xs, y       => compareLists xs.reverse [y]
  | x, prod ys       => compareLists [x] ys.reverse
  | pow b e, pow c f => (compare b c).then (compare e f)
  | pow b e, y       => (compare b y).then (compare e (num 1))
  | x, pow c f       => (compare x c).then (compare (num 1) f)
  | sum xs, sum ys   => compareLists xs.reverse ys.reverse
  | sum xs, y        => compareLists xs.reverse [y]
  | x, sum ys        => compareLists [x] ys.reverse
  | fact e, fact f   => compare e f
  | fact e, y        => if e = y then .gt else compare e y
  | x, fact f        => if f = x then .lt else compare x f
  | app s xs, app t ys => if s = t then compareLists xs ys else compareLeaves s t
  | app s _, sym t   => if s = t then .gt else compareLeaves s t
  | sym s, app t _   => if s = t then .lt else compareLeaves s t
  | sym s, sym t     => compareLeaves s t
termination_by 2 * (a.weight + b.weight)
decreasing_by all_goals grind [weight, weights_nil, weights_cons, weights_reverse, weight_pos]

def compareLists (xs ys : List Expr) : Ordering :=
  match xs, ys with
  | [], []           => .eq
  | [], _ :: _       => .lt
  | _ :: _, []       => .gt
  | x :: xs, y :: ys => (compare x y).then (compareLists xs ys)
termination_by 2 * (weights xs + weights ys) + 1
decreasing_by all_goals grind [weights_cons, weight_pos]
end

-- Inserts in front of everything that does not come before it.
def insert (x : Expr) : List Expr → List Expr
  | []      => [x]
  | y :: ys => if compare x y = .gt then y :: insert x ys else x :: y :: ys

-- Sorts stably by the canonical order.
def sort : List Expr → List Expr
  | []      => []
  | x :: xs => insert x (sort xs)

theorem insert_perm {x xs} : (insert x xs).Perm (x :: xs) := by
  induction xs with
  | nil => exact .refl _
  | cons y ys hi =>
    simp only [insert]
    split
    case isTrue  => exact (hi.cons y).trans (.swap x y ys)
    case isFalse => exact .refl _

theorem sort_perm {xs} : (sort xs).Perm xs := by
  induction xs with
  | nil => exact .refl _
  | cons x _ hi => exact insert_perm.trans (hi.cons x)

end ExactAlgebra.Expr
