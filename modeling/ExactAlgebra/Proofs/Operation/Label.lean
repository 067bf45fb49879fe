import ExactAlgebra.Operation.Basic
import ExactAlgebra.Proofs.Expr.Split

namespace ExactAlgebra.Operation

open ExactAlgebra.Expr

-- What makes operands alike: terms have a symbolic part and factors a base. Numbers have neither,
-- and are alike without one.
def label? : Operation → Expr → Option Expr
  | sum, e     =>
    match e.split? with
    | .ok (some (_, t)) => some t
    | _                 => none
  | product, e => e.base?

-- Merging two alike operands leaves only one of their labels, so the labels measure progress where
-- whole operands may well grow.
def labelWeight (o : Operation) (e : Expr) : Nat :=
  (o.label? e).elim 1 weight

def load (o : Operation) : List Expr → Nat
  | []      => 0
  | x :: xs => o.labelWeight x + o.load xs

variable {o : Operation} {e : Expr} {x : Expr} {xs ys : List Expr}

theorem labelWeight_pos : 0 < o.labelWeight e := by
  unfold labelWeight
  cases o.label? e <;> simp [weight_pos]

theorem label?_weight {t} (h : o.label? e = some t) : t.weight ≤ e.weight := by
  cases o
  case sum =>
    simp only [label?] at h
    split at h <;> cases h
    case h_1 hs => exact weight_split? hs
  case product => cases e <;> simp [label?, base?] at h <;> simp +arith [←h, weight]

theorem labelWeight_le_weight : o.labelWeight e ≤ e.weight := by
  unfold labelWeight
  cases h : o.label? e
  case none   => exact e.weight_pos
  case some t => exact label?_weight h

@[simp]
theorem load_nil : o.load [] = 0 := rfl

@[simp]
theorem load_cons : o.load (x :: xs) = o.labelWeight x + o.load xs := rfl

@[simp]
theorem load_append : o.load (xs ++ ys) = o.load xs + o.load ys := by
  induction xs with
  | nil => simp
  | cons _ _ hi => simp [hi, Nat.add_assoc]

@[simp]
theorem load_reverse : o.load xs.reverse = o.load xs := by
  induction xs with
  | nil => rfl
  | cons _ _ hi => simp [hi, Nat.add_comm]

theorem length_le_load (o : Operation) (xs : List Expr) : xs.length ≤ o.load xs := by
  induction xs with
  | nil => simp
  | cons x _ hi =>
    have := o.labelWeight_pos (e := x)
    simp
    omega

theorem load_le_weights (o : Operation) (xs : List Expr) : o.load xs ≤ weights xs := by
  induction xs with
  | nil => simp
  | cons _ _ hi => exact Nat.add_le_add labelWeight_le_weight hi

theorem labelWeight_le_load (h : x ∈ xs) : o.labelWeight x ≤ o.load xs := by
  induction h with
  | head       => simp
  | tail _ _ hi => exact Nat.le_add_left_of_le hi

end ExactAlgebra.Operation
