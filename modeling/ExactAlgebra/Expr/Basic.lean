import ExactAlgebra.Coefficient.Basic

namespace ExactAlgebra

-- Trees of symbolic algebra. Sums and products take any number of operands, functions any number of
-- arguments, and nothing is evaluated by building a tree.
inductive Expr where
  | num (value : Rat)
  | sym (name : String)
  | sum (terms : List Expr)
  | prod (factors : List Expr)
  | pow (base exponent : Expr)
  | fact (operand : Expr)
  | app (name : String) (args : List Expr)
  deriving Inhabited

namespace Expr

mutual
def decEq : (a b : Expr) → Decidable (a = b)
  | num p, num q => decidable_of_iff (p = q) (by simp)
  | sym s, sym t => decidable_of_iff (s = t) (by simp)
  | sum xs, sum ys =>
    haveI := decEqs xs ys
    decidable_of_iff (xs = ys) (by simp)
  | prod xs, prod ys =>
    haveI := decEqs xs ys
    decidable_of_iff (xs = ys) (by simp)
  | pow b e, pow c f =>
    haveI := decEq b c
    haveI := decEq e f
    decidable_of_iff (b = c ∧ e = f) (by simp)
  | fact e, fact f =>
    haveI := decEq e f
    decidable_of_iff (e = f) (by simp)
  | app s xs, app t ys =>
    haveI := decEqs xs ys
    decidable_of_iff (s = t ∧ xs = ys) (by simp)
  | num _, sym _ | num _, sum _ | num _, prod _ | num _, pow .. | num _, fact _ | num _, app ..
  | sym _, num _ | sym _, sum _ | sym _, prod _ | sym _, pow .. | sym _, fact _ | sym _, app ..
  | sum _, num _ | sum _, sym _ | sum _, prod _ | sum _, pow .. | sum _, fact _ | sum _, app ..
  | prod _, num _ | prod _, sym _ | prod _, sum _ | prod _, pow .. | prod _, fact _ | prod _, app ..
  | pow .., num _ | pow .., sym _ | pow .., sum _ | pow .., prod _ | pow .., fact _ | pow .., app ..
  | fact _, num _ | fact _, sym _ | fact _, sum _ | fact _, prod _ | fact _, pow .. | fact _, app ..
  | app .., num _ | app .., sym _ | app .., sum _ | app .., prod _ | app .., pow ..
  | app .., fact _ => isFalse (by simp)

def decEqs : (xs ys : List Expr) → Decidable (xs = ys)
  | [], [] => isTrue rfl
  | x :: xs, y :: ys =>
    haveI := decEq x y
    haveI := decEqs xs ys
    decidable_of_iff (x = y ∧ xs = ys) (by simp)
  | [], _ :: _ | _ :: _, [] => isFalse (by simp)
end

instance : DecidableEq Expr := decEq

def isConstant : Expr → Bool
  | num _ => true
  | _     => false

def isZero (e : Expr) : Bool := e = num 0

def isOne (e : Expr) : Bool := e = num 1

-- The value of a literal that is a whole number.
def integer? : Expr → Option Int
  | num q => Coefficient.integer? q
  | _     => none

-- The number of nodes, by which recursion on trees and the budgets of computations are measured.
mutual
def weight : Expr → Nat
  | num _ | sym _               => 1
  | sum xs | prod xs | app _ xs => 1 + weights xs
  | pow b e                     => 1 + weight b + weight e
  | fact e                      => 1 + weight e

def weights : List Expr → Nat
  | []      => 0
  | x :: xs => weight x + weights xs
end

@[simp]
theorem weights_nil : weights [] = 0 := rfl

@[simp]
theorem weights_cons {x xs} : weights (x :: xs) = weight x + weights xs := rfl

@[simp]
theorem weights_append {xs ys} : weights (xs ++ ys) = weights xs + weights ys := by
  induction xs with
  | nil => simp
  | cons _ _ hi => simp [hi, Nat.add_assoc]

@[simp]
theorem weights_reverse {xs} : weights xs.reverse = weights xs := by
  induction xs with
  | nil => rfl
  | cons _ _ hi => simp [hi, Nat.add_comm]

theorem weight_pos (e : Expr) : 0 < e.weight := by
  cases e <;> simp +arith [weight]

end Expr

end ExactAlgebra
