import ExactAlgebra.Expr.Basic

namespace ExactAlgebra.Expr

-- The symbols of a tree as they occur, from left to right. A function's name is none.
mutual
def symbols : Expr → List String
  | num _                       => []
  | sym s                       => [s]
  | sum xs | prod xs | app _ xs => symbolsOf xs
  | pow b e                     => symbols b ++ symbols e
  | fact e                      => symbols e

def symbolsOf : List Expr → List String
  | []      => []
  | x :: xs => symbols x ++ symbolsOf xs
end

theorem mem_symbolsOf {s xs} : s ∈ symbolsOf xs ↔ ∃ x ∈ xs, s ∈ symbols x := by
  induction xs with
  | nil => simp [symbolsOf]
  | cons _ _ hi => simp [symbolsOf, hi]

def references (e : Expr) (s : String) : Bool :=
  s ∈ e.symbols

-- Inserts a name into a list that ascends by code point, unless it is there.
def insertName (s : String) : List String → List String
  | []      => [s]
  | t :: ts => if s < t then s :: t :: ts else if s = t then t :: ts else t :: insertName s ts

theorem mem_insertName {s t ts} : s ∈ insertName t ts ↔ s = t ∨ s ∈ ts := by
  induction ts with
  | nil => simp [insertName]
  | cons _ _ hi => grind [insertName]

-- The symbols of a tree, each once, ascending by code point.
def unknowns (e : Expr) : List String :=
  e.symbols.foldr insertName []

theorem mem_unknowns {e : Expr} {s} : s ∈ e.unknowns ↔ s ∈ e.symbols := by
  simp only [unknowns]
  induction e.symbols with
  | nil => simp
  | cons _ _ hi => simp [mem_insertName, hi]

end ExactAlgebra.Expr
