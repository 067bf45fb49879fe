import ExactAlgebra.Expr.Split
import ExactAlgebra.Operation.Basic

namespace ExactAlgebra.Expr

-- Induction on trees where each operand and each argument comes with its own hypothesis.
@[elab_as_elim, induction_eliminator]
theorem induct {motive : Expr → Prop}
    (num  : ∀ q, motive (num q))
    (sym  : ∀ s, motive (sym s))
    (sum  : ∀ xs, (∀ x ∈ xs, motive x) → motive (sum xs))
    (prod : ∀ xs, (∀ x ∈ xs, motive x) → motive (prod xs))
    (pow  : ∀ b e, motive b → motive e → motive (pow b e))
    (fact : ∀ e, motive e → motive (fact e))
    (app  : ∀ s xs, (∀ x ∈ xs, motive x) → motive (app s xs)) (e : Expr) : motive e :=
  match e with
  | .num q    => num q
  | .sym s    => sym s
  | .sum xs   => sum xs fun x _ => induct num sym sum prod pow fact app x
  | .prod xs  => prod xs fun x _ => induct num sym sum prod pow fact app x
  | .pow b e  =>
    pow b e (induct num sym sum prod pow fact app b) (induct num sym sum prod pow fact app e)
  | .fact e   => fact e (induct num sym sum prod pow fact app e)
  | .app s xs => app s xs fun x _ => induct num sym sum prod pow fact app x

-- A property of nodes, required of every node of a tree.
mutual
def Every (p : Expr → Prop) : Expr → Prop
  | num q    => p (num q)
  | sym s    => p (sym s)
  | sum xs   => p (sum xs) ∧ EveryOf p xs
  | prod xs  => p (prod xs) ∧ EveryOf p xs
  | pow b e  => p (pow b e) ∧ Every p b ∧ Every p e
  | fact e   => p (fact e) ∧ Every p e
  | app s xs => p (app s xs) ∧ EveryOf p xs

def EveryOf (p : Expr → Prop) : List Expr → Prop
  | []      => True
  | x :: xs => Every p x ∧ EveryOf p xs
end

variable {p q : Expr → Prop}

theorem everyOf_iff {xs} : EveryOf p xs ↔ ∀ x ∈ xs, x.Every p := by
  induction xs with
  | nil => simp [EveryOf]
  | cons _ _ hi => simp [EveryOf, hi]

@[simp]
theorem every_num {c} : (num c).Every p ↔ p (num c) := Iff.rfl

@[simp]
theorem every_sym {s} : (sym s).Every p ↔ p (sym s) := Iff.rfl

@[simp]
theorem every_sum {xs} : (sum xs).Every p ↔ p (sum xs) ∧ ∀ x ∈ xs, x.Every p := by
  simp [Every, everyOf_iff]

@[simp]
theorem every_prod {xs} : (prod xs).Every p ↔ p (prod xs) ∧ ∀ x ∈ xs, x.Every p := by
  simp [Every, everyOf_iff]

@[simp]
theorem every_pow {b e} : (pow b e).Every p ↔ p (pow b e) ∧ b.Every p ∧ e.Every p := Iff.rfl

@[simp]
theorem every_fact {e} : (fact e).Every p ↔ p (fact e) ∧ e.Every p := Iff.rfl

@[simp]
theorem every_app {s xs} : (app s xs).Every p ↔ p (app s xs) ∧ ∀ x ∈ xs, x.Every p := by
  simp [Every, everyOf_iff]

@[simp]
theorem every_node {o : Operation} {xs} :
    (o.node xs).Every p ↔ p (o.node xs) ∧ ∀ x ∈ xs, x.Every p := by
  cases o <;> simp [Operation.node]

namespace Every

theorem here {e : Expr} (h : e.Every p) : p e := by
  cases e <;> simp at h <;> first | exact h | exact h.left

theorem operands {e : Expr} (o : Operation) (h : e.Every p) : ∀ x ∈ o.operands e, x.Every p := by
  cases o <;> cases e <;> simp_all [Operation.operands]

theorem base {e s : Expr} (h : e.Every p) (hs : e.base? = some s) : s.Every p := by
  cases e <;> simp [base?] at hs <;> subst hs <;> first | exact h | exact h.right.left

theorem exponent {e f : Expr} (hp : p (Expr.num 1)) (h : e.Every p) (hf : e.exponent? = some f) :
    f.Every p := by
  cases e <;> simp [exponent?] at hf <;> subst hf <;> first | exact hp | exact h.right.right

theorem of_forall {e : Expr} (h : ∀ e, p e) : e.Every p := by
  induction e <;> simp_all

theorem every {e : Expr} (h : e.Every p) : e.Every (Every p) := by
  induction e <;> simp_all

theorem mono {e : Expr} (hpq : ∀ e, p e → q e) (h : e.Every p) : e.Every q := by
  induction e <;> simp_all

end Every

end ExactAlgebra.Expr
