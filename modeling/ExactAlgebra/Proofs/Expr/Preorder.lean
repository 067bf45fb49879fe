import ExactAlgebra.Proofs.Expr.Sort

-- On improper trees the canonical order is a total preorder at best: a one-operand list and a first
-- power compare as equal to what they stand for. It is one exactly where factorials do not tell
-- such trees apart.

namespace ExactAlgebra.Expr

variable {p : Expr → Prop} {a b c e y : Expr}

theorem compare_total (a b : Expr) : compare a b ≠ .gt ∨ compare b a ≠ .gt := by
  have h := compare_swap a b
  cases hc : compare a b <;> simp_all

def Preordered (p : Expr → Prop) : Prop :=
  ∀ ⦃a b c⦄, a.Every p → b.Every p → c.Every p →
    compare a b ≠ .gt → compare b c ≠ .gt → compare a c ≠ .gt

theorem Discerning.preordered (hp : Discerning p) : Preordered p :=
  fun _ _ _ => hp.compare_ne_gt_trans

-- A factorial that is confused with a symbol or a function comes both before and after it.
theorem Preordered.discerning (hf : ∀ y : Expr, 4 < y.level → p y → p (fact y))
    (h : Preordered p) : Discerning p := by
  intro e y he hy hl hc
  by_cases hey : e = y
  case pos => exact hey
  case neg =>
    have hfy : (fact y).Every p := ⟨hf y hl hy.here, hy⟩
    have hup : compare (fact y) (fact e) = .eq := by
      rw [compare, compare_swap, hc]
      rfl
    have hdown : compare (fact e) y = .eq := by
      rw [compare_fact_call hl, if_neg hey, hc]
    have hgt : compare (fact y) y = .gt := by
      rw [compare_fact_call hl, if_pos rfl]
    exact absurd hgt (h hfy he hy (by simp [hup]) (by simp [hdown]))

-- Trees whose factorials and functions are applied to proper trees.
def ProperlyApplied : Expr → Prop
  | fact e   => e.Every Proper
  | app _ xs => ∀ x ∈ xs, x.Every Proper
  | _        => True

theorem ProperlyApplied.every_proper (hl : 4 < e.level) (h : e.ProperlyApplied) :
    e.Every Proper := by
  cases e <;> simp [level] at hl
  case sym      => exact trivial
  case app s xs => exact every_app.mpr ⟨trivial, h⟩

theorem discerning_properlyApplied : Discerning ProperlyApplied := by
  intro e y he hy hl hc
  have he' : e.Every Proper := he.here
  exact (compare_eq_iff he' (hy.here.every_proper hl)).mp hc

theorem compare_preorder :
    (∀ a b : Expr, compare a b ≠ .gt ∨ compare b a ≠ .gt) ∧
    (Discerning p → Preordered p ∧
      ∀ xs : List Expr, (∀ x ∈ xs, x.Every p) → (sort xs).Pairwise (compare · · ≠ .gt)) ∧
    ((∀ y : Expr, 4 < y.level → p y → p (fact y)) → Preordered p → Discerning p) where
  left  := compare_total
  right := ⟨fun hp => ⟨hp.preordered, fun _ => hp.sort_sorted⟩, Preordered.discerning⟩

-- Three ways to write one symbol, and its factorial.
theorem compare_preorder_improper :
    let a := sum [pow (sym "x") (num 1)]
    let b := prod [sum [sym "x"]]
    let c := fact (sym "x")
    (a.Every ProperlyApplied ∧ b.Every ProperlyApplied ∧ c.Every ProperlyApplied) ∧
      (compare a b = .eq ∧ compare b c = .lt) ∧ compare a c ≠ .gt ∧
      (sort [c, b, sym "x", a]).Pairwise (compare · · ≠ .gt) ∧ Discerning ProperlyApplied := by
  intro a b c
  have ha : a.Every ProperlyApplied := by simp [a, ProperlyApplied]
  have hb : b.Every ProperlyApplied := by simp [b, ProperlyApplied]
  have hc : c.Every ProperlyApplied := by simp [c, ProperlyApplied, Proper]
  have hx : (sym "x").Every ProperlyApplied := trivial
  have hab : compare a b = .eq := by cbv
  have hbc : compare b c = .lt := by cbv
  obtain ⟨_, hpreorder, hdiscerning⟩ := compare_preorder (p := ProperlyApplied)
  obtain ⟨htrans, hsort⟩ := hpreorder discerning_properlyApplied
  have hfact (y : Expr) (hl : 4 < y.level) (h : y.ProperlyApplied) :
      (fact y).ProperlyApplied := h.every_proper hl
  exact ⟨⟨ha, hb, hc⟩, ⟨hab, hbc⟩, htrans ha hb hc (by simp [hab]) (by simp [hbc]),
    hsort _ (by simp [ha, hb, hc, hx]), hdiscerning hfact htrans⟩

-- The factorial of a first power is not put behind the base, as the factorial of the base is. So the
-- exponents decide in two of the three comparisons only.
theorem compare_cycle :
    let x := sym "x"
    let a := pow (fact x) (num 2)
    let b := pow (fact (pow x (num 1))) (num 3)
    let c := pow x (num 4)
    compare a b = .lt ∧ compare b c = .lt ∧ compare a c = .gt := by
  intro x a b c
  exact ⟨by cbv, by cbv, by cbv⟩

end ExactAlgebra.Expr
