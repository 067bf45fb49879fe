import ExactAlgebra.Expr.Scale
import ExactAlgebra.Proofs.Expr.Split

namespace ExactAlgebra.Expr

open ExactAlgebra.Operation

-- Properties that a tree shares with its operands, where no sum or product has fewer than two of
-- them. Collecting takes operands apart and puts them together again, and so keeps such properties.
structure Hereditary (P : Expr → Prop) : Prop where
  num {q} : P (num q)
  node {o : Operation} {xs} : P (o.node xs) ↔ 2 ≤ xs.length ∧ ∀ x ∈ xs, P x
  pow {b e} : P (pow b e) ↔ P b ∧ P e

namespace Hereditary

variable {P : Expr → Prop} {o : Operation} {e : Expr} {c : Rat} {xs : List Expr}

theorem terms (hp : Hereditary P) : P (sum xs) ↔ 2 ≤ xs.length ∧ ∀ x ∈ xs, P x :=
  hp.node (o := .sum)

theorem factors (hp : Hereditary P) : P (prod xs) ↔ 2 ≤ xs.length ∧ ∀ x ∈ xs, P x :=
  hp.node (o := .product)

theorem operands (hp : Hereditary P) (h : P e) : ∀ x ∈ o.operands e, P x := by
  cases o <;> cases e <;> simp only [Operation.operands, List.mem_singleton, forall_eq]
  case sum.sum      => exact (hp.terms.mp h).right
  case product.prod => exact (hp.factors.mp h).right
  all_goals exact h

theorem gather (hp : Hereditary P) (h : ∀ x ∈ xs, P x) : P (o.gather xs) := by
  match xs with
  | []          => exact hp.num
  | [x]         => exact h x (by simp)
  | x :: y :: xs => exact hp.node.mpr ⟨by simp, h⟩

theorem base (hp : Hereditary P) (h : P e) {b} (hb : e.base? = some b) : P b := by
  cases e <;> cases hb
  case pow => exact (hp.pow.mp h).left
  all_goals exact h

theorem exponent (hp : Hereditary P) (h : P e) {f} (hf : e.exponent? = some f) : P f := by
  cases e <;> cases hf
  case pow => exact (hp.pow.mp h).right
  all_goals exact hp.num

-- Only an empty product cannot be split.
theorem split? (hp : Hereditary P) (h : P e) {f} : e.split? ≠ .error f := by
  intro hf
  obtain ⟨rfl, -⟩ := split?_eq_error hf
  exact absurd (hp.factors.mp h).left (by simp)

theorem symbolic (hp : Hereditary P) (h : P e) {t} (ht : e.split? = .ok (some (c, t))) : P t := by
  obtain rfl | ⟨xs, hl, rfl, rfl⟩ | ⟨-, rfl, -⟩ := split?_eq_some ht
  case inl => exact (hp.factors.mp h).right t (by simp)
  case inr.inr => exact h
  case inr.inl =>
    have ⟨hn, hx⟩ := hp.factors.mp h
    refine hp.factors.mpr ⟨?_, (List.forall_mem_cons.mp hx).right⟩
    rw [List.length_cons] at hn
    omega

theorem scaleFactors (hp : Hereditary P) (h : ∀ x ∈ xs, P x) : P (scaleFactors c xs) := by
  fun_induction Expr.scaleFactors c xs
  case case1 | case3 => exact hp.num
  case case2         => exact hp.gather (List.forall_mem_cons.mp h).right
  case case4 hi      => exact hi (List.forall_mem_cons.mp h).right
  case case5 c xs hx _ =>
    refine hp.factors.mpr ⟨?_, List.forall_mem_cons.mpr ⟨hp.num, h⟩⟩
    have := List.length_pos_iff.mpr hx
    rw [List.length_cons]
    omega

theorem scale (hp : Hereditary P) (h : P e) : P (scale c e) := by
  fun_cases Expr.scale c e
  case case1 | case2 => exact hp.num
  case case3         => exact h
  case case4         => exact hp.scaleFactors (hp.factors.mp h).right
  case case5         => exact hp.factors.mpr ⟨by simp, by simp [hp.num, h]⟩

end Hereditary

end ExactAlgebra.Expr
