import ExactAlgebra.Expr.Split

namespace ExactAlgebra.Expr

variable {e t : Expr} {c : Rat}

-- A coefficient and a symbolic part come from a leading literal, or the whole term is symbolic.
theorem split?_eq_some (h : e.split? = .ok (some (c, t))) :
    e = prod [num c, t] ∨ (∃ xs, xs.length ≠ 1 ∧ e = prod (num c :: xs) ∧ t = prod xs) ∨
      (c = 1 ∧ t = e ∧ ∀ q xs, e ≠ prod (num q :: xs)) := by
  unfold split? at h
  split at h <;> simp at h
  case h_3 => exact .inl <| by simp [h]
  case h_4 xs hx =>
    refine .inr <| .inl ⟨xs, ?_, by simp [h]⟩
    intro hl
    have ⟨y, hy⟩ := List.length_eq_one_iff.mp hl
    exact hx y hy
  case h_5 hn => exact .inr <| .inr ⟨h.left.symm, h.right.symm, fun q xs he => hn q xs he⟩

theorem split?_eq_error {f} (h : e.split? = .error f) : e = prod [] ∧ f = .noLeadingFactor := by
  unfold split? at h
  split at h <;> cases h
  exact ⟨rfl, rfl⟩

theorem split?_eq_none (h : e.split? = .ok none) : e.isConstant := by
  unfold split? at h
  split at h <;> cases h
  rfl

theorem base?_eq_none (h : e.base? = none) : e.isConstant := by
  cases e <;> cases h
  rfl

theorem exists_base (h : e.isConstant = false) : ∃ b, e.base? = some b := by
  cases hb : e.base?
  case some b => exact ⟨b, rfl⟩
  case none   => simp [base?_eq_none hb] at h

theorem exists_exponent {b} (h : e.base? = some b) : ∃ f, e.exponent? = some f := by
  cases e <;> simp_all [base?, exponent?]

theorem weight_split? (h : e.split? = .ok (some (c, t))) : t.weight ≤ e.weight := by
  obtain rfl | ⟨xs, -, rfl, rfl⟩ | ⟨-, rfl, -⟩ := split?_eq_some h <;> simp +arith [weight]

end ExactAlgebra.Expr
