import ExactAlgebra.Proofs.Expr.Order

-- Sorting puts trees in their order, as far as it is one. Proper trees give the same list, whichever
-- order they come in.

namespace ExactAlgebra.Expr

variable {a b c x : Expr} {xs ys : List Expr}

namespace Discerning

variable {p : Expr → Prop}

theorem compare_ne_gt_trans (hp : Discerning p) (ha : a.Every p) (hb : b.Every p) (hc : c.Every p)
    (hab : compare a b ≠ .gt) (hbc : compare b c ≠ .gt) : compare a c ≠ .gt := by
  rw [hp.chain ha hb hc hab hbc]
  cases h : compare a b <;> simp_all [Ordering.then]

theorem insert_sorted (hp : Discerning p) (hx : x.Every p) (hxs : ∀ y ∈ xs, y.Every p)
    (h : xs.Pairwise (compare · · ≠ .gt)) : (insert x xs).Pairwise (compare · · ≠ .gt) := by
  induction xs with
  | nil => exact List.pairwise_singleton ..
  | cons y ys hi =>
    have ⟨hy, hys⟩ := List.forall_mem_cons.mp hxs
    have ⟨hyz, hs⟩ := List.pairwise_cons.mp h
    rw [insert]
    split
    case isTrue hxy =>
      refine List.pairwise_cons.mpr ⟨fun z hz => ?_, hi hys hs⟩
      rcases List.mem_cons.mp (insert_perm.mem_iff.mp hz) with rfl | hz
      case inl => simp [compare_eq_gt_iff.mp hxy]
      case inr => exact hyz z hz
    case isFalse hxy =>
      refine List.pairwise_cons.mpr ⟨List.forall_mem_cons.mpr ⟨hxy, fun z hz => ?_⟩, h⟩
      exact hp.compare_ne_gt_trans hx hy (hys z hz) hxy (hyz z hz)

theorem sort_sorted (hp : Discerning p) (h : ∀ x ∈ xs, x.Every p) :
    (sort xs).Pairwise (compare · · ≠ .gt) := by
  induction xs with
  | nil => exact .nil
  | cons x xs hi =>
    have ⟨hx, hxs⟩ := List.forall_mem_cons.mp h
    exact hp.insert_sorted hx (fun y hy => hxs y (sort_perm.mem_iff.mp hy)) (hi hxs)

end Discerning

theorem sort_eq_of_perm (h : ∀ x ∈ xs, x.Every Proper) (hp : xs.Perm ys) : sort xs = sort ys := by
  have hys : ∀ y ∈ ys, y.Every Proper := fun y hy => h y (hp.mem_iff.mpr hy)
  have hxs := discerning_proper.sort_sorted h
  refine List.Perm.eq_of_pairwise ?_ hxs (discerning_proper.sort_sorted hys) ?_
  case refine_1 =>
    intro a b ha hb hab hba
    apply (compare_eq_iff (h a (sort_perm.mem_iff.mp ha)) (hys b (sort_perm.mem_iff.mp hb))).mp
    cases hc : compare a b
    case lt => exact absurd (compare_eq_gt_iff.mpr hc) hba
    case eq => rfl
    case gt => exact absurd hc hab
  case refine_2 => exact sort_perm.trans (hp.trans sort_perm.symm)

theorem sort_pair_eq {a b u v} (h : sort [a, b] = [u, v]) : u = a ∧ v = b ∨ u = b ∧ v = a := by
  simp only [sort, Expr.insert] at h
  split at h <;> simp_all

end ExactAlgebra.Expr
