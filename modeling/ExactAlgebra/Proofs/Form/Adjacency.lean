import ExactAlgebra.Proofs.Form.Coefficients
import ExactAlgebra.Proofs.Simplify.FixedPoint

-- Like operands are adjacent in the canonical order: what stands between two terms with the same
-- symbolic part, or between two factors with the same base, has it too.

namespace ExactAlgebra.Expr

open ExactAlgebra.Operation

variable {limit : Nat} {a b c s t : Expr}

theorem compare_ne_eq (hs : s.Every (Canonical limit)) (ht : t.Every (Canonical limit))
    (h : s ≠ t) : compare s t ≠ .eq :=
  mt (compare_eq_iff (hs.mono fun _ h => h.neat.proper) (ht.mono fun _ h => h.neat.proper)).mp h

-- Coefficients only matter between terms with the same symbolic part.
theorem compare_split? (ha : a.Every (Canonical limit)) (hb : b.Every (Canonical limit)) {p q}
    (hs : a.split? = .ok (some (p, s))) (ht : b.split? = .ok (some (q, t))) (h : s ≠ t) :
    compare a b = compare s t := by
  have hse := (canonical_form.symbolic ha hs).left
  have hte := (canonical_form.symbolic hb ht).left
  exact canonical_form.compare_symbolic ha hb (sum_label? hs) (sum_label? ht)
    (compare_ne_eq hse hte h)

-- Exponents only matter between factors with the same base.
theorem compare_base? (ha : a.Every (Canonical limit)) (hb : b.Every (Canonical limit))
    (hpa : product.owns a = false) (hpb : product.owns b = false) (hs : a.base? = some s)
    (ht : b.base? = some t) (h : s ≠ t) : compare a b = compare s t := by
  have hbelongs {e s : Expr} (hp : product.owns e = false) (hs : e.base? = some s) :
      Belongs .product e :=
    .of_level_pos hp (level_pos_of_label? (o := product) hs)
  exact Form.compare_bases (hbelongs hpa hs) (hbelongs hpb ht) hs ht
    (compare_ne_eq (ha.base hs) (hb.base ht) h)

-- What is compared by its label to both its neighbours cannot come between two like ones.
theorem eq_of_between (hab : s ≠ t → compare a b = compare s t)
    (hbc : t ≠ s → compare b c = compare t s) (h₁ : compare a b = .lt) (h₂ : compare b c = .lt) :
    t = s := by
  by_contra hne
  have hst : compare s t = .lt := (hab (Ne.symm hne)).symm.trans h₁
  have hts : compare t s = .lt := (hbc hne).symm.trans h₂
  simp [compare_eq_gt_iff.mpr hts] at hst

theorem like_operands_adjacent (ha : a.Every (Canonical limit)) (hb : b.Every (Canonical limit))
    (hc : c.Every (Canonical limit)) (hna : a.isConstant = false) (hnb : b.isConstant = false)
    (hnc : c.isConstant = false) :
    ∃ p q r s t u, a.split? = .ok (some (p, s)) ∧ b.split? = .ok (some (q, t)) ∧
      c.split? = .ok (some (r, u)) ∧ (s ≠ t → compare a b = compare s t) ∧
      (compare a b = .lt → compare b c = .lt →
        (s = u → t = s) ∧
        (product.owns a = false → product.owns b = false → product.owns c = false →
          a.base? = c.base? → b.base? = a.base?)) := by
  have ⟨p, s, hs⟩ := canonical_form.exists_split? ha hna
  have ⟨q, t, ht⟩ := canonical_form.exists_split? hb hnb
  have ⟨r, u, hu⟩ := canonical_form.exists_split? hc hnc
  refine ⟨p, q, r, s, t, u, hs, ht, hu, compare_split? ha hb hs ht, fun hab hbc => ⟨?_, ?_⟩⟩
  case refine_1 =>
    intro hsu
    exact eq_of_between (compare_split? ha hb hs ht) (hsu ▸ compare_split? hb hc ht hu) hab hbc
  case refine_2 =>
    intro hpa hpb hpc hbase
    have ⟨x, hx⟩ := exists_base hna
    have ⟨y, hy⟩ := exists_base hnb
    have hyx := eq_of_between (compare_base? ha hb hpa hpb hx hy)
      (compare_base? hb hc hpb hpc hy (hbase.symm.trans hx)) hab hbc
    exact hy.trans (hyx ▸ hx.symm)

-- Three multiples of a product, and three powers of a symbol.
theorem like_operands_adjacent_multiples :
    let x := sym "x"
    let s := prod [pow x (num 2), sym "y"]
    let a := prod [num (-3), pow x (num 2), sym "y"]
    let b := prod [num 5, pow x (num 2), sym "y"]
    let u := pow x (num (-1))
    let v := pow x (sym "y")
    (s.Every (Canonical 0) ∧ a.Every (Canonical 0) ∧ b.Every (Canonical 0)) ∧
      (compare s a = .lt ∧ compare a b = .lt) ∧ (∃ q, a.split? = .ok (some (q, s))) ∧
      (u.Every (Canonical 0) ∧ x.Every (Canonical 0) ∧ v.Every (Canonical 0)) ∧
      (compare u x = .lt ∧ compare x v = .lt) ∧ x.base? = u.base? := by
  intro x s a b u v
  obtain ⟨⟨hs, ha, hb⟩, hu, hx, hv⟩ :
      (s.Every (Canonical 0) ∧ a.Every (Canonical 0) ∧ b.Every (Canonical 0)) ∧
        u.Every (Canonical 0) ∧ x.Every (Canonical 0) ∧ v.Every (Canonical 0) := by
    refine ⟨⟨?_, ?_, ?_⟩, ?_, ?_, ?_⟩
    all_goals
      refine canonical_of_fixed_nodes (c := ⟨0⟩) ?_
      repeat' apply And.intro
      all_goals cbv
  have hsa : compare s a = .lt := by cbv
  have hab : compare a b = .lt := by cbv
  have hux : compare u x = .lt := by cbv
  have hxv : compare x v = .lt := by cbv
  obtain ⟨_, q, _, s', t, s'', hs', hat, hs'', _, hlike⟩ := like_operands_adjacent hs ha hb rfl rfl rfl
  cases hs'
  cases hs''
  have hts : t = s := (hlike hsa hab).left rfl
  obtain ⟨_, _, _, _, _, _, _, _, _, _, hpowers⟩ := like_operands_adjacent hu hx hv rfl rfl rfl
  have hbase : x.base? = u.base? := (hpowers hux hxv).right rfl rfl rfl rfl
  exact ⟨⟨hs, ha, hb⟩, ⟨hsa, hab⟩, ⟨q, hts ▸ hat⟩, ⟨hu, hx, hv⟩, ⟨hux, hxv⟩, hbase⟩

end ExactAlgebra.Expr
