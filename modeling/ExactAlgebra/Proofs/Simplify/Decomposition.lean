import ExactAlgebra.Proofs.Form.Coefficients
import ExactAlgebra.Proofs.Simplify.FixedPoint
import ExactAlgebra.Simplified

-- A canonical expression is the product of its coefficient and its symbolic part, and the power of
-- its base and its exponent.

namespace ExactAlgebra

open ExactAlgebra.Expr ExactAlgebra.Operation

namespace Expr

variable {limit : Nat} {b e f t : Expr} {q : Rat}

theorem split?_of_split? (h : e.Every (Canonical limit)) (hs : e.split? = .ok (some (q, t))) :
    t.split? = .ok (some (1, t)) :=
  canonical_form.split?_symbolic (canonical_form.symbolic h hs).left (canonical_form.splits h hs)

theorem productOf_split? (h : e.Every (Canonical limit)) (hs : e.split? = .ok (some (q, t))) :
    productOf [num q, t] = .ok e := by
  rw [productOf_pair (.inl rfl), canonical_form.scale_of_split? h hs]

theorem powerOf_one : powerOf e (num 1) = .ok e := by
  have ⟨d, hd⟩ := Nat.exists_eq_succ_of_ne_zero e.weight_pos.ne'
  have m := powerWith_powers (raise e.weight) e (num 1)
  rw [powerOf]
  generalize powerWith (raise e.weight) e (num 1) = r at m
  cases m
  case zero he _ _     => rw [he]
  case one he          => rw [he]
  case undefined hf hq =>
    cases hf
    exact absurd one_pos hq
  case symbolic h      => exact absurd h (Nat.lt_irrefl 0)
  case apart h         => cases (integer?_eq_some_iff.mpr rfl).symm.trans h
  case whole n _ _ hn  =>
    have hn : n = 1 := by simpa [eq_comm] using hn
    rw [hn, hd, raise_one]

theorem powerOf_base? (h : e.Every (Canonical limit)) (hb : e.base? = some b)
    (hf : e.exponent? = some f) : powerOf b f = .ok e := by
  cases e <;> cases hb <;> cases hf
  case pow => exact powerOf_canonical h.here
  all_goals exact powerOf_one

end Expr

namespace Simplified

variable {limit : Nat} {s : Simplified} {c : Rat} {t : Expr}

theorem split?_eq (h : s.expr.split? = .ok (some (c, t))) : s.split? = .ok (some (c, ⟨t⟩)) := by
  simp [split?, h, bind, Except.bind, pure, Except.pure]

theorem product_split? (h : s.expr.Every (Canonical limit)) (hn : s.expr.isConstant = false) :
    ∃ c t, s.split? = .ok (some (c, t)) ∧ t.expr.Every (Canonical limit) ∧
      t.split? = .ok (some (1, t)) ∧ product [constant c, t] = .ok s := by
  have ⟨c, t, hs⟩ := canonical_form.exists_split? h hn
  have hp : product [constant c, ⟨t⟩] = .ok s := congrArg (mk <$> ·) (productOf_split? h hs)
  exact ⟨c, ⟨t⟩, split?_eq hs, (canonical_form.symbolic h hs).left,
    split?_eq (split?_of_split? h hs), hp⟩

theorem power_base? (h : s.expr.Every (Canonical limit)) (hn : s.expr.isConstant = false) :
    ∃ b e, s.base? = some b ∧ s.exponent? = some e ∧ b.expr.Every (Canonical limit) ∧
      e.expr.Every (Canonical limit) ∧ power b e = .ok s := by
  have ⟨b, hb⟩ := exists_base hn
  have ⟨e, he⟩ := exists_exponent hb
  have hp : power ⟨b⟩ ⟨e⟩ = .ok s := congrArg (mk <$> ·) (powerOf_base? h hb he)
  exact ⟨⟨b⟩, ⟨e⟩, by simp [base?, hb], by simp [exponent?, he], h.base hb,
    canonical_form.exponent h he, hp⟩

theorem decomposes (h : s.expr.Every (Canonical limit)) (hn : s.expr.isConstant = false) :
    (∃ c t, s.split? = .ok (some (c, t)) ∧ t.expr.Every (Canonical limit) ∧
      t.split? = .ok (some (1, t)) ∧ product [constant c, t] = .ok s) ∧
    ∃ b e, s.base? = some b ∧ s.exponent? = some e ∧ b.expr.Every (Canonical limit) ∧
      e.expr.Every (Canonical limit) ∧ power b e = .ok s :=
  ⟨product_split? h hn, power_base? h hn⟩

-- A multiple and a power of a sum.
theorem decomposes_sums :
    let u := Expr.sum [num 1, sym "x"]
    let s := prod [num (-3 / 2), u]
    let t := pow u (sym "n")
    (s.Every (Canonical 0) ∧ t.Every (Canonical 0)) ∧
      split? ⟨s⟩ = .ok (some (-3 / 2, ⟨u⟩)) ∧ split? ⟨u⟩ = .ok (some (1, ⟨u⟩)) ∧
      product [constant (-3 / 2), ⟨u⟩] = .ok ⟨s⟩ ∧ base? ⟨t⟩ = some ⟨u⟩ ∧
      exponent? ⟨t⟩ = some ⟨sym "n"⟩ ∧ power ⟨u⟩ ⟨sym "n"⟩ = .ok ⟨t⟩ := by
  intro u s t
  have hs : s.Every (Canonical 0) := by
    refine canonical_of_fixed_nodes (c := ⟨0⟩) ?_
    repeat' apply And.intro
    all_goals cbv
  have ht : t.Every (Canonical 0) := by
    refine canonical_of_fixed_nodes (c := ⟨0⟩) ?_
    repeat' apply And.intro
    all_goals cbv
  obtain ⟨⟨_, _, hsplit, _, hrest, hproduct⟩, _⟩ := decomposes (s := ⟨s⟩) hs rfl
  obtain ⟨_, _, _, hbase, hexponent, _, _, hpower⟩ := decomposes (s := ⟨t⟩) ht rfl
  cases hsplit
  cases hbase
  cases hexponent
  exact ⟨⟨hs, ht⟩, rfl, hrest, hproduct, rfl, rfl, hpower⟩

end Simplified

end ExactAlgebra
