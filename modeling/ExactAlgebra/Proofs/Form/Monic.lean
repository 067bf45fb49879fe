import ExactAlgebra.Proofs.Form.Raised

-- The symbolic part of a product of literal powers is determined by its exponents.

namespace ExactAlgebra

open ExactAlgebra.Expr ExactAlgebra.Operation

-- The symbolic part of a term, which is 1 for a number.
def Expr.symbolic (e : Expr) : Expr :=
  (Operation.sum.label? e).getD (num 1)

-- A product of literal powers with no number among them.
structure Monic (p P : Expr → Prop) (t : Expr) : Prop where
  every   : t.Every p
  factors : ∀ x ∈ product.parts t, Factor P x
  symbols : ∀ x ∈ product.parts t, 0 < x.level

variable {p P : Expr → Prop} {r s t x y : Expr} {c q : ℚ} {v : Option Expr →₀ ℚ}

-- A factor that is no number is the power of its base to its exponent.
theorem Expr.Factor.eq_literalPower (hP : ∀ b, P b → b.Atomic) (h : Factor P x) (hl : 0 < x.level) :
    ∃ b, product.label? x = some b ∧ x.exponent ≠ 0 ∧ x = literalPower b x.exponent := by
  cases h
  case number => exact absurd hl (Nat.lt_irrefl 0)
  case power b q hb h₀ =>
    have hx := literalPower_isPower (hP b hb) h₀
    rw [hx.exponent]
    exact ⟨b, hx.base, h₀, rfl⟩

namespace Monic

theorem one (hp : p (num 1)) : Monic p P (num 1) where
  every   := hp
  factors := by simp [parts, isIdentity, identity]
  symbols := by simp [parts, isIdentity, identity]

theorem keyed (hf : Form p Apart) (h : Monic p P t) :
    (product.parts t).Pairwise (Keyed product.label?) := by
  refine (hf.parts h.every ?_).sorted
  by_contra ha
  obtain ⟨-, rfl⟩ := absorbs_iff.mp (eq_true_of_ne_false ha)
  exact absurd (h.symbols (num 0) (by decide)) (Nat.lt_irrefl 0)

-- Monic products are determined by their exponents.
theorem eq_of_exponents_eq (hf : Form p Apart) (hP : ∀ b, P b → b.Atomic) (hs : Monic p P s)
    (ht : Monic p P t) (h : exponents (product.parts s) = exponents (product.parts t)) : s = t := by
  have hne {u x} (hu : Monic p P u) (hx : x ∈ product.parts u) : x.exponent ≠ 0 := by
    have ⟨_, _, h₀, _⟩ := (hu.factors x hx).eq_literalPower hP (hu.symbols x hx)
    exact h₀
  have hparts : product.parts s = product.parts t := by
    refine eq_of_amounts_eq (hs.keyed hf) (ht.keyed hf) (fun x => hne hs) (fun x => hne ht) ?_ h
    intro x hx y hy hl he
    have ⟨a, hxa, _, hxe⟩ := (hs.factors x hx).eq_literalPower hP (hs.symbols x hx)
    have ⟨b, hyb, _, hye⟩ := (ht.factors y hy).eq_literalPower hP (ht.symbols y hy)
    obtain rfl : a = b := by simpa [hxa, hyb] using hl
    rw [hxe, hye, he]
  rw [←@Form.gather_parts _ _ product _ hf hs.every, hparts,
    @Form.gather_parts _ _ product _ hf ht.every]

end Monic

theorem Form.parts_of_split? (hf : Form p Apart) (hr : r.Every p)
    (hs : r.split? = .ok (some (q, t))) :
    (q = 1 ∧ r = t) ∨ product.parts r = num q :: product.parts t := by
  have hlevel := (hf.splits hr hs).level_pos
  have ht : product.isIdentity t = false := by
    apply isIdentity_eq_false.mpr
    rintro rfl
    exact absurd hlevel (Nat.lt_irrefl 0)
  rw [parts_eq ht]
  obtain rfl | ⟨xs, hl, rfl, rfl⟩ | ⟨rfl, rfl, -⟩ := split?_eq_some hs
  case inl =>
    rw [operands_of_not_owns ((hf.factors.mp hr).right.mem t (by simp)).not_owns]
    exact .inr rfl
  case inr.inl => exact .inr rfl
  case inr.inr => exact .inl ⟨rfl, rfl⟩

theorem Form.symbols_of_split? (hf : Form p Apart) (hr : r.Every p)
    (hs : r.split? = .ok (some (q, t))) : ∀ x ∈ product.parts t, 0 < x.level := by
  intro x hx
  rw [Operation.parts] at hx
  split at hx
  case isTrue  => cases hx
  case isFalse => exact (hf.splits hr hs).factors x hx

-- A term is its coefficient times its symbolic part.
theorem Form.scale_symbolic (hf : Form p Apart) (hr : r.Every p) :
    Expr.scale r.coefficient r.symbolic = r := by
  obtain ⟨q, rfl⟩ | ⟨q, t, hs⟩ := hf.term_cases hr
  case inl => simp [Expr.symbolic, label?_num, coefficient, Expr.scale]
  case inr =>
    rw [Expr.symbolic, sum_label? hs, coefficient_of_split? hs]
    exact hf.scale_of_split? hr hs

theorem Expr.scalars_eq_one {xs : List Expr} (h : ∀ x ∈ xs, 0 < x.level) :
    ((xs : Multiset Expr).map scalar).prod = 1 := by
  apply Multiset.prod_eq_one
  intro c hc
  obtain ⟨x, hx, rfl⟩ := Multiset.mem_map.mp hc
  have hl := h x (by simpa using hx)
  cases x
  case num => exact absurd hl (Nat.lt_irrefl 0)
  all_goals rfl

-- A product is its coefficient times a monic product with the same exponents.
theorem Multiplied.monic (hf : Form p Apart) (hP : ∀ b, P b → b.Atomic) (hr : r.Every p)
    (h : Multiplied P c v (product.parts r)) :
    r.coefficient = c ∧ Monic p P r.symbolic ∧ exponents (product.parts r.symbolic) = v := by
  obtain ⟨q, rfl⟩ | ⟨q, t, hs⟩ := hf.term_cases hr
  case inl =>
    have hq : q ≠ 0 := by simpa using h.ne_zero hP
    have hn : Multiplied P q 0 (product.parts (num q)) := .of_number hq
    have hone : (num q).symbolic = num 1 := by rw [symbolic, label?_num, Option.getD_none]
    rw [hone]
    exact ⟨hn.number.symm.trans h.number, .one hf.number, hn.powers.symm.trans h.powers⟩
  case inr =>
    have ht : r.symbolic = t := by rw [symbolic, sum_label? hs]; rfl
    have hsym := hf.symbols_of_split? hr hs
    rw [ht, coefficient_of_split? hs]
    obtain ⟨rfl, rfl⟩ | hp := hf.parts_of_split? hr hs
    case inl =>
      have hc := (scalars_eq_one hsym).symm.trans h.number
      exact ⟨hc, ⟨hr, by simpa using h.factors, hsym⟩, h.powers⟩
    case inr =>
      rw [hp, ←Multiset.cons_coe] at h
      have ⟨_, hft⟩ := Multiset.forall_mem_cons.mp h.factors
      refine ⟨?_, ⟨(hf.symbolic hr hs).left, by simpa using hft, hsym⟩, ?_⟩
      · rw [←h.number, Multiset.map_cons, Multiset.prod_cons, scalars_eq_one hsym]
        exact (mul_one q).symm
      · rw [←h.powers, exponents, amounts_cons]
        simp [exponent]

end ExactAlgebra
