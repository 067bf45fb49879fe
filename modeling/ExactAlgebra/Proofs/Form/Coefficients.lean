import ExactAlgebra.Proofs.Form.Amounts
import ExactAlgebra.Proofs.Form.Canonical
import ExactAlgebra.Proofs.Form.Conservation
import ExactAlgebra.Proofs.Operation.Scale

-- A canonical sum is determined by the coefficients of its symbolic parts, which collecting adds
-- up.

namespace ExactAlgebra

open ExactAlgebra.Expr ExactAlgebra.Operation

namespace Expr

def coefficient : Expr → Rat
  | num q => q
  | e     =>
    match e.split? with
    | .ok (some (c, _)) => c
    | _                 => 1

-- The coefficient of each symbolic part, and next to them the number, which has none.
noncomputable abbrev coefficients : Multiset Expr → Option Expr →₀ ℚ :=
  amounts Operation.sum.label? coefficient

-- The terms that operands bring into a sum.
def terms (xs : List Expr) : Multiset Expr :=
  xs.flatMap Operation.sum.parts

variable {e x : Expr} {xs ys : List Expr}

theorem terms_singleton : terms [e] = Operation.sum.parts e := by
  simp [terms]

@[simp]
theorem terms_cons : terms (x :: xs) = Operation.sum.parts x + terms xs := by
  simp [terms]

@[simp]
theorem terms_append : terms (xs ++ ys) = terms xs + terms ys := by
  simp [terms]

theorem coefficients_terms :
    coefficients (terms xs) = (xs.map fun x => coefficients (terms [x])).sum := by
  induction xs with
  | nil => rfl
  | cons x xs hi =>
    rw [List.map_cons, List.sum_cons, ←hi, terms_cons, terms_singleton]
    exact amounts_add

theorem coefficient_of_split? {t : Expr} {c} (h : e.split? = .ok (some (c, t))) :
    e.coefficient = c := by
  cases e
  case num => cases h
  all_goals simp only [coefficient, h]

end Expr

namespace Form

variable {p : Expr → Prop} {R : Operation → Expr → Expr → Prop}
variable {o : Operation} {a b c e t : Expr} {q r : Rat} {xs : List Expr}

theorem parts (hf : Form p R) (h : e.Every p) (ha : o.absorbs e = false) :
    Listed (Member p o) (R o) (o.parts e) := by
  cases hi : o.isIdentity e
  case true  => simpa [Operation.parts, hi] using Listed.nil
  case false => simpa [Operation.parts, hi] using hf.operands h hi ha

theorem terms_members (hf : Form p R) (hx : ∀ x ∈ xs, x.Every p) :
    ∀ t ∈ terms xs, Member p .sum t := by
  intro t ht
  obtain ⟨x, hm, hxt⟩ := List.mem_flatMap.mp (Multiset.mem_coe.mp ht)
  exact (hf.parts (hx x hm) rfl).mem t hxt

theorem gather_parts (hf : Form p R) (h : e.Every p) : o.gather (o.parts e) = e := by
  cases hi : o.isIdentity e
  case true  =>
    simp only [isIdentity, decide_eq_true_eq] at hi
    simp [hi, Operation.parts, Operation.gather, isIdentity]
  case false =>
    cases ho : o.owns e
    case false => simp [Operation.parts, hi, operands_of_not_owns ho, Operation.gather]
    case true =>
      cases o <;> cases e <;> cases ho
      case sum.sum xs      => exact gather_eq_node (hf.listed (o := .sum).mp h).left
      case product.prod xs => exact gather_eq_node (hf.factors.mp h).left

-- A term is a number or has a symbolic part.
theorem term_cases (hf : Form p R) (h : e.Every p) :
    (∃ q, e = Expr.num q) ∨ ∃ c t, e.split? = .ok (some (c, t)) := by
  match hs : e.split? with
  | .error f          => exact absurd hs (hf.split?_ne_error h f)
  | .ok (some (c, t)) => exact .inr ⟨c, t, rfl⟩
  | .ok none          =>
    have hc := split?_eq_none hs
    cases e <;> cases hc
    exact .inl ⟨_, rfl⟩

theorem exists_split? (hf : Form p R) (h : e.Every p) (hn : e.isConstant = false) :
    ∃ c t, e.split? = .ok (some (c, t)) := by
  cases hf.term_cases h
  case inr h => exact h
  case inl h =>
    have ⟨q, hq⟩ := h
    simp [hq, isConstant] at hn

theorem label_ne_one (hf : Form p Apart) (h : e.Every p) :
    Operation.sum.label? e ≠ some (Expr.num 1) := by
  intro hl
  obtain ⟨q, rfl⟩ | ⟨c, t, hs⟩ := hf.term_cases h
  case inl => cases hl
  case inr =>
    have hlevel := (hf.splits h hs).level_pos
    obtain rfl : t = Expr.num 1 := by simpa [sum_label? hs] using hl
    exact absurd hlevel (Nat.lt_irrefl 0)

theorem split?_ne_zero (hf : Form p R) (h : e.Every p) (hs : e.split? = .ok (some (q, t))) :
    q ≠ 0 := by
  have hq {xs} (h : (prod (Expr.num q :: xs)).Every p) : q ≠ 0 := by
    simpa using ((hf.factors.mp h).right.mem (Expr.num q) (by simp)).ne_zero
  obtain rfl | ⟨xs, -, rfl, -⟩ | ⟨rfl, -, -⟩ := split?_eq_some hs
  case inl     => exact hq h
  case inr.inl => exact hq h
  case inr.inr => exact one_ne_zero

theorem coefficient_ne_zero (hf : Form p R) (h : Member p .sum e) : e.coefficient ≠ 0 := by
  obtain ⟨q, rfl⟩ | ⟨c, t, hs⟩ := hf.term_cases h.every
  case inl => simpa [coefficient] using h.ne_zero
  case inr => exact coefficient_of_split? hs ▸ hf.split?_ne_zero h.every hs

theorem scale_of_splits (hf : Form p R) (h : e.Every p) (hs : e.split? = .ok (some (q, t)))
    (hsplits : Splits e t) : Expr.scale q t = e := by
  have hq {xs} (h : (prod (Expr.num q :: xs)).Every p) : q ≠ 0 ∧ q ≠ 1 := by
    have hb := ((hf.factors.mp h).right.mem (Expr.num q) (by simp)).toBelongs
    exact ⟨by simpa using hb.ne_zero, by simpa [isIdentity, identity] using hb.not_identity⟩
  obtain rfl | ⟨xs, hl, rfl, rfl⟩ | ⟨rfl, rfl, -⟩ := split?_eq_some hs
  case inr.inr => exact scale_one
  case inl =>
    obtain ⟨h₀, h₁⟩ := hq h
    have ho := ((hf.factors.mp h).right.mem t (by simp)).not_owns
    have hlt := hsplits.level_pos
    cases t <;> simp_all [Expr.scale, owns, level]
  case inr.inl =>
    obtain ⟨h₀, h₁⟩ := hq h
    obtain ⟨x, y, ys, rfl, hx⟩ := hf.two_factors (hf.symbolic h hs).left hsplits
    cases x <;> simp_all [Expr.scale, Expr.scaleFactors]

theorem scale_of_split? (hf : Form p Apart) (h : e.Every p) (hs : e.split? = .ok (some (q, t))) :
    Expr.scale q t = e :=
  hf.scale_of_splits h hs (hf.splits h hs)

theorem scale_splits (hf : Form p R) (ht : t.Every p) (hs : Splits e t) (h₀ : q ≠ 0) (h₁ : q ≠ 1) :
    Expr.scale q t = prod (Expr.num q :: product.operands t) := by
  have hlevel := hs.level_pos
  cases t
  case num => exact absurd hlevel (Nat.lt_irrefl 0)
  case prod xs =>
    obtain ⟨x, y, ys, rfl, hx⟩ := hf.two_factors ht hs
    cases x <;> simp_all [Expr.scale, Expr.scaleFactors, Operation.operands]
  all_goals simp [Expr.scale, h₀, h₁, Operation.operands]

-- Scaling twice is scaling once.
theorem scale_scale (hf : Form p R) (ht : t.Every p) (hs : Splits e t) (hq : q ≠ 0) (hr : r ≠ 0) :
    Expr.scale r (Expr.scale q t) = Expr.scale (r * q) t := by
  by_cases hq₁ : q = 1
  case pos => rw [hq₁, scale_one, mul_one]
  by_cases hr₁ : r = 1
  case pos => rw [hr₁, scale_one, one_mul]
  have hi : product.isIdentity t = false := by
    apply isIdentity_eq_false.mpr
    rintro rfl
    exact absurd hs.level_pos (Nat.lt_irrefl 0)
  have hg : product.gather (product.operands t) = t := by rw [←parts_eq hi, hf.gather_parts ht]
  have hrq : r * q ≠ 0 := mul_ne_zero hr hq
  have hp {xs} : Expr.scale r (prod xs) = Expr.scaleFactors r xs := by simp [Expr.scale, hr, hr₁]
  rw [hf.scale_splits ht hs hq hq₁, hp, Expr.scaleFactors, if_neg hrq]
  split
  case isTrue h  => rw [h, scale_one, hg]
  case isFalse h => rw [scaleFactors_operands hrq h]

-- Scaling a term multiplies its coefficient.
theorem scale_term (hf : Form p R) (h : e.Every p) (hs : e.split? = .ok (some (q, t)))
    (hsplits : Splits e t) (hr : r ≠ 0) : Expr.scale r e = Expr.scale (r * q) t := by
  have ht := (hf.symbolic h hs).left
  rw [←hf.scale_scale ht hsplits (hf.split?_ne_zero h hs) hr, hf.scale_of_splits h hs hsplits]

theorem eq_num_of_scale (hf : Form p Apart) (h : e.Every p) (hr : r ≠ 0)
    (hs : Expr.scale r e = Expr.num q) : ∃ c, e = Expr.num c := by
  obtain hn | ⟨c, t, ht⟩ := hf.term_cases h
  case inl => exact hn
  case inr =>
    have hsplits := hf.splits h ht
    have hscale := hf.split?_scale (hf.symbolic h ht).left hsplits
      (mul_ne_zero hr (hf.split?_ne_zero h ht))
    rw [←hf.scale_term h ht hsplits hr, hs] at hscale
    cases hscale

theorem eq_of_coefficient_eq (hf : Form p Apart) (ha : Member p .sum a) (hb : Member p .sum b)
    (hl : Operation.sum.label? a = Operation.sum.label? b) (hc : a.coefficient = b.coefficient) :
    a = b := by
  obtain ⟨q, rfl⟩ | ⟨q, s, hs⟩ := hf.term_cases ha.every <;>
    obtain ⟨r, rfl⟩ | ⟨r, t, ht⟩ := hf.term_cases hb.every
  case inl.inl => simpa [coefficient] using hc
  case inl.inr => simp [label?_num, sum_label? ht] at hl
  case inr.inl => simp [label?_num, sum_label? hs] at hl
  case inr.inr =>
    have hst : s = t := by simpa [sum_label? hs, sum_label? ht] using hl
    rw [coefficient_of_split? hs, coefficient_of_split? ht] at hc
    rw [←hf.scale_of_split? ha.every hs, ←hf.scale_of_split? hb.every ht, hst, hc]

-- The coefficients of a canonical tree are those of its terms, one by one.
theorem coefficients_apply (hf : Form p Apart) (he : e.Every p) (ht : t ∈ terms [e]) :
    coefficients (terms [e]) (Operation.sum.label? t) = t.coefficient := by
  rw [terms_singleton] at ht ⊢
  exact amounts_apply_of_mem (hf.parts he rfl).sorted (Multiset.mem_coe.mp ht)

-- The symbolic parts of a canonical tree are those with a coefficient.
theorem exists_label (hf : Form p Apart) (ha : a.Every p) {s}
    (h : coefficients (terms [a]) = coefficients s) (ht : t ∈ terms [a]) :
    ∃ x ∈ s, Operation.sum.label? x = Operation.sum.label? t := by
  have hc : coefficients s (Operation.sum.label? t) = t.coefficient :=
    h ▸ hf.coefficients_apply ha ht
  have hm : Member p .sum t := hf.terms_members (by simpa using ha) t ht
  exact exists_of_amounts_apply_ne_zero (hc ▸ hf.coefficient_ne_zero hm)

-- Canonical trees are determined by their coefficients.
theorem eq_of_coefficients_eq (hf : Form p Apart) (ha : a.Every p) (hb : b.Every p)
    (h : coefficients (terms [a]) = coefficients (terms [b])) : a = b := by
  rw [terms_singleton, terms_singleton] at h
  have hpa := @Form.parts _ _ .sum _ hf ha rfl
  have hpb := @Form.parts _ _ .sum _ hf hb rfl
  have hparts : Operation.sum.parts a = Operation.sum.parts b :=
    eq_of_amounts_eq hpa.sorted hpb.sorted (fun x hx => hf.coefficient_ne_zero (hpa.mem x hx))
      (fun x hx => hf.coefficient_ne_zero (hpb.mem x hx))
      (fun x hx y hy => hf.eq_of_coefficient_eq (hpa.mem x hx) (hpb.mem y hy)) h
  rw [←@gather_parts _ _ .sum _ hf ha, hparts, @gather_parts _ _ .sum _ hf hb]

end Form

-- What two terms collect to has their symbolic part and the sum of their coefficients.
def Adds (a b : Expr) : Collected → Prop
  | .apart     => True
  | .cancelled => Operation.sum.label? a = Operation.sum.label? b ∧
    a.coefficient + b.coefficient = 0
  | .one c     => Operation.sum.label? a = Operation.sum.label? b ∧
    Operation.sum.label? c = Operation.sum.label? a ∧ c.coefficient = a.coefficient + b.coefficient

namespace Form

variable {p : Expr → Prop} {a b : Expr}

theorem collects_adds (hf : Form p Apart) (ha : Member p .sum a) (hb : Member p .sum b) :
    Settles (Adds a b) (fun _ => False) (Operation.sum.collectPair collectTerms a b) := by
  apply collectPair_settles
  case hu =>
    rintro p q rfl rfl h
    exact ⟨by rw [label?_num, label?_num], h⟩
  case hn =>
    rintro p q rfl rfl -
    exact ⟨by rw [label?_num, label?_num], by rw [label?_num, label?_num], rfl⟩
  case hc =>
    have m := collectTerms_collects a b
    generalize collectTerms a b = r at m
    cases m
    case number | apart => exact trivial
    case fault h        =>
      exact h.elim (hf.split?_ne_error ha.every _) (hf.split?_ne_error hb.every _)
    case cancelled hsa hsb h =>
      refine ⟨by rw [sum_label? hsa, sum_label? hsb]; rfl, ?_⟩
      rwa [coefficient_of_split? hsa, coefficient_of_split? hsb]
    case one hsa hsb h =>
      have ht := (hf.symbolic ha.every hsa).left
      have hs := hf.split?_scale ht (hf.splits ha.every hsa) h
      refine ⟨by rw [sum_label? hsa, sum_label? hsb]; rfl, ?_, ?_⟩
      · rw [sum_label? hs, sum_label? hsa]
        rfl
      · rw [coefficient_of_split? hs, coefficient_of_split? hsa, coefficient_of_split? hsb]

end Form

end ExactAlgebra
