import ExactAlgebra.Proofs.Expr.Order
import ExactAlgebra.Proofs.Form.Basic
import Mathlib.Algebra.BigOperators.Finsupp.Basic
import Mathlib.Algebra.Order.Field.Rat

-- Operands that come with a key and with an amount, such as a symbolic part with its coefficient or
-- a base with its exponent. What all of them have of each key is all there is to know about a list
-- that is in order and has each key once.

namespace ExactAlgebra

open ExactAlgebra.Expr

variable {κ : Type} {key : Expr → κ} {amount : Expr → ℚ}
variable {a b x : Expr} {xs ys : List Expr} {s t : Multiset Expr} {k : κ}

noncomputable def amounts (key : Expr → κ) (amount : Expr → ℚ) (s : Multiset Expr) : κ →₀ ℚ :=
  (s.map fun x => Finsupp.single (key x) (amount x)).sum

@[simp]
theorem amounts_zero : amounts key amount 0 = 0 := rfl

@[simp]
theorem amounts_cons :
    amounts key amount (x ::ₘ s) = Finsupp.single (key x) (amount x) + amounts key amount s := by
  simp [amounts]

@[simp]
theorem amounts_singleton : amounts key amount {x} = Finsupp.single (key x) (amount x) := by
  simp [amounts]

theorem amounts_cons_cons (h : key a = key b) :
    amounts key amount (a ::ₘ b ::ₘ s) =
      Finsupp.single (key a) (amount a + amount b) + amounts key amount s := by
  rw [amounts_cons, amounts_cons, ←h, ←add_assoc, ←Finsupp.single_add]

theorem amounts_pair (h : key a = key b) :
    amounts key amount {a, b} = Finsupp.single (key a) (amount a + amount b) :=
  (amounts_cons_cons h).trans (add_zero _)

@[simp]
theorem amounts_add : amounts key amount (s + t) = amounts key amount s + amounts key amount t := by
  simp [amounts]

theorem amounts_apply_eq_zero (h : ∀ x ∈ s, key x ≠ k) : amounts key amount s k = 0 := by
  induction s using Multiset.induction_on with
  | empty => rfl
  | cons x s hi =>
    have ⟨hx, hs⟩ := Multiset.forall_mem_cons.mp h
    rw [amounts_cons, Finsupp.add_apply, Finsupp.single_eq_of_ne hx.symm, hi hs, add_zero]

theorem exists_of_amounts_apply_ne_zero (h : amounts key amount s k ≠ 0) : ∃ x ∈ s, key x = k := by
  by_contra hn
  exact h <| amounts_apply_eq_zero fun x hx hk => hn ⟨x, hx, hk⟩

-- Operands in order, each with a key of its own.
def Keyed (key : Expr → κ) (a b : Expr) : Prop :=
  Precedes a b ∧ key a ≠ key b

theorem amounts_apply_of_mem (h : xs.Pairwise (Keyed key)) (hx : x ∈ xs) :
    amounts key amount xs (key x) = amount x := by
  induction h with
  | nil => cases hx
  | @cons y ys hy _ hi =>
    rw [←Multiset.cons_coe, amounts_cons, Finsupp.add_apply]
    cases hx
    case head =>
      have hn : amounts key amount ys (key x) = 0 :=
        amounts_apply_eq_zero fun z hz => (hy z hz).right.symm
      rw [Finsupp.single_eq_same, hn, add_zero]
    case tail hx =>
      rw [Finsupp.single_eq_of_ne (hy x hx).right.symm, zero_add, hi hx]

theorem mem_of_amounts_eq (hx : xs.Pairwise (Keyed key)) (hy : ys.Pairwise (Keyed key))
    (h₀ : ∀ x ∈ xs, amount x ≠ 0)
    (hd : ∀ x ∈ xs, ∀ y ∈ ys, key x = key y → amount x = amount y → x = y)
    (h : amounts key amount xs = amounts key amount ys) (hm : x ∈ xs) : x ∈ ys := by
  have hxk : amounts key amount ys (key x) = amount x := h ▸ amounts_apply_of_mem hx hm
  have ⟨y, hym, hk⟩ := exists_of_amounts_apply_ne_zero (hxk ▸ h₀ x hm)
  replace hym : y ∈ ys := by simpa using hym
  have hyk : amounts key amount ys (key y) = amount y := amounts_apply_of_mem hy hym
  rw [hd x hm y hym hk.symm (by rw [←hxk, ←hyk, hk])]
  exact hym

theorem eq_of_amounts_eq (hx : xs.Pairwise (Keyed key)) (hy : ys.Pairwise (Keyed key))
    (hx₀ : ∀ x ∈ xs, amount x ≠ 0) (hy₀ : ∀ y ∈ ys, amount y ≠ 0)
    (hd : ∀ x ∈ xs, ∀ y ∈ ys, key x = key y → amount x = amount y → x = y)
    (h : amounts key amount xs = amounts key amount ys) : xs = ys := by
  have hd' : ∀ y ∈ ys, ∀ x ∈ xs, key y = key x → amount y = amount x → y = x :=
    fun y hy x hx hk ha => (hd x hx y hy hk.symm ha.symm).symm
  have hnodup {zs : List Expr} (h : zs.Pairwise (Keyed key)) : zs.Nodup :=
    h.imp fun hk he => hk.right (congrArg key he)
  have hp : xs.Perm ys :=
    (List.perm_ext_iff_of_nodup (hnodup hx) (hnodup hy)).mpr fun x =>
      ⟨mem_of_amounts_eq hx hy hx₀ hd h, mem_of_amounts_eq hy hx hy₀ hd' h.symm⟩
  refine hp.eq_of_pairwise (fun a b _ _ hab hba => ?_) hx hy
  cases (compare_eq_gt_iff.mpr hab.left).symm.trans hba.left

end ExactAlgebra
