import ExactAlgebra.Proofs.Form.Summed
import ExactAlgebra.Proofs.Simplify.FixedPoint

-- Sums of canonical trees are canonical, and as long as no term is a multiple of a sum, their
-- coefficients are the sums of the coefficients of the operands.

namespace ExactAlgebra

open ExactAlgebra.Expr ExactAlgebra.Operation

namespace Expr

variable {limit : Nat} {xs : List Expr}

theorem sumOf_closed (h : ∀ x ∈ xs, x.Every (Canonical limit)) :
    ∃ r, sumOf xs = .ok r ∧ r.Every (Canonical limit) :=
  canonical_form.sumOf_ok (canonical_form.apart_keeps_sum fun _ hc => hc.neat.proper) h

-- Multiples of a sum that add up to the sum itself, whose terms then collect with others.
theorem sumOf_closed_flattened :
    let s := sum [sym "a", sym "b"]
    let t := pow (num 2) (sym "n")
    let xs := [prod [num 2, s], prod [num (-1), s], t, sum [num 1, prod [num 3, t], sym "b"]]
    let r := sum [num 1, prod [num 4, t], sym "a", prod [num 2, sym "b"]]
    (∀ x ∈ xs, x.Every (Canonical 0)) ∧ sumOf xs = .ok r ∧ r.Every (Canonical 0) := by
  intro s t xs r
  have hc : ∀ x ∈ xs, x.Every (Canonical 0) := by
    simp only [xs, List.forall_mem_cons]
    refine ⟨?_, ?_, ?_, ?_, by simp⟩
    all_goals
      refine canonical_of_fixed_nodes (c := ⟨0⟩) ?_
      repeat' apply And.intro
      all_goals cbv
  have h : sumOf xs = .ok r := by cbv
  obtain ⟨r', hr', hre⟩ := sumOf_closed hc
  cases h.symm.trans hr'
  exact ⟨hc, h, hre⟩

-- The terms of the result and of each operand have the coefficients that are added, and none is 0.
theorem sumOf_adds (hc : ∀ x ∈ xs, x.Every (Canonical limit))
    (hm : ∀ t ∈ terms xs, ∀ q ts, t ≠ prod [num q, sum ts]) :
    ∃ r, sumOf xs = .ok r ∧ r.Every (Canonical limit) ∧
      coefficients (terms [r]) = (xs.map fun x => coefficients (terms [x])).sum ∧
      ∀ x ∈ r :: xs, ∀ t ∈ terms [x],
        coefficients (terms [x]) (Operation.sum.label? t) = t.coefficient ∧ t.coefficient ≠ 0 := by
  have hf : Form (Canonical limit) Apart := canonical_form
  have hmem : ∀ t ∈ terms xs, Member (Canonical limit) .sum t := hf.terms_members hc
  have hi : Intact (terms xs) := .of_no_multiples (fun t ht => (hmem t ht).not_owns) hm
  have ⟨r, hr, hre, hrs⟩ := hf.sumOf_summed_alone (fun _ h => h.neat.proper) hc ⟨hmem, hi, rfl⟩
  refine ⟨r, hr, hre, hrs.total.trans coefficients_terms, fun x hx t ht => ?_⟩
  have hxc : x.Every (Canonical limit) := List.forall_mem_cons.mpr ⟨hre, hc⟩ x hx
  have htm : Member (Canonical limit) .sum t := hf.terms_members (by simpa using hxc) t ht
  exact ⟨hf.coefficients_apply hxc ht, hf.coefficient_ne_zero htm⟩

-- The multiples of y come from three operands and cancel.
theorem sumOf_adds_nested :
    let z := sum [prod [num (-1), sym "y"], sym "z"]
    let xs := [sum [sym "x", prod [num 2, sym "y"]], z, prod [num 3, sym "x"], num 4, z]
    let r := sum [num 4, prod [num 4, sym "x"], prod [num 2, sym "z"]]
    (∀ x ∈ xs, x.Every (Canonical 0)) ∧ (∀ t ∈ terms xs, ∀ q ts, t ≠ prod [num q, sum ts]) ∧
      sumOf xs = .ok r ∧
      coefficients (terms [r]) = (xs.map fun x => coefficients (terms [x])).sum := by
  intro z xs r
  have hc : ∀ x ∈ xs, x.Every (Canonical 0) := by
    simp only [xs, List.forall_mem_cons]
    refine ⟨?_, ?_, ?_, ?_, ?_, by simp⟩
    all_goals
      refine canonical_of_fixed_nodes (c := ⟨0⟩) ?_
      repeat' apply And.intro
      all_goals cbv
  have hm : ∀ t ∈ terms xs, ∀ q ts, t ≠ prod [num q, sum ts] := by
    simp [terms, parts, isIdentity, identity, Operation.operands, xs, z]
  have h : sumOf xs = .ok r := by cbv
  obtain ⟨r', hr', _, ha, _⟩ := sumOf_adds hc hm
  cases h.symm.trans hr'
  exact ⟨hc, hm, h, ha⟩

end Expr

end ExactAlgebra
