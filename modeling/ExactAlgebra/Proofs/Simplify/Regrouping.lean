import ExactAlgebra.Proofs.Form.Summed

-- Sums may be regrouped as long as nothing in them adds up to a plain sum on the way. The sum would
-- be flattened, and its terms do not collect with a multiple of it.

namespace ExactAlgebra

open ExactAlgebra.Expr ExactAlgebra.Operation

namespace Expr

variable {limit : Nat} {xs ys : List Expr}

theorem sumOf_regroups (hc : ∀ x ∈ xs ++ ys, x.Every (Canonical limit))
    (hi : Intact (terms (xs ++ ys))) :
    ∃ s t r, sumOf xs = .ok s ∧ sumOf ys = .ok t ∧ sumOf (xs ++ ys) = .ok r ∧
      sumOf [s, t] = .ok r ∧ sumOf (s :: ys) = .ok r := by
  have hf : Form (Canonical limit) Apart := canonical_form
  have hp : ∀ e, Canonical limit e → e.Proper := fun _ h => h.neat.proper
  have ⟨hx, hy⟩ := List.forall_mem_append.mp hc
  have ⟨k, h⟩ : ∃ k, Summed (Canonical limit) k (terms (xs ++ ys)) :=
    ⟨_, hf.terms_members hc, hi, rfl⟩
  have ⟨r, hr, hre, hrs⟩ := hf.sumOf_summed_alone hp hc h
  rw [terms_append] at h
  have ⟨s, hs, hse, hsy⟩ := hf.sumOf_summed hp hx h
  have ⟨t, ht, hte, hts⟩ := hf.sumOf_summed hp hy (add_comm (terms [s]) _ ▸ hsy)
  refine ⟨s, t, r, hs, ht, hr, ?_, ?_⟩
  · refine hf.sumOf_eq_ok hp (by simp [hse, hte]) hre ?_ hrs
    rwa [←List.singleton_append, terms_append, add_comm]
  · refine hf.sumOf_eq_ok hp (List.forall_mem_cons.mpr ⟨hse, hy⟩) hre ?_ hrs
    rwa [←List.singleton_append, terms_append]

theorem canonical_of_fixed {c : Config} {e : Expr} (ht : e.Every Tame) (h : e.simplify c = .ok e) :
    e.Every (Canonical c.factorialLimit) :=
  ((yields_plain ht).ok h).mono fun _ => Plain.toCanonical

-- Multiples of a sum that only grow.
theorem sumOf_regroups_multiples :
    let s := sum [sym "a", sym "b"]
    let xs := [prod [num 2, s], sym "a"]
    let ys := [prod [num 3, s], prod [num (-1), sym "a"]]
    (∀ x ∈ xs ++ ys, x.Every (Canonical 0)) ∧ Intact (terms (xs ++ ys)) ∧
      sumOf xs = .ok (sum [sym "a", prod [num 2, s]]) ∧
      sumOf ys = .ok (sum [prod [num (-1), sym "a"], prod [num 3, s]]) ∧
      sumOf (xs ++ ys) = .ok (prod [num 5, s]) ∧
      sumOf [sum [sym "a", prod [num 2, s]], sum [prod [num (-1), sym "a"], prod [num 3, s]]] =
        .ok (prod [num 5, s]) := by
  intro s xs ys
  have hc : ∀ x ∈ xs ++ ys, x.Every (Canonical 0) := by
    simp only [xs, ys, List.cons_append, List.nil_append, List.forall_mem_cons]
    refine ⟨?_, ?_, ?_, ?_, by simp⟩
    all_goals exact canonical_of_fixed (c := ⟨0⟩) (by simp [s, Tame]) (by cbv)
  have hi : Intact (terms (xs ++ ys)) := by
    apply Intact.of_multiples
    simp [terms, parts, isIdentity, Operation.operands, xs, ys, s, label?, split?, coefficient]
  have hs : sumOf xs = .ok (sum [sym "a", prod [num 2, s]]) := by cbv
  have ht : sumOf ys = .ok (sum [prod [num (-1), sym "a"], prod [num 3, s]]) := by cbv
  have hr : sumOf (xs ++ ys) = .ok (prod [num 5, s]) := by cbv
  obtain ⟨s', t', r', hs', ht', hr', hst, _⟩ := sumOf_regroups hc hi
  cases hs.symm.trans hs'
  cases ht.symm.trans ht'
  cases hr.symm.trans hr'
  exact ⟨hc, hi, hs, ht, hr, hst⟩

-- Multiples of a sum that add up to the sum itself before the last of them joins in.
theorem sumOf_flattened_apart :
    let s := sum [sym "a", sym "b"]
    let xs := [prod [num 2, s], prod [num (-1), s]]
    let ys := [prod [num (-1), s]]
    (∀ x ∈ xs ++ ys, x.Every (Canonical 0)) ∧ sumOf (xs ++ ys) = .ok (num 0) ∧
      sumOf xs = .ok s ∧ sumOf ys = .ok (prod [num (-1), s]) ∧
      sumOf [s, prod [num (-1), s]] = .ok (sum [sym "a", sym "b", prod [num (-1), s]]) := by
  intro s xs ys
  have hc : ∀ x ∈ xs ++ ys, x.Every (Canonical 0) := by
    simp only [xs, ys, List.cons_append, List.nil_append, List.forall_mem_cons]
    refine ⟨?_, ?_, ?_, by simp⟩
    all_goals exact canonical_of_fixed (c := ⟨0⟩) (by simp [s, Tame]) (by cbv)
  exact ⟨hc, by cbv, by cbv, by cbv, by cbv⟩

end Expr

end ExactAlgebra
