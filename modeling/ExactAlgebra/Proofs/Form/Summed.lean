import ExactAlgebra.Proofs.Form.Coefficients
import Mathlib.Tactic.Linarith

-- Terms that are not flattened on the way add up coefficient by coefficient.

namespace ExactAlgebra

open ExactAlgebra.Expr ExactAlgebra.Operation

-- No selection of multiples of a sum adds up to the sum itself.
def Intact (s : Multiset Expr) : Prop :=
  ∀ u ≤ s, ∀ ts, (∀ x ∈ u, Operation.sum.label? x = some (sum ts)) → (u.map coefficient).sum ≠ 1

namespace Intact

variable {s t : Multiset Expr} {a b c : Expr}

theorem mono (h : Intact t) (hs : s ≤ t) : Intact s :=
  fun u hu => h u (hu.trans hs)

-- Where no term is a sum or the multiple of one, there is nothing to select.
theorem of_no_multiples (ho : ∀ x ∈ s, Operation.sum.owns x = false)
    (hm : ∀ x ∈ s, ∀ q ts, x ≠ prod [num q, sum ts]) : Intact s := by
  intro u hu ts hl
  have hnot : ∀ x, x ∉ u := by
    intro x hx
    have hxs := Multiset.mem_of_le hu hx
    have hlx := hl x hx
    match hs : x.split? with
    | .error f          => simp [label?, hs] at hlx
    | .ok none          => simp [label?, hs] at hlx
    | .ok (some (c, t)) =>
      obtain rfl : t = sum ts := by simpa [label?, hs] using hlx
      obtain h | ⟨_, _, _, h⟩ | ⟨_, rfl, _⟩ := split?_eq_some hs
      case inl     => exact hm x hxs c ts h
      case inr.inl => cases h
      case inr.inr => cases ho _ hxs
  simp [Multiset.eq_zero_of_forall_notMem hnot]

-- Multiples greater than 1 only grow.
theorem of_multiples
    (h : ∀ x ∈ s, ∀ ts, Operation.sum.label? x = some (sum ts) → 1 < x.coefficient) : Intact s := by
  intro u hu ts hl
  have hlt : ∀ x ∈ u, 1 < x.coefficient := fun x hx => h x (Multiset.mem_of_le hu hx) ts (hl x hx)
  induction u using Multiset.induction_on with
  | empty      => simp
  | cons x v _ =>
    have ⟨hx, hv⟩ := Multiset.forall_mem_cons.mp hlt
    have hsum : 0 ≤ (v.map coefficient).sum := by
      apply Multiset.sum_nonneg
      intro c hc
      obtain ⟨y, hy, rfl⟩ := Multiset.mem_map.mp hc
      exact zero_le_one.trans (hv y hy).le
    rw [Multiset.map_cons, Multiset.sum_cons]
    linarith

-- A selection with the collected term stands for one with its two parts.
theorem collected (h : Intact (a ::ₘ b ::ₘ s))
    (hab : Operation.sum.label? a = Operation.sum.label? b)
    (hca : Operation.sum.label? c = Operation.sum.label? a)
    (hc : c.coefficient = a.coefficient + b.coefficient) : Intact (c ::ₘ s) := by
  intro u hu ts hl
  by_cases hm : c ∈ u
  case neg =>
    have hus : u ≤ s := (Multiset.le_cons_of_notMem hm).mp hu
    exact h u (hus.trans <| (Multiset.le_cons_self ..).trans (Multiset.le_cons_self ..)) ts hl
  case pos =>
    obtain ⟨v, rfl⟩ := Multiset.exists_cons_of_mem hm
    have hv : v ≤ s := (Multiset.cons_le_cons_iff c).mp hu
    have ⟨hlc, hlv⟩ := Multiset.forall_mem_cons.mp hl
    have hla := hca.symm.trans hlc
    have hlb := hab.symm.trans hla
    have hsum := h (a ::ₘ b ::ₘ v) (Multiset.cons_le_cons a (Multiset.cons_le_cons b hv)) ts
      (Multiset.forall_mem_cons.mpr ⟨hla, Multiset.forall_mem_cons.mpr ⟨hlb, hlv⟩⟩)
    simpa only [Multiset.map_cons, Multiset.sum_cons, hc, add_assoc] using hsum

-- What is collected is no sum, since its coefficient would be 1.
theorem not_owns (h : Intact (a ::ₘ b ::ₘ s))
    (hab : Operation.sum.label? a = Operation.sum.label? b)
    (hca : Operation.sum.label? c = Operation.sum.label? a)
    (hc : c.coefficient = a.coefficient + b.coefficient) : Operation.sum.owns c = false := by
  cases c <;> try rfl
  case sum ts =>
    refine absurd ?_ (h.collected hab hca hc {sum ts} (by simp) ts (by simp [label?, split?]))
    simp [coefficient, split?]

end Intact

-- Operands of a sum, with the coefficients that all of them have together.
structure Summed (p : Expr → Prop) (k : Option Expr →₀ ℚ) (s : Multiset Expr) : Prop where
  members : ∀ x ∈ s, Member p .sum x
  intact  : Intact s
  total   : coefficients s = k

theorem Summed.heads {p k s a b} (h : Summed p k (a ::ₘ b ::ₘ s)) :
    Member p .sum a ∧ Member p .sum b ∧ ∀ x ∈ s, Member p .sum x := by
  simpa using h.members

namespace Form

variable {p : Expr → Prop} {k : Option Expr →₀ ℚ}

theorem summed_conserved (hf : Form p Apart) :
    Conserved .sum collectTerms (Summed p k) fun _ => False where
  belongs h x hx := (h.members x hx).toBelongs
  fault h hp     := by
    have ⟨ha, hb, _⟩ := h.heads
    exact (hf.collects_adds ha hb).error hp
  cancelled {a b s} h hp := by
    have ⟨ha, hb, hs⟩ := h.heads
    have ⟨hab, hc⟩ := (hf.collects_adds ha hb).ok hp
    refine ⟨hs, h.intact.mono <| (Multiset.le_cons_self ..).trans (Multiset.le_cons_self ..), ?_⟩
    have ht := (amounts_cons_cons hab).symm.trans h.total
    rwa [hc, Finsupp.single_zero, zero_add] at ht
  one {a b c s} h hp := by
    have ⟨ha, hb, hs⟩ := h.heads
    have ⟨hab, hca, hc⟩ := (hf.collects_adds ha hb).ok hp
    have hm := (hf.sum_collected ha hp).mem
    have ht := (amounts_cons_cons hab).symm.trans h.total
    rw [operands_of_not_owns (h.intact.not_owns hab hca hc)] at hm ⊢
    refine ⟨?_, h.intact.collected hab hca hc, ?_⟩
    · simpa using ⟨hm c (by simp), hs⟩
    · rw [←hc, ←hca] at ht
      exact amounts_cons.trans ht

-- A sum has the coefficients of its operands, next to any others.
theorem sumOf_summed (hf : Form p Apart) (hp : ∀ e, p e → e.Proper) {xs s}
    (hx : ∀ x ∈ xs, x.Every p) (h : Summed p k (terms xs + s)) :
    ∃ r, Expr.sumOf xs = .ok r ∧ r.Every p ∧ Summed p k (terms [r] + s) := by
  have hs := sum_shrinks.combineWith_combines.conserves hf.summed_conserved h
  have ⟨r, hr, hre⟩ := hf.sumOf_ok (hf.apart_keeps_sum hp) hx
  exact ⟨r, hr, hre, terms_singleton ▸ hs.ok hr⟩

theorem sumOf_summed_alone (hf : Form p Apart) (hp : ∀ e, p e → e.Proper) {xs}
    (hx : ∀ x ∈ xs, x.Every p) (h : Summed p k (terms xs)) :
    ∃ r, Expr.sumOf xs = .ok r ∧ r.Every p ∧ Summed p k (terms [r]) := by
  rw [←add_zero (terms xs)] at h
  simpa only [add_zero] using hf.sumOf_summed hp hx h

-- Operands with the coefficients of another sum come to that sum.
theorem sumOf_eq_ok (hf : Form p Apart) (hp : ∀ e, p e → e.Proper) {xs r}
    (hx : ∀ x ∈ xs, x.Every p) (hr : r.Every p) (hxs : Summed p k (terms xs))
    (hrs : Summed p k (terms [r])) : Expr.sumOf xs = .ok r := by
  have ⟨s, hs, hse, hsk⟩ := hf.sumOf_summed_alone hp hx hxs
  rw [hs, hf.eq_of_coefficients_eq hse hr (hsk.total.trans hrs.total.symm)]

end Form

namespace Expr

variable {ns : List ℚ}

theorem terms_numbers : ∀ t ∈ terms (ns.map num), ∃ q, t = num q := by
  intro t ht
  obtain ⟨x, hx, ht⟩ := List.mem_flatMap.mp (Multiset.mem_coe.mp ht)
  obtain ⟨q, -, rfl⟩ := List.mem_map.mp hx
  rw [Operation.parts] at ht
  split at ht
  case isTrue  => cases ht
  case isFalse => exact ⟨q, by simpa [Operation.operands] using ht⟩

theorem coefficients_numbers : coefficients (terms (ns.map num)) = Finsupp.single none ns.sum := by
  induction ns with
  | nil => simp [terms]
  | cons q ns hi =>
    have hq : coefficients (Operation.sum.parts (num q)) = Finsupp.single none q := by
      by_cases h : q = 0 <;> simp [Operation.parts, isIdentity, identity, Operation.operands, h,
        label?_num, coefficient]
    rw [List.map_cons, terms_cons, List.sum_cons, Finsupp.single_add, ←hq, ←hi]
    exact amounts_add

-- Numbers add up.
theorem sumOf_numbers : sumOf (ns.map num) = .ok (num ns.sum) := by
  have hf : Form (Canonical 0) Apart := canonical_form
  have summed (ms : List ℚ) :
      Summed (Canonical 0) (Finsupp.single none ms.sum) (terms (ms.map num)) := by
    refine ⟨hf.terms_members ?_, .of_multiples fun t ht ts hl => ?_, coefficients_numbers⟩
    · simp [hf.number]
    · obtain ⟨q, rfl⟩ := terms_numbers t ht
      cases hl
  refine hf.sumOf_eq_ok (fun _ h => h.neat.proper) ?_ ?_ (summed ns) ?_
  · simp [hf.number]
  · exact hf.number
  · simpa using summed [ns.sum]

end Expr

end ExactAlgebra
