import ExactAlgebra.Proofs.Simplify.Termination
import ExactAlgebra.Proofs.Value.Operation

-- Simplifying keeps the value of every tree that has one.

namespace ExactAlgebra

open ExactAlgebra.Expr ExactAlgebra.Operation

theorem Coefficient.factorial_eq {n : Nat} : Coefficient.factorial n = n.factorial := by
  induction n with
  | zero      => rfl
  | succ n hi => rw [Coefficient.factorial, hi, Nat.factorial_succ]

namespace Expr

variable {I : Interpretation} {c : Config} {e : Expr} {xs : List Expr} {u v : Rat}

theorem maps_values {f : Expr → Except Fault Expr} {vs r}
    (hf : ∀ x ∈ xs, ∀ {v}, x.HasValue I v → Evaluates I v (f x)) (h : values I xs = some vs)
    (m : Maps f xs r) : Settles (values I · = some vs) (¬·.HasCause) r := by
  induction m generalizing vs
  case nil => exact h
  case cons hx _ hi =>
    have ⟨hf, hfs⟩ := List.forall_mem_cons.mp hf
    have ⟨v, ws, hv, hw, hvs⟩ := values_eq_some.mp h
    exact values_eq_some.mpr ⟨v, ws, (hf hv).ok hx, hi hfs hw, hvs⟩
  case head hx =>
    have ⟨hf, _⟩ := List.forall_mem_cons.mp hf
    have ⟨v, ws, hv, _, _⟩ := values_eq_some.mp h
    exact (hf hv).error hx
  case tail hi =>
    have ⟨_, hfs⟩ := List.forall_mem_cons.mp hf
    have ⟨v, ws, _, hw, _⟩ := values_eq_some.mp h
    exact (hi hfs hw).error rfl

theorem hasValue_factorialOf {limit} (he : e.HasValue I u) (h : I.fact u = some v) :
    (factorialOf limit e).HasValue I v := by
  have hf : (fact e).HasValue I v := hasValue_fact.mpr ⟨u, he, h⟩
  unfold factorialOf
  split
  case h_2 => exact hf
  case h_1 n hn =>
    split
    case isFalse => exact hf
    case isTrue hl =>
      obtain rfl := integer?_eq_some_iff.mp hn
      have hn : (n : Rat) = (n.toNat : Nat) := by exact_mod_cast (Int.toNat_of_nonneg hl.left).symm
      rw [hasValue_num.mp he, hn, I.fact_natCast, Option.some.injEq] at h
      exact hasValue_num.mpr (by rw [←h, Coefficient.factorial_eq])

theorem simplify_evaluates (h : e.HasValue I v) : Evaluates I v (simplify c e) := by
  induction e generalizing v <;> simp only [simplify, simplifyAll_eq_mapM]
  case num | sym => exact h
  case sum xs hi =>
    obtain ⟨vs, hvs, hv⟩ := totals_iff_values.mp (hasValue_node (o := .sum).mp h)
    refine (maps_values hi hvs mapM_maps).bind fun ys hys => hasValue_sumOf ?_
    exact totals_iff_values.mpr ⟨vs, hys, hv⟩
  case prod xs hi =>
    obtain ⟨vs, hvs, hv⟩ := totals_iff_values.mp (hasValue_node (o := .product).mp h)
    refine (maps_values hi hvs mapM_maps).bind fun ys hys => hasValue_productOf ?_
    exact totals_iff_values.mpr ⟨vs, hys, hv⟩
  case pow b e hb he =>
    obtain ⟨x, y, hx, hy, hv⟩ := hasValue_pow.mp h
    exact (hb hx).bind fun _ hx => (he hy).bind fun _ hy => hasValue_powerOf hx hy hv
  case fact e hi =>
    obtain ⟨x, hx, hv⟩ := hasValue_fact.mp h
    exact (hi hx).bind fun _ hx => hasValue_factorialOf hx hv
  case app s xs hi =>
    obtain ⟨vs, hvs, hv⟩ := hasValue_app.mp h
    exact (maps_values hi hvs mapM_maps).bind fun ys hys => hasValue_app.mpr ⟨vs, hys, hv⟩

theorem simplify_value (c : Config) (e : Expr) :
    (∀ I v, e.value I = some v → ∃ r, e.simplify c = .ok r ∧ r.value I = some v) ∧
    ∀ u, e.simplify c = .error (.undefined u) → ∀ I, e.value I = none := by
  have hs := simplify_settles (c := c) (e := e)
  constructor
  case left =>
    intro I v hv
    have he := simplify_evaluates (c := c) hv
    cases h : e.simplify c
    case ok r    => exact ⟨r, rfl, he.ok h⟩
    case error f => exact absurd (hs.error h) (he.error h)
  case right =>
    intro u hu I
    cases h : e.value I
    case none   => rfl
    case some v => exact absurd trivial ((simplify_evaluates (c := c) h).error hu)

theorem simplify_value_quotient :
    let I : Interpretation :=
      ⟨fun _ => 2, fun _ _ => none, fun q => some q.num.toNat.factorial, fun _ => rfl⟩
    let e := prod [fact (sum [sym "x", num 1]), pow (sym "x") (num (-1))]
    e.value I = some 3 ∧ ∃ r, e.simplify {} = .ok r ∧ r.value I = some 3 := by
  intro I e
  have hv : e.value I = some 3 := by decide +kernel
  exact ⟨hv, (simplify_value {} e).left I 3 hv⟩

end Expr

end ExactAlgebra
