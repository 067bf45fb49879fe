import ExactAlgebra.Proofs.Coefficient.Power
import ExactAlgebra.Proofs.Operation.Load
import ExactAlgebra.Proofs.Value.Basic

-- Combining and raising operands that have a value gives the value of the sum, the product or the
-- power, and never turns out to be undefined.

namespace ExactAlgebra

open ExactAlgebra.Expr ExactAlgebra.Operation

namespace Expr

-- A computation on trees that have a value is never undefined.
abbrev Evaluates (I : Interpretation) (u : Rat) : Except Fault Expr → Prop :=
  Settles (HasValue I · u) (¬·.HasCause)

variable {I : Interpretation} {o : Operation} {b e : Expr} {xs : List Expr} {u v w : Rat}

theorem hasValue_measure {collect : Expr → Expr → Except Fault Collected}
    (hc : ∀ {a b u v}, a.HasValue I u → b.HasValue I v →
      Settles (Weighs (HasValue I) o.identity (o.fold u v)) (¬·.HasCause) (collect a b)) :
    Measure o collect (HasValue I) o.fold o.identity (¬·.HasCause) where
  identity h := hasValue_num.mp h
  operands   := hasValue_operands
  absorbing ha h := by
    obtain ⟨rfl, rfl⟩ := absorbs_iff.mp ha
    rw [hasValue_num.mp h]
    exact zero_mul _
  pair ha hb := by
    refine collectPair_settles ?_ ?_ (hc ha hb)
    · rintro p q rfl rfl h
      rwa [hasValue_num.mp ha, hasValue_num.mp hb]
    · rintro p q rfl rfl -
      rw [hasValue_num.mp ha, hasValue_num.mp hb]
      exact hasValue_num.mpr rfl

theorem split?_error_no_cause {f} (h : e.split? = .error f) : ¬f.HasCause := by
  rw [(split?_eq_error h).right]
  exact id

theorem hasValue_unique (hu : e.HasValue I u) (hv : e.HasValue I v) : u = v :=
  Option.some.inj (hu.symm.trans hv)

theorem hasValue_like {a b t : Expr} {p q} (ha : a.split? = .ok (some (p, t)))
    (hb : b.split? = .ok (some (q, t))) (hu : a.HasValue I u) (hv : b.HasValue I v) :
    ∃ x, t.HasValue I x ∧ u + v = (p + q) * x := by
  have ⟨x, hx, hu⟩ := hasValue_split? ha hu
  have ⟨y, hy, hv⟩ := hasValue_split? hb hv
  rw [hasValue_unique hy hx] at hv
  exact ⟨x, hx, by rw [hu, hv, add_mul]⟩

theorem hasValue_sum_measure :
    Measure .sum collectTerms (HasValue I) Operation.sum.fold Operation.sum.identity
      (¬·.HasCause) := by
  apply hasValue_measure
  intro a b u v hu hv
  have m := collectTerms_collects a b
  generalize collectTerms a b = r at m
  cases m
  case fault h                 => exact h.elim split?_error_no_cause split?_error_no_cause
  case number | apart          => exact trivial
  case cancelled p q t ha hb h =>
    have ⟨x, _, hx⟩ := hasValue_like ha hb hu hv
    show u + v = 0
    rw [hx, h, zero_mul]
  case one p q t ha hb h       =>
    have ⟨x, ht, hx⟩ := hasValue_like ha hb hu hv
    show (scale (p + q) t).HasValue I (u + v)
    rw [hx]
    exact hasValue_scale ht

theorem hasValue_sumOf (h : Totals (HasValue I) Operation.sum.fold Operation.sum.identity xs u) :
    Evaluates I u (sumOf xs) :=
  sum_shrinks.combineWith_combines.settles_worth hasValue_sum_measure hasValue_gather h

theorem exists_powers (h : e.HasValue I u) {s f} (hs : e.base? = some s)
    (hf : e.exponent? = some f) :
    ∃ x y, s.HasValue I x ∧ f.HasValue I y ∧ Coefficient.power? x y = some u := by
  cases e <;> cases hs <;> cases hf
  case pow => exact hasValue_pow.mp h
  all_goals exact ⟨u, 1, h, hasValue_num.mpr rfl, Coefficient.power?_one⟩

-- What raises a tree that has a value.
def Faithful (I : Interpretation) (raise' : Expr → Int → Except Fault Expr) : Prop :=
  ∀ ⦃b u v⦄ ⦃n : Int⦄, b.HasValue I u → Coefficient.power? u n = some v → Evaluates I v (raise' b n)

namespace Faithful

variable {raise' : Expr → Int → Except Fault Expr}

theorem powers (hr : Faithful I raise') (hb : b.HasValue I u) (he : e.HasValue I v)
    (h : Coefficient.power? u v = some w) {r} (m : Powers raise' b e r) : Evaluates I w r := by
  have hp : (pow b e).HasValue I w := hasValue_pow.mpr ⟨u, v, hb, he, h⟩
  cases m
  case symbolic | apart => exact hp
  case one hb'          =>
    subst hb'
    rw [hasValue_num.mp hb] at h
    exact hasValue_num.mpr (Coefficient.power?_unit h)
  case zero q hb' he' _ =>
    subst hb'
    rw [hasValue_num.mp hb] at h
    exact hasValue_num.mpr (Coefficient.power?_zero h).right
  case undefined q hb' he' hq =>
    subst hb' he'
    rw [hasValue_num.mp hb, hasValue_num.mp he] at h
    exact absurd (Coefficient.power?_zero h).left hq
  case whole k _ _ he' =>
    subst he'
    rw [hasValue_num.mp he] at h
    exact hr hb h

theorem measure (hr : Faithful I raise') :
    Measure .product (collectPowersWith raise') (HasValue I) product.fold product.identity
      (¬·.HasCause) := by
  apply hasValue_measure
  intro a b u v hu hv
  have hg {s e f} (hs : a.base? = some s) (ht : b.base? = some s) (he : a.exponent? = some e)
      (hf : b.exponent? = some f) : ∃ x y, s.HasValue I x ∧
        Evaluates I y (sumOf [e, f]) ∧ Coefficient.power? x y = some (u * v) := by
    have ⟨x, y, hx, hy, hu⟩ := exists_powers hu hs he
    have ⟨x', z, hx', hz, hv⟩ := exists_powers hv ht hf
    rw [hasValue_unique hx' hx] at hv
    have hyz : Totals (HasValue I) Operation.sum.fold Operation.sum.identity [e, f] (y + z) :=
      ⟨y, z, hy, Totals.singleton.mpr hz, rfl⟩
    exact ⟨x, y + z, hx, hasValue_sumOf hyz, Coefficient.power?_add hu hv⟩
  have m := collectPowersWith_collects raise' a b
  generalize collectPowersWith raise' a b = r at m
  cases m
  case apart => exact trivial
  case sum_fault hs ht he hf h =>
    have ⟨x, y, _, hy, _⟩ := hg hs ht he hf
    exact hy.error h
  case power_fault hs ht he hf hsum h =>
    have ⟨x, y, hx, hy, hp⟩ := hg hs ht he hf
    exact (hr.powers hx (hy.ok hsum) hp (powerWith_powers ..)).error h
  case power s e f g r hs ht he hf hsum h =>
    have ⟨x, y, hx, hy, hp⟩ := hg hs ht he hf
    have hc := (hr.powers hx (hy.ok hsum) hp (powerWith_powers ..)).ok h
    split
    case isFalse => exact hc
    case isTrue hone =>
      rw [show r = num 1 by simpa [isOne] using hone] at hc
      exact hasValue_num.mp hc

-- The power of a product is the product of the powers of its factors.
theorem maps (hr : Faithful I raise') {n : Int} {r}
    (h : Totals (HasValue I) product.fold product.identity xs u)
    (hn : Coefficient.power? u n = some w) (m : Maps (raise' · n) xs r) :
    Settles (Totals (HasValue I) product.fold product.identity · w) (¬·.HasCause) r := by
  induction m generalizing u w
  case nil =>
    rw [show u = 1 from h] at hn
    exact Coefficient.power?_unit hn
  case cons hx _ hi =>
    have ⟨v, v', hv, hv', hu⟩ := h
    have ⟨x, y, hpx, hpy, hw⟩ := Coefficient.power?_mul (hu ▸ hn)
    exact ⟨x, y, (hr hv hpx).ok hx, hi hv' hpy, hw⟩
  case head hx =>
    have ⟨v, v', hv, hv', hu⟩ := h
    have ⟨x, y, hpx, hpy, hw⟩ := Coefficient.power?_mul (hu ▸ hn)
    exact (hr hv hpx).error hx
  case tail hi =>
    have ⟨v, v', hv, hv', hu⟩ := h
    have ⟨x, y, hpx, hpy, hw⟩ := Coefficient.power?_mul (hu ▸ hn)
    exact (hi hv' hpy).error rfl

end Faithful

theorem raise_faithful {d} : Faithful I (raise d) := by
  induction d with
  | zero => exact fun _ _ _ _ _ _ h => h
  | succ d hi =>
    intro b u v n hu hv
    have ⟨k, hk, hn, hv'⟩ := Coefficient.power?_eq_some.mp hv
    obtain rfl : n = k := by exact_mod_cast hk
    have m := raise_raises d b n
    generalize raise (d + 1) b n = r at m
    cases m
    case zero h => exact hasValue_num.mpr (by rw [hv', h, zpow_zero])
    case one h  =>
      rw [h, zpow_one] at hv'
      exact hv' ▸ hu
    case num q _ _ hb =>
      subst hb
      obtain rfl := hasValue_num.mp hu
      rw [Coefficient.power_eq]
      split
      case isTrue h => exact absurd h.left (hn.resolve_right (by omega))
      case isFalse  => exact hasValue_num.mpr hv'
    case whole s e k _ _ hb he =>
      subst hb
      have ⟨x, y, hx, hy, hxy⟩ := hasValue_pow.mp hu
      exact hi.powers hx (he ▸ hasValue_scale hy) (Coefficient.power?_power? hxy hv)
        (powerWith_powers ..)
    case pow s e _ _ hb _ =>
      subst hb
      have ⟨x, y, hx, hy, hxy⟩ := hasValue_pow.mp hu
      exact hasValue_pow.mpr ⟨x, _, hx, hasValue_scale hy, Coefficient.power?_power? hxy hv⟩
    case fault xs f _ _ hb m =>
      subst hb
      exact hi.maps (hasValue_node (o := .product).mp hu) hv m
    case prod xs ys _ _ hb m =>
      subst hb
      have hy := hi.maps (hasValue_node (o := .product).mp hu) hv m
      exact raise_bounded.shrinks.combineWith_combines.settles_worth hi.measure hasValue_gather hy
    case atom => exact hasValue_pow.mpr ⟨u, n, hu, hasValue_num.mpr rfl, hv⟩

theorem hasValue_productOf (h : Totals (HasValue I) product.fold product.identity xs u) :
    Evaluates I u (productOf xs) :=
  product_shrinks.combineWith_combines.settles_worth raise_faithful.measure hasValue_gather h

theorem hasValue_powerOf (hb : b.HasValue I u) (he : e.HasValue I v)
    (h : Coefficient.power? u v = some w) : Evaluates I w (powerOf b e) :=
  raise_faithful.powers hb he h (powerWith_powers ..)

end Expr

end ExactAlgebra
