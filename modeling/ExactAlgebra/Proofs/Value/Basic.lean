import ExactAlgebra.Proofs.Expr.Hereditary
import ExactAlgebra.Proofs.Operation.Total
import Mathlib.Algebra.Order.Field.Rat
import Mathlib.Algebra.Order.Ring.Cast
import Mathlib.Data.Nat.Factorial.Basic

namespace ExactAlgebra

open ExactAlgebra.Expr ExactAlgebra.Operation

-- What names stand for. Functions and factorials may have no value at some arguments, but
-- factorials of natural numbers are the usual ones.
structure Interpretation where
  sym          : String → Rat
  app          : String → List Rat → Option Rat
  fact         : Rat → Option Rat
  fact_natCast : ∀ n : Nat, fact n = some (n.factorial : Rat)

-- Powers have whole exponents, and 0 has positive powers only.
def Coefficient.power? (b e : Rat) : Option Rat :=
  match Coefficient.integer? e with
  | some n => if b ≠ 0 ∨ 0 < n then some (b ^ n) else none
  | none   => none

-- The value of a tree, if all of its operands have one.
mutual
def Expr.value (I : Interpretation) : Expr → Option Rat
  | num q    => some q
  | sym s    => some (I.sym s)
  | sum xs   => List.sum <$> values I xs
  | prod xs  => List.prod <$> values I xs
  | pow b e  => do Coefficient.power? (← value I b) (← value I e)
  | fact e   => do I.fact (← value I e)
  | app s xs => do I.app s (← values I xs)

def Expr.values (I : Interpretation) : List Expr → Option (List Rat)
  | []      => some []
  | x :: xs => do return (← value I x) :: (← values I xs)
end

namespace Coefficient

variable {b e f u v w : Rat} {n : Int}

theorem power?_eq_some : power? b e = some v ↔ ∃ n : Int, e = n ∧ (b ≠ 0 ∨ 0 < n) ∧ v = b ^ n := by
  unfold power?
  cases h : integer? e
  case none   =>
    simp only [reduceCtorEq, false_iff]
    rintro ⟨n, rfl, _⟩
    simp at h
  case some n =>
    rw [integer?_eq_some_iff.mp h]
    simp [eq_comm (a := v)]

theorem power?_one : power? b 1 = some b :=
  power?_eq_some.mpr ⟨1, by simp⟩

theorem power?_zero (h : power? 0 e = some v) : 0 < e ∧ v = 0 := by
  have ⟨n, he, hn, hv⟩ := power?_eq_some.mp h
  have hn : 0 < n := hn.resolve_left (not_not.mpr rfl)
  exact ⟨he ▸ Int.cast_pos.mpr hn, by rw [hv, zero_zpow n hn.ne']⟩

theorem power?_unit (h : power? 1 e = some v) : v = 1 := by
  have ⟨n, _, _, hv⟩ := power?_eq_some.mp h
  rw [hv, one_zpow]

theorem power?_add (hu : power? b e = some u) (hv : power? b f = some v) :
    power? b (e + f) = some (u * v) := by
  have ⟨m, he, hm, hu⟩ := power?_eq_some.mp hu
  have ⟨n, hf, hn, hv⟩ := power?_eq_some.mp hv
  have hmn : ((m + n : Int) : Rat) = e + f := by simp [he, hf]
  by_cases hb : b = 0
  case neg => exact power?_eq_some.mpr ⟨m + n, hmn.symm, .inl hb, by rw [hu, hv, zpow_add₀ hb]⟩
  case pos =>
    have hm := hm.resolve_left (not_not.mpr hb)
    have hn := hn.resolve_left (not_not.mpr hb)
    refine power?_eq_some.mpr ⟨m + n, hmn.symm, .inr (Int.add_pos hm hn), ?_⟩
    rw [hu, hv, hb, zero_zpow m hm.ne', zero_mul, zero_zpow _ (Int.add_pos hm hn).ne']

-- The power of a power multiplies the exponents.
theorem power?_power? (hu : power? b e = some u) (hv : power? u n = some v) :
    power? b (n * e) = some v := by
  have ⟨m, he, hm, hu⟩ := power?_eq_some.mp hu
  have ⟨k, hk, hn, hv⟩ := power?_eq_some.mp hv
  obtain rfl : n = k := by exact_mod_cast hk
  refine power?_eq_some.mpr ⟨n * m, by simp [he], ?_, by rw [hv, hu, mul_comm, zpow_mul]⟩
  by_cases hb : b = 0
  case neg => exact .inl hb
  case pos =>
    have hm := hm.resolve_left (not_not.mpr hb)
    have hu : u = 0 := by rw [hu, hb, zero_zpow m hm.ne']
    exact .inr <| Int.mul_pos (hn.resolve_left (not_not.mpr hu)) hm

theorem power?_mul (h : power? (u * v) n = some w) :
    ∃ x y, power? u n = some x ∧ power? v n = some y ∧ w = x * y := by
  have ⟨k, hk, hn, hw⟩ := power?_eq_some.mp h
  have hu : u ≠ 0 ∨ 0 < k := hn.imp_left left_ne_zero_of_mul
  have hv : v ≠ 0 ∨ 0 < k := hn.imp_left right_ne_zero_of_mul
  refine ⟨u ^ k, v ^ k, ?_, ?_, by rw [hw, mul_zpow]⟩
  · exact power?_eq_some.mpr ⟨k, hk, hu, rfl⟩
  · exact power?_eq_some.mpr ⟨k, hk, hv, rfl⟩

end Coefficient

namespace Operation

variable {o : Operation}

instance : Std.Associative o.fold where
  assoc := by cases o <;> simp [fold, add_assoc, mul_assoc]

instance : Std.Commutative o.fold where
  comm := by cases o <;> simp [fold, add_comm, mul_comm]

instance : Std.LawfulIdentity o.fold o.identity where
  left_id  := by cases o <;> simp [fold, identity]
  right_id := by cases o <;> simp [fold, identity]

theorem product_fold {p q} : product.fold p q = p * q := rfl

end Operation

namespace Expr

abbrev HasValue (I : Interpretation) (e : Expr) (v : Rat) : Prop :=
  e.value I = some v

variable {I : Interpretation} {o : Operation} {b e : Expr} {xs : List Expr} {u v : Rat}

attribute [local simp] value values HasValue

theorem values_eq_some {vs} : values I (e :: xs) = some vs ↔
    ∃ v ws, e.HasValue I v ∧ values I xs = some ws ∧ vs = v :: ws := by
  simp [Option.bind_eq_some_iff, eq_comm (a := vs)]

theorem totals_iff_values : Totals (HasValue I) o.fold o.identity xs u ↔
    ∃ vs, values I xs = some vs ∧ vs.foldr o.fold o.identity = u := by
  induction xs generalizing u with
  | nil => simp [Totals, eq_comm]
  | cons x xs hi =>
    simp only [Totals, hi, values_eq_some]
    constructor
    · rintro ⟨v, _, hv, ⟨ws, hw, rfl⟩, rfl⟩
      exact ⟨v :: ws, ⟨v, ws, hv, hw, rfl⟩, rfl⟩
    · rintro ⟨_, ⟨v, ws, hv, hw, rfl⟩, rfl⟩
      exact ⟨v, _, hv, ⟨ws, hw, rfl⟩, rfl⟩

theorem hasValue_node :
    (o.node xs).HasValue I u ↔ Totals (HasValue I) o.fold o.identity xs u := by
  rw [totals_iff_values]
  cases o <;> simp [node, fold, identity, List.sum, List.prod]

theorem hasValue_num {q} : (num q).HasValue I u ↔ u = q := by
  simp [eq_comm]

theorem hasValue_pow : (pow b e).HasValue I u ↔
    ∃ x y, b.HasValue I x ∧ e.HasValue I y ∧ Coefficient.power? x y = some u := by
  simp [Option.bind_eq_some_iff]

theorem hasValue_fact : (fact e).HasValue I u ↔ ∃ x, e.HasValue I x ∧ I.fact x = some u := by
  simp [Option.bind_eq_some_iff]

theorem hasValue_app {s} : (app s xs).HasValue I u ↔
    ∃ vs, values I xs = some vs ∧ I.app s vs = some u := by
  simp [Option.bind_eq_some_iff]

theorem hasValue_gather (h : Totals (HasValue I) o.fold o.identity xs u) :
    (o.gather xs).HasValue I u := by
  match xs with
  | []          => exact hasValue_num.mpr h
  | [x]         => exact Totals.singleton.mp h
  | x :: y :: xs => exact hasValue_node.mpr h

theorem hasValue_operands (h : e.HasValue I u) :
    Totals (HasValue I) o.fold o.identity (o.operands e) u := by
  cases o <;> cases e
  case sum.sum | product.prod => exact hasValue_node.mp h
  all_goals exact Totals.singleton.mpr h

theorem hasValue_split? {c t} (hs : e.split? = .ok (some (c, t))) (h : e.HasValue I u) :
    ∃ v, t.HasValue I v ∧ u = c * v := by
  obtain rfl | ⟨xs, -, rfl, rfl⟩ | ⟨rfl, rfl, -⟩ := split?_eq_some hs
  case inr.inr => exact ⟨u, h, (one_mul u).symm⟩
  case inl =>
    have ⟨p, v, hp, hv, hu⟩ := hasValue_node (o := .product).mp h
    rw [hasValue_num.mp hp] at hu
    exact ⟨v, Totals.singleton.mp hv, hu⟩
  case inr.inl =>
    have ⟨p, v, hp, hv, hu⟩ := hasValue_node (o := .product).mp h
    rw [hasValue_num.mp hp] at hu
    exact ⟨v, hasValue_node (o := .product).mpr hv, hu⟩

theorem hasValue_scaleFactors {c} (h : Totals (HasValue I) product.fold product.identity xs u) :
    (scaleFactors c xs).HasValue I (c * u) := by
  fun_induction scaleFactors c xs generalizing u
  case case1 => exact hasValue_num.mpr (by rw [show u = 1 from h, mul_one])
  case case2 c q xs hc =>
    obtain ⟨p, v, hp, hv, hu⟩ := h
    rw [hu, hasValue_num.mp hp, product_fold, ←mul_assoc, hc, one_mul]
    exact hasValue_gather hv
  case case3 c q xs _ hc =>
    obtain ⟨p, v, hp, hv, hu⟩ := h
    rw [hu, hasValue_num.mp hp, product_fold, ←mul_assoc, hc, zero_mul]
    exact hasValue_num.mpr rfl
  case case4 c q xs _ _ hi =>
    obtain ⟨p, v, hp, hv, hu⟩ := h
    rw [hu, hasValue_num.mp hp, product_fold, ←mul_assoc]
    exact hi hv
  case case5 => exact hasValue_node (o := .product).mpr ⟨_, u, hasValue_num.mpr rfl, h, rfl⟩

theorem hasValue_scale {c} (h : e.HasValue I u) : (scale c e).HasValue I (c * u) := by
  fun_cases scale c e
  case case1 => exact hasValue_num.mpr (by rw [hasValue_num.mp h])
  case case2 hc _ => exact hasValue_num.mpr (by rw [hc, zero_mul])
  case case3 hc _ => rwa [hc, one_mul]
  case case4 => exact hasValue_scaleFactors (hasValue_node (o := .product).mp h)
  case case5 =>
    refine hasValue_node (o := .product).mpr ⟨_, u, hasValue_num.mpr rfl, ?_, rfl⟩
    exact Totals.singleton.mpr h

end Expr

end ExactAlgebra
