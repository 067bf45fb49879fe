import ExactAlgebra.Proofs.Form.Multiplied

-- Raising a number or a product of literal powers raises the number and multiplies the exponents.

namespace ExactAlgebra

open ExactAlgebra.Expr ExactAlgebra.Operation

variable {P : Expr → Prop} {x e r : Expr} {xs : List Expr} {c : ℚ} {v : Option Expr →₀ ℚ}
variable {d : Nat} {n : Int}

-- A computation that has the power of a number and of exponents as its result, unless it runs out
-- of depth.
abbrev RaisesTo (P : Expr → Prop) (c : ℚ) (v : Option Expr →₀ ℚ) (n : Int) :
    Except Fault Expr → Prop :=
  Settles (fun r => Multiplied P (c ^ n) (n • v) (product.parts r)) (· = .exhausted)

theorem Expr.raise_number {q : ℚ} (hq : q ≠ 0) : raise (d + 1) (num q) n = .ok (num (q ^ n)) := by
  have m := raise_raises d (num q) n
  generalize raise (d + 1) (num q) n = r at m
  cases m
  case zero h => rw [h, zpow_zero]
  case one h  => rw [h, zpow_one]
  case num hb =>
    cases hb
    rw [Coefficient.power_eq, if_neg fun h => hq h.left]
    rfl
  case whole hb _ | pow hb _ | fault hb _ | prod hb _ => cases hb
  case atom hl                                        => simp [level] at hl

-- The power of a literal power multiplies the exponents.
theorem Expr.raise_literalPower {b : Expr} {q : ℚ} (hb : b.Atomic) (h₀ : q ≠ 0) :
    Settles (· = literalPower b (n * q)) (· = .exhausted) (raise d (literalPower b q) n) := by
  have hx := literalPower_isPower hb h₀
  generalize he : literalPower b q = x at hx
  cases d with
  | zero   => exact rfl
  | succ d =>
    have m := raise_raises d x n
    generalize raise (d + 1) x n = r at m
    cases m
    case zero h => simp [Settles, h]
    case one h  => simp [Settles, h, he]
    case num hn =>
      subst hn
      cases hx.base
    case whole s e k _ _ hs hk =>
      subst hs
      obtain rfl : s = b := Option.some.inj hx.base
      obtain rfl : e = num q := Option.some.inj hx.literal
      have hk : n * q = k := by simpa [scale] using hk
      exact hk ▸ powerWith_literal hb
    case pow s e _ _ hs hk =>
      subst hs
      obtain rfl : s = b := Option.some.inj hx.base
      obtain rfl : e = num q := Option.some.inj hx.literal
      have hn := integer?_eq_none hk
      have h₀ : n * q ≠ 0 := by simpa [scale] using hn 0
      have h₁ : n * q ≠ 1 := by simpa [scale] using hn 1
      exact (literalPower_apart h₀ h₁).symm
    case atom h₀ h₁ hl =>
      have hp := (atomic_iff.mpr hl).isPower
      obtain rfl : x = b := by simpa [hp.base] using hx.base
      obtain rfl : 1 = q := by simpa [hp.literal] using hx.literal
      rw [mul_one]
      exact (literalPower_apart (by simpa) (by simpa)).symm
    case fault hs _ | prod hs _ =>
      subst hs
      cases hx.belongs.not_owns

theorem Expr.raise_factor (hP : ∀ b, P b → b.Atomic) (hx : Factor P x) :
    RaisesTo P x.scalar (Finsupp.single (product.label? x) x.exponent) n (raise d x n) := by
  cases hx
  case number q h₀ _ =>
    cases d with
    | zero   => exact rfl
    | succ d =>
      rw [raise_number h₀]
      simpa [RaisesTo, Settles, scalar, exponent] using Multiplied.of_number (zpow_ne_zero n h₀)
  case power b q hb h₀ =>
    have hx := literalPower_isPower (hP b hb) h₀
    refine (raise_literalPower (hP b hb) h₀).mono ?_ fun _ => id
    rintro _ rfl
    rw [hx.scalar, one_zpow, hx.exponent, label?, hx.base, Finsupp.smul_single, zsmul_eq_mul]
    exact .of_power hP hb

theorem Maps.multiplied (hP : ∀ b, P b → b.Atomic) {r} (m : Maps (raise d · n) xs r)
    (h : Multiplied P c v xs) :
    Settles (fun ys => Multiplied P (c ^ n) (n • v) (ys.flatMap product.parts)) (· = .exhausted)
      r := by
  have hx {x xs} {c v} (h : Multiplied P c v ((x :: xs : List Expr) : Multiset Expr)) :
      Factor P x ∧ Multiplied P (xs.map scalar).prod (exponents xs) xs :=
    ⟨h.factors x (by simp), fun y hy => h.factors y (by simp_all), by simp, rfl⟩
  induction m generalizing c v
  case nil =>
    rw [←h.number, ←h.powers]
    simpa [Settles] using Multiplied.nothing
  case cons x y xs ys hy _ hi =>
    obtain ⟨hx, hxs⟩ := hx h
    have hm : Multiplied P _ _ _ := ((raise_factor hP hx).ok hy).add (hi hxs)
    have hc : x.scalar * (xs.map scalar).prod = c := by simpa using h.number
    have hv : Finsupp.single (product.label? x) x.exponent + exponents xs = v :=
      amounts_cons.symm.trans h.powers
    rwa [←mul_zpow, ←smul_add, hc, hv, Multiset.coe_add, ←List.flatMap_cons] at hm
  case head hy => exact (raise_factor hP (hx h).left).error hy
  case tail hi => exact (hi (hx h).right).error rfl

theorem Multiplied.of_parts_nil (h : Multiplied P c v (product.parts r))
    (hp : product.parts r = []) : c = 1 ∧ v = 0 := by
  rw [hp] at h
  exact ⟨h.number.symm, h.powers.symm⟩

theorem Multiplied.ne_zero (hP : ∀ b, P b → b.Atomic) (h : Multiplied P c v (product.parts r)) :
    r ≠ num 0 := by
  rintro rfl
  exact ((h.factors (num 0) (by decide)).belongs hP).ne_zero rfl

theorem Multiplied.one : Multiplied P (1 ^ n) (n • 0) (product.parts (num 1)) := by
  rw [one_zpow, smul_zero]
  exact .nothing

theorem Expr.raise_product (hP : ∀ b, P b → b.Atomic) (h : Multiplied P c v xs) :
    RaisesTo P c v n (raise (d + 1) (prod xs) n) := by
  by_cases h₀ : n = 0
  case pos =>
    rw [h₀, raise_zero, RaisesTo, zpow_zero, zero_smul]
    exact .nothing
  by_cases h₁ : n = 1
  case pos =>
    rw [h₁, raise_one, RaisesTo, zpow_one, one_smul]
    exact h
  case neg =>
    rw [raise_prod h₀ h₁]
    exact (mapM_maps.multiplied hP h).bind fun ys hy => hy.combineWith hP

theorem Expr.raise_multiplied (hP : ∀ b, P b → b.Atomic) (h : Multiplied P c v (product.parts r))
    (hg : product.gather (product.parts r) = r) : RaisesTo P c v n (raise d r n) := by
  cases d with
  | zero   => exact rfl
  | succ d =>
    rcases hp : product.parts r with _ | ⟨x, _ | ⟨y, xs⟩⟩ <;> rw [hp] at hg
    case nil =>
      obtain rfl : num 1 = r := hg
      obtain ⟨rfl, rfl⟩ := h.of_parts_nil hp
      rw [raise_number one_ne_zero, one_zpow]
      exact .one
    case cons.nil =>
      obtain rfl : x = r := hg
      rw [hp] at h
      have hc : x.scalar = c := by simpa using h.number
      have hv : Finsupp.single (product.label? x) x.exponent = v :=
        amounts_singleton.symm.trans h.powers
      exact hc ▸ hv ▸ raise_factor hP (h.factors x (by simp))
    case cons.cons =>
      obtain rfl : prod (x :: y :: xs) = r := hg
      rw [hp] at h
      exact raise_product hP h

-- A base other than 0 is raised to every whole power.
theorem Expr.powerOf_whole (h₀ : r ≠ num 0) : powerOf r (num n) = raise r.weight r n := by
  have m := powerWith_powers (raise r.weight) r (num n)
  rw [powerOf]
  generalize powerWith (raise r.weight) r (num n) = t at m
  cases m
  case one hr =>
    subst hr
    rw [weight, raise_number one_ne_zero, one_zpow]
  case whole he =>
    obtain rfl : n = _ := by simpa using he
    rfl
  case apart he => simp [integer?] at he
  case zero hr _ _ | undefined hr _ _ | symbolic hr _ => exact absurd hr h₀

theorem Expr.powerOf_multiplied (hP : ∀ b, P b → b.Atomic) (h : Multiplied P c v (product.parts r))
    (hg : product.gather (product.parts r) = r) : RaisesTo P c v n (powerOf r (num n)) := by
  rw [powerOf_whole (h.ne_zero hP)]
  exact raise_multiplied hP h hg

end ExactAlgebra
