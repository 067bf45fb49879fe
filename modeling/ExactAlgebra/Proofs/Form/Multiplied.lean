import ExactAlgebra.Proofs.Coefficient.Power
import ExactAlgebra.Proofs.Form.Summed

-- Numbers and literal powers of bases that cannot be opened up multiply their numbers and add up
-- their exponents.

namespace ExactAlgebra

open ExactAlgebra.Expr ExactAlgebra.Operation

namespace Expr

-- What a factor contributes to the number of a product.
def scalar : Expr → Rat
  | num q => q
  | _     => 1

-- What a factor contributes to the exponent of its base.
def exponent : Expr → Rat
  | num _         => 0
  | pow _ (num q) => q
  | _             => 1

noncomputable abbrev exponents : Multiset Expr → Option Expr →₀ ℚ :=
  amounts product.label? exponent

theorem exponents_pair {a b : Expr} (h : product.label? a = product.label? b) :
    exponents {a, b} = Finsupp.single (product.label? a) (a.exponent + b.exponent) :=
  amounts_pair h

def literalPower (b : Expr) (q : Rat) : Expr :=
  if q = 0 then num 1 else if q = 1 then b else pow b (num q)

-- Numbers and literal powers of bases of a class.
inductive Factor (P : Expr → Prop) : Expr → Prop
  | number {q} (h₀ : q ≠ 0) (h₁ : q ≠ 1) : Factor P (num q)
  | power {b q} (hb : P b) (h₀ : q ≠ 0) : Factor P (literalPower b q)

section

variable {b : Expr} {q : Rat}

@[simp]
theorem literalPower_zero : literalPower b 0 = num 1 := by
  simp [literalPower]

@[simp]
theorem literalPower_one : literalPower b 1 = b := by
  simp [literalPower]

theorem literalPower_apart (h₀ : q ≠ 0) (h₁ : q ≠ 1) : literalPower b q = pow b (num q) := by
  simp [literalPower, h₀, h₁]

-- A factor that raises a base to a literal exponent, with no number next to it.
structure IsPower (b : Expr) (q : Rat) (x : Expr) : Prop where
  belongs  : Belongs .product x
  base     : x.base? = some b
  literal  : x.exponent? = some (num q)
  exponent : x.exponent = q
  scalar   : x.scalar = 1

theorem Atomic.isPower (hb : b.Atomic) : IsPower b 1 b := by
  cases b <;> first
    | exact False.elim hb
    | exact ⟨.of_level_pos rfl (by simp [level]), rfl, rfl, rfl, rfl⟩

theorem literalPower_isPower (hb : b.Atomic) (h₀ : q ≠ 0) : IsPower b q (literalPower b q) := by
  by_cases h₁ : q = 1
  case pos =>
    rw [h₁, literalPower_one]
    exact hb.isPower
  case neg =>
    rw [literalPower_apart h₀ h₁]
    exact ⟨.of_level_pos rfl (by simp [level]), rfl, rfl, rfl, rfl⟩

end

end Expr

-- Factors with the number and the exponents that all of them have together.
structure Multiplied (P : Expr → Prop) (c : ℚ) (v : Option Expr →₀ ℚ) (s : Multiset Expr) :
    Prop where
  factors : ∀ x ∈ s, Factor P x
  number  : (s.map scalar).prod = c
  powers  : exponents s = v

variable {P : Expr → Prop} {b x : Expr} {q c d : ℚ} {v w : Option Expr →₀ ℚ} {s t : Multiset Expr}

theorem Expr.Factor.belongs (hP : ∀ b, P b → b.Atomic) (h : Factor P x) : Belongs .product x := by
  cases h
  case number h₀ h₁ => exact ⟨rfl, by simpa [isIdentity], by simpa [absorbs, absorbing?]⟩
  case power hb h₀  => exact (literalPower_isPower (hP _ hb) h₀).belongs

theorem Expr.Factor.of_base? (hP : ∀ b, P b → b.Atomic) (h : Factor P x) (hb : x.base? = some b) :
    P b ∧ IsPower b x.exponent x := by
  cases h
  case number => cases hb
  case power b' q hb' h₀ =>
    have hx := literalPower_isPower (hP b' hb') h₀
    obtain rfl : b' = b := by simpa [hx.base] using hb
    rw [hx.exponent]
    exact ⟨hb', hx⟩

namespace Multiplied

theorem nothing : Multiplied P 1 0 0 where
  factors := by simp
  number  := rfl
  powers  := rfl

theorem singleton (h : Factor P x) :
    Multiplied P x.scalar (Finsupp.single (product.label? x) x.exponent) {x} where
  factors := by simpa
  number  := Multiset.prod_singleton _
  powers  := amounts_singleton

theorem add (hs : Multiplied P c v s) (ht : Multiplied P d w t) :
    Multiplied P (c * d) (v + w) (s + t) where
  factors x hx := (Multiset.mem_add.mp hx).elim (hs.factors x) (ht.factors x)
  number       := by rw [Multiset.map_add, Multiset.prod_add, hs.number, ht.number]
  powers       := by rw [←hs.powers, ←ht.powers]; exact amounts_add

theorem of_belongs (hx : Belongs .product x) (h : Factor P x) :
    Multiplied P x.scalar (Finsupp.single (product.label? x) x.exponent) (product.parts x) := by
  have hp : product.parts x = [x] := by
    simp [parts, hx.not_identity, operands_of_not_owns hx.not_owns]
  rw [hp]
  exact singleton h

theorem of_number (h : q ≠ 0) : Multiplied P q 0 (product.parts (num q)) := by
  by_cases h₁ : q = 1
  case pos =>
    rw [h₁]
    exact nothing
  case neg =>
    have hm := of_belongs ⟨rfl, by simpa [isIdentity], by simpa [absorbs, absorbing?]⟩
      (Factor.number (P := P) h h₁)
    simpa only [scalar, exponent, Finsupp.single_zero] using hm

theorem of_power (hP : ∀ b, P b → b.Atomic) (hb : P b) :
    Multiplied P 1 (Finsupp.single (some b) q) (product.parts (literalPower b q)) := by
  by_cases h₀ : q = 0
  case pos =>
    rw [h₀, literalPower_zero, Finsupp.single_zero]
    exact nothing
  case neg =>
    have hx := literalPower_isPower (hP b hb) h₀
    have hm := of_belongs hx.belongs (Factor.power hb h₀)
    rwa [hx.scalar, hx.exponent, label?, hx.base] at hm

end Multiplied

-- A literal power of a base that cannot be opened up is one unless the depth runs out.
theorem Expr.powerWith_literal {d} (hb : b.Atomic) :
    Settles (· = literalPower b q) (· = .exhausted) (powerWith (raise d) b (num q)) := by
  have m := powerWith_powers (raise d) b (num q)
  generalize powerWith (raise d) b (num q) = r at m
  cases m
  case zero hb' _ _ | undefined hb' _ _ | symbolic hb' _ | one hb' =>
    subst hb'
    exact False.elim hb
  case apart he =>
    have hn := integer?_eq_none he
    have h₀ : q ≠ 0 := by simpa using hn 0
    have h₁ : q ≠ 1 := by simpa using hn 1
    exact (literalPower_apart h₀ h₁).symm
  case whole n _ _ he =>
    obtain rfl : q = n := by simpa using he
    cases d with
    | zero   => exact rfl
    | succ d =>
      have m := raise_raises d b n
      generalize raise (d + 1) b n = r at m
      cases m
      case zero h => simp [Settles, h]
      case one h => simp [Settles, h]
      case atom h₀ h₁ _ => exact (literalPower_apart (by simpa) (by simpa)).symm
      case num hb' | pow hb' _ | whole hb' _ | fault hb' _ | prod hb' _ =>
        subst hb'
        exact False.elim hb

-- What two factors collect to has their number and their exponents.
def Multiplies (P : Expr → Prop) (a b : Expr) : Collected → Prop
  | .apart     => True
  | .cancelled => Multiplied P (a.scalar * b.scalar) (exponents {a, b}) 0
  | .one c     => Multiplied P (a.scalar * b.scalar) (exponents {a, b}) (product.operands c)

theorem collectPowers_multiplies (hP : ∀ b, P b → b.Atomic) {x y d} (hx : Factor P x)
    (hy : Factor P y) (hxb : x.base? = some b) (hyb : y.base? = some b) :
    Settles (Multiplies P x y) (· = .exhausted) (collectPowersWith (raise d) x y) := by
  have ⟨hb, hxp⟩ := hx.of_base? hP hxb
  have ⟨_, hyp⟩  := hy.of_base? hP hyb
  have hsum : sumOf [num x.exponent, num y.exponent] = .ok (num (x.exponent + y.exponent)) := by
    simpa using @sumOf_numbers [x.exponent, y.exponent]
  have hv : exponents {x, y} = Finsupp.single (some b) (x.exponent + y.exponent) := by
    rw [exponents_pair (hxb.trans hyb.symm), label?, hxb]
  simp only [collectPowersWith, hxb, hyb, hxp.literal, hyp.literal, if_true, hsum]
  refine (powerWith_literal (hP b hb)).bind ?_
  rintro _ rfl
  have hm := Multiplied.of_power (q := x.exponent + y.exponent) hP hb
  generalize literalPower b (x.exponent + y.exponent) = r at hm
  rw [←hv, show (1 : ℚ) = x.scalar * y.scalar by rw [hxp.scalar, hyp.scalar, one_mul]] at hm
  by_cases hr : r = num 1
  case pos =>
    subst hr
    exact hm
  case neg =>
    rw [parts_eq (isIdentity_eq_false.mpr hr)] at hm
    simpa [isOne, hr, Settles, Multiplies, pure, Except.pure] using hm

theorem collects_multiplies (hP : ∀ b, P b → b.Atomic) {x y d} (hx : Factor P x)
    (hy : Factor P y) : Settles (Multiplies P x y) (· = .exhausted)
      (product.collectPair (collectPowersWith (raise d)) x y) := by
  have hn {p q} : exponents {num p, num q} = 0 := by
    rw [exponents_pair (label?_num.trans label?_num.symm)]
    simp [exponent]
  apply collectPair_settles
  case hu =>
    rintro p q rfl rfl h
    rw [Multiplies, hn, show (num p).scalar * (num q).scalar = 1 from h]
    exact .nothing
  case hn =>
    rintro p q rfl rfl h
    have h₀ : p * q ≠ 0 :=
      mul_ne_zero (by simpa using (hx.belongs hP).ne_zero) (by simpa using (hy.belongs hP).ne_zero)
    rw [Multiplies, hn, ←parts_eq (isIdentity_eq_false.mpr (by simpa using h))]
    exact .of_number h₀
  case hc =>
    by_cases hl : x.base? = y.base? ∧ x.base? ≠ none
    case pos =>
      obtain ⟨b, hxb⟩ := Option.ne_none_iff_exists'.mp hl.right
      exact collectPowers_multiplies hP hx hy hxb (hl.left.symm.trans hxb)
    case neg =>
      have m := collectPowersWith_collects (raise d) x y
      generalize collectPowersWith (raise d) x y = r at m
      cases m
      case apart => exact trivial
      all_goals exact absurd (by simp [*]) hl

namespace Multiplied

theorem heads {a b} (h : Multiplied P c v (a ::ₘ b ::ₘ s)) :
    Factor P a ∧ Factor P b ∧ ∃ d w, Multiplied P d w s ∧ c = a.scalar * b.scalar * d ∧
      v = exponents {a, b} + w := by
  have ⟨ha, hb, hs⟩ : Factor P a ∧ Factor P b ∧ ∀ x ∈ s, Factor P x := by simpa using h.factors
  refine ⟨ha, hb, _, _, ⟨hs, rfl, rfl⟩, ?_, ?_⟩
  · rw [←h.number, Multiset.map_cons, Multiset.map_cons, Multiset.prod_cons, Multiset.prod_cons,
      mul_assoc]
  · rw [←h.powers]
    exact amounts_add.symm.trans (congrArg exponents (by simp)) |>.symm

theorem conserved (hP : ∀ b, P b → b.Atomic) {d} :
    Conserved .product (collectPowersWith (raise d)) (Multiplied P c v) (· = .exhausted) where
  belongs h x hx := (h.factors x hx).belongs hP
  cancelled h hp := by
    have ⟨ha, hb, _, _, hs, hc, hv⟩ := h.heads
    have hm := ((collects_multiplies hP ha hb).ok hp).add hs
    rwa [zero_add, ←hc, ←hv] at hm
  one h hp := by
    have ⟨ha, hb, _, _, hs, hc, hv⟩ := h.heads
    have hm := ((collects_multiplies hP ha hb).ok hp).add hs
    rwa [←hc, ←hv] at hm
  fault h hp := by
    have ⟨ha, hb, _⟩ := h.heads
    exact (collects_multiplies hP ha hb).error hp

-- A product has the number and the exponents of its operands.
theorem combineWith (hP : ∀ b, P b → b.Atomic) {d xs}
    (h : Multiplied P c v (xs.flatMap product.parts)) :
    Settles (fun r => Multiplied P c v (product.parts r)) (· = .exhausted)
      (product.combineWith (collectPowersWith (raise d)) xs) :=
  raise_bounded.shrinks.combineWith_combines.conserves_alone (conserved hP) h

end Multiplied

end ExactAlgebra
