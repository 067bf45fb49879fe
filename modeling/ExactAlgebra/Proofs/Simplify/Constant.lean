import ExactAlgebra.Proofs.Simplify.Multiplication
import ExactAlgebra.Proofs.Simplify.Value

-- Trees of numbers simplify to the rationals they stand for, and are undefined where they stand for
-- none.

namespace ExactAlgebra

open ExactAlgebra.Expr ExactAlgebra.Operation

-- A positive power of 0 is 0 and any power of 1 is 1. Other bases have whole exponents.
def Coefficient.rationalPower? (p q : Rat) : Option Rat :=
  if p = 0 then if 0 < q then some 0 else none
  else if p = 1 then some 1
  else match Coefficient.integer? q with
    | some n => some (p ^ n)
    | none   => none

def Coefficient.rationalFactorial? (q : Rat) : Option Rat :=
  match Coefficient.integer? q with
  | some n => if 0 ≤ n then some n.toNat.factorial else none
  | none   => none

theorem Coefficient.rationalFactorial?_natCast {n : Nat} :
    rationalFactorial? n = some (n.factorial : Rat) := by
  have hn : integer? (n : Rat) = some (n : Int) := integer?_eq_some_iff.mpr rfl
  simp [rationalFactorial?, hn]

-- The rational a tree of numbers stands for, if all of its operands do.
mutual
def Expr.rational? : Expr → Option Rat
  | num q   => some q
  | sum xs  => do return (← rationals? xs).sum
  | prod xs => do return (← rationals? xs).prod
  | pow b e => do Coefficient.rationalPower? (← rational? b) (← rational? e)
  | fact e  => do Coefficient.rationalFactorial? (← rational? e)
  | sym _   => none
  | app ..  => none

def Expr.rationals? : List Expr → Option (List Rat)
  | []      => some []
  | x :: xs => do return (← rational? x) :: (← rationals? xs)
end

-- A computation that gives the image of a value, or is undefined where there is none.
inductive Folds {α β : Type} (g : α → β) : Option α → Except Fault β → Prop
  | value {a} : Folds g (some a) (.ok (g a))
  | undefined {u} : Folds g none (.error (.undefined u))

theorem Folds.bind {α β γ δ : Type} {g : α → β} {h : γ → δ} {v r} {k : α → Option γ}
    {l : β → Except Fault δ} (hf : Folds g v r) (hk : ∀ a, v = some a → Folds h (k a) (l (g a))) :
    Folds h (v >>= k) (r >>= l) := by
  cases hf
  case value     => exact hk _ rfl
  case undefined => exact .undefined

namespace Expr

-- Nodes without names, whose powers and factorials are rational and within the limit.
def Evaluable (limit : Nat) : Expr → Prop
  | pow b e => ∀ p q, b.rational? = some p → e.rational? = some q →
      p = 0 ∨ p = 1 ∨ ∃ n : Int, q = n
  | fact e  => ∀ q, e.rational? = some q → ∃ n : Nat, n ≤ limit ∧ q = n
  | sym _   => False
  | app ..  => False
  | _       => True

variable {c : Config} {e : Expr} {xs : List Expr} {ns : List Rat} {p q v : Rat}

theorem number_num : (num q).number = q := by
  by_cases h : q = 1 <;> simp [number, parts, isIdentity, identity, operands, scalar, h]

theorem exponents_num : exponents (product.parts (num q)) = 0 := by
  by_cases h : q = 1
  case pos => simp [parts, isIdentity, identity, h]
  case neg => simp [parts, isIdentity, identity, operands, h, amounts_singleton, exponent]

theorem productOf_numbers : productOf (ns.map num) = .ok (num ns.prod) := by
  have hc : ∀ x ∈ ns.map num, x.Every (Canonical 0) := by simp [canonical_form.number]
  have ⟨r, hr, h₀, hf⟩ := productOf_factored hc (by simp [powerProduct_num])
  by_cases hz : 0 ∈ ns
  case pos => rw [hr, h₀ (by simpa using hz), List.prod_eq_zero hz]
  case neg =>
    have hr' := hf (by simpa using hz)
    have hn : Factored 0 _ _ (num ns.prod) :=
      .of_powerProduct canonical_form.number powerProduct_num (by simpa using hz)
    have hnumber : ((ns.map num).map number).prod = ns.prod := by
      simp [Function.comp_def, number_num]
    have hexponents : ((ns.map num).map fun x => exponents (product.parts x)).sum = 0 := by
      simp [Function.comp_def, exponents_num]
    rw [hnumber, hexponents] at hr'
    rw [number_num, exponents_num] at hn
    rw [hr, hr'.unique hn]

theorem powerOf_numbers (h : p = 0 ∨ p = 1 ∨ ∃ n : Int, q = n) :
    Folds num (Coefficient.rationalPower? p q) (powerOf (num p) (num q)) := by
  have m := powerWith_powers (raise (num p).weight) (num p) (num q)
  rw [powerOf]
  generalize powerWith (raise (num p).weight) (num p) (num q) = r at m
  cases m
  case zero hb he hq =>
    cases hb
    cases he
    simpa [Coefficient.rationalPower?, hq] using Folds.value
  case undefined hb he hq =>
    cases hb
    cases he
    simpa [Coefficient.rationalPower?, hq] using Folds.undefined
  case symbolic he => simp [level] at he
  case one hb =>
    cases hb
    simpa [Coefficient.rationalPower?] using Folds.value
  case whole n h₀ h₁ he =>
    cases he
    have h₀ : p ≠ 0 := by simpa using h₀
    have h₁ : p ≠ 1 := by simpa using h₁
    rw [weight, raise_number h₀]
    simpa [Coefficient.rationalPower?, h₀, h₁] using Folds.value
  case apart h₀ h₁ he =>
    obtain rfl | rfl | ⟨n, rfl⟩ := h
    case inl     => exact absurd rfl h₀
    case inr.inl => exact absurd rfl h₁
    case inr.inr => exact absurd rfl (integer?_eq_none he n)

theorem factorialOf_number {limit n : Nat} (h : n ≤ limit) :
    factorialOf limit (num n) = num n.factorial := by
  have hn : (num n).integer? = some (n : Int) := integer?_eq_some_iff.mpr rfl
  simp [factorialOf, hn, h, Coefficient.factorial_eq]

theorem simplifyAll_folds (h : ∀ x ∈ xs, Folds num x.rational? (x.simplify c)) :
    Folds (List.map num) (rationals? xs) (simplifyAll c xs) := by
  induction xs with
  | nil => exact .value
  | cons x xs hi =>
    have ⟨hx, hxs⟩ := List.forall_mem_cons.mp h
    simp only [rationals?, simplifyAll]
    exact hx.bind fun q _ => (hi hxs).bind fun qs _ => .value

theorem simplify_folds (h : e.Every (Evaluable c.factorialLimit)) :
    Folds num e.rational? (e.simplify c) := by
  induction e <;> simp only [rational?, simplify]
  case num => exact .value
  case sym => exact False.elim h.here
  case app => exact False.elim h.here
  case sum xs hi =>
    have hx := (every_sum.mp h).right
    refine (simplifyAll_folds fun x hm => hi x hm (hx x hm)).bind fun qs _ => ?_
    rw [sumOf_numbers]
    exact .value
  case prod xs hi =>
    have hx := (every_prod.mp h).right
    refine (simplifyAll_folds fun x hm => hi x hm (hx x hm)).bind fun qs _ => ?_
    rw [productOf_numbers]
    exact .value
  case pow b e hb he =>
    obtain ⟨hp, hb', he'⟩ := every_pow.mp h
    exact (hb hb').bind fun p hp' => (he he').bind fun q hq => powerOf_numbers (hp p q hp' hq)
  case fact e hi =>
    obtain ⟨hf, he⟩ := every_fact.mp h
    refine (hi he).bind fun q hq => ?_
    obtain ⟨n, hn, rfl⟩ := hf q hq
    rw [Coefficient.rationalFactorial?_natCast, factorialOf_number hn]
    exact .value

-- Simplifying finds every rational, and is undefined exactly where there is none.
theorem simplify_rational (h : e.Every (Evaluable c.factorialLimit)) :
    (∀ v, e.rational? = some v ↔ e.simplify c = .ok (num v)) ∧
      (e.rational? = none ↔ ∃ u, e.simplify c = .error (.undefined u)) := by
  have hf := simplify_folds h
  generalize e.rational? = v at hf ⊢
  generalize e.simplify c = r at hf ⊢
  cases hf <;> simp

-- Neither a factor 0 nor an exponent 0 hides what is undefined.
theorem simplify_rational_zeros :
    let e := sum [prod [fact (sum [num 1, num 2]), pow (num (2 / 3)) (num (-2))],
      pow (num 0) (num (1 / 2)), pow (num 1) (num (1 / 3))]
    let t := prod [num 0, pow (pow (num 0) (sum [])) (num 0)]
    e.Every (Evaluable 3) ∧ e.rational? = some (29 / 2) ∧ e.simplify ⟨3⟩ = .ok (num (29 / 2)) ∧
      t.Every (Evaluable 3) ∧ t.rational? = none ∧ ∃ u, t.simplify ⟨3⟩ = .error (.undefined u) := by
  intro e t
  have he : e.Every (Evaluable 3) := by
    have h₃ : ∃ n : Nat, n ≤ 3 ∧ (1 + 2 : Rat) = n := ⟨3, by norm_num⟩
    have h₂ : ∃ n : Int, (-2 : Rat) = n := ⟨-2, by norm_num⟩
    simp [e, every_sum, every_prod, every_pow, every_fact, every_num, Evaluable, rational?,
      rationals?, h₃, h₂]
  have ht : t.Every (Evaluable 3) := by
    have h₀ : ∃ n : Int, (0 : Rat) = n := ⟨0, by norm_num⟩
    simp [t, every_sum, every_prod, every_pow, every_num, Evaluable, rational?, rationals?, h₀]
  have hv : e.rational? = some (29 / 2) := by decide +kernel
  have hn : t.rational? = none := by decide +kernel
  exact ⟨he, hv, ((simplify_rational (c := ⟨3⟩) he).left _).mp hv, ht, hn,
    (simplify_rational (c := ⟨3⟩) ht).right.mp hn⟩

end Expr

end ExactAlgebra
