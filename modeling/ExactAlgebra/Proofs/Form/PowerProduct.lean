import ExactAlgebra.Proofs.Form.Monic
import ExactAlgebra.Proofs.Simplify.Termination

-- Canonical products of numbers and of literal powers of bases that cannot be opened up.
-- Multiplying and raising them gives such products again, which their number and their exponents
-- determine.

namespace ExactAlgebra

open ExactAlgebra.Expr ExactAlgebra.Operation

namespace Expr

-- Numbers, bases that cannot be opened up, and literal powers of these.
inductive LiteralFactor : Expr → Prop
  | number {q} : LiteralFactor (num q)
  | base {b} (hb : b.Atomic) : LiteralFactor b
  | power {b q} (hb : b.Atomic) : LiteralFactor (pow b (num q))

def PowerProduct (e : Expr) : Prop :=
  ∀ x ∈ product.parts e, LiteralFactor x

theorem LiteralFactor.powerProduct {x} (h : LiteralFactor x) (ho : product.owns x = false) :
    x.PowerProduct := by
  intro y hy
  rw [Operation.parts, operands_of_not_owns ho] at hy
  split at hy
  case isTrue  => cases hy
  case isFalse => exact List.mem_singleton.mp hy ▸ h

theorem powerProduct_num {q} : (num q).PowerProduct :=
  LiteralFactor.number.powerProduct rfl

theorem powerProduct_prod {xs} : (prod xs).PowerProduct ↔ ∀ x ∈ xs, LiteralFactor x := by
  simp [PowerProduct, Operation.parts, isIdentity, Operation.operands]

-- The product of the numbers among the factors of a tree.
def number (e : Expr) : Rat :=
  ((product.parts e).map scalar).prod

end Expr

-- A canonical base that cannot be opened up.
structure Generator (limit : Nat) (b : Expr) : Prop where
  atomic    : b.Atomic
  canonical : b.Every (Canonical limit)

-- A canonical tree with a number other than 0 and with exponents.
structure Factored (limit : Nat) (c : ℚ) (v : Option Expr →₀ ℚ) (e : Expr) : Prop where
  canonical  : e.Every (Canonical limit)
  multiplied : Multiplied (Generator limit) c v (product.parts e)

variable {limit : Nat} {b e r s x : Expr} {xs : List Expr} {c q : ℚ} {v : Option Expr →₀ ℚ}
variable {d : Nat} {n : Int}

theorem generator_atomic (b : Expr) (h : Generator limit b) : b.Atomic :=
  h.atomic

theorem Generator.literalPower (h : Generator limit b) :
    (literalPower b q).Every (Canonical limit) := by
  unfold Expr.literalPower
  split
  case isTrue => exact canonical_form.number
  split
  case isTrue         => exact h.canonical
  case isFalse h₀ h₁  =>
    have hp : (pow b (num q)).Plain limit := plain_pow h.atomic (by simpa) (by simpa)
    exact ⟨hp.toCanonical, h.canonical, canonical_form.number⟩

theorem Expr.Factor.scalar_ne_zero (h : Factor (Generator limit) x) : x.scalar ≠ 0 := by
  cases h
  case number h₀ _ => exact h₀
  case power hb h₀ =>
    rw [(literalPower_isPower hb.atomic h₀).scalar]
    exact one_ne_zero

theorem Expr.Factor.every (h : Factor (Generator limit) x) : x.Every (Canonical limit) := by
  cases h
  case number     => exact canonical_form.number
  case power hb _ => exact hb.literalPower

theorem Expr.Factor.member (h : Factor (Generator limit) x) :
    Member (Canonical limit) .product x :=
  ⟨h.belongs generator_atomic, h.every⟩

theorem Expr.Factor.collectPair_base {a c} (ha : Factor (Generator limit) a)
    (h : product.collectPair (collectPowersWith (raise d)) a b = .ok (.one c)) :
    c.base? = a.base? :=
  Expr.collectPair_base (fun s hs => generator_atomic s (ha.of_base? generator_atomic hs).left) h

-- Collecting two literal powers leaves their base alone, and no product comes of them.
theorem generators_keep : Keeps .product (collectPowersWith (raise d)) (Factor (Generator limit))
    product.Apart fun _ => True := by
  refine canonical_form.apart_keeps (fun _ h => h.neat.proper) Factor.member ?_ ?_ ?_
  · exact fun _ _ h => product_apart_iff.mp h
  · intro a b c ha hb h _
    have hf := ((collects_multiplies generator_atomic ha hb).ok h).factors
    have ho : product.owns c = false := by
      cases c
      case prod =>
        exact (ha.of_base? generator_atomic (ha.collectPair_base h).symm).left.atomic.elim
      all_goals rfl
    rw [operands_of_not_owns ho] at hf ⊢
    exact .singleton (hf c (by simp))
  · exact fun ha _ h _ => ha.collectPair_base h

theorem combineWith_yields (hc : ∀ x ∈ xs, x.Every (Canonical limit))
    (hf : ∀ x ∈ xs.flatMap product.parts, Factor (Generator limit) x) :
    Yields (Canonical limit) (product.combineWith (collectPowersWith (raise d)) xs) := by
  have m : Combines .product (collectPowersWith (raise d)) xs _ :=
    raise_bounded.shrinks.combineWith_combines
  have hs := m.settles (@generators_keep limit d) fun x hx ha hi => by
    refine ⟨fun y hy => hf y ?_, (canonical_form.operands (hc x hx) hi ha).sorted⟩
    exact List.mem_flatMap.mpr ⟨x, hx, parts_eq hi ▸ hy⟩
  refine hs.mono (fun r hr => ?_) fun _ => id
  cases hr
  case absorbing h => exact (absorbs_iff.mp h).right ▸ canonical_form.number
  case one h _ _   => exact hc r h
  case list h      => exact canonical_form.gather ⟨fun x hx => (h.mem x hx).member, h.sorted⟩

theorem raise_factor_yields (hx : Factor (Generator limit) x) :
    Yields (Canonical limit) (raise d x n) := by
  cases hx
  case number h₀ _ =>
    cases d with
    | zero   => exact trivial
    | succ d =>
      rw [raise_number h₀]
      exact canonical_form.number
  case power hb h₀ =>
    refine (raise_literalPower hb.atomic h₀).mono ?_ fun _ _ => trivial
    rintro _ rfl
    exact hb.literalPower

namespace Factored

theorem ne_zero (h : Factored limit c v e) : e ≠ num 0 :=
  h.multiplied.ne_zero generator_atomic

theorem raise_yields (h : Factored limit c v e) : Yields (Canonical limit) (raise d e n) := by
  have hm := h.multiplied
  have hg := @Form.gather_parts _ _ product _ canonical_form h.canonical
  cases d with
  | zero   => exact trivial
  | succ d =>
    rcases hp : product.parts e with _ | ⟨x, _ | ⟨y, xs⟩⟩ <;> rw [hp] at hg hm
    case nil =>
      obtain rfl : num 1 = e := hg
      rw [raise_number one_ne_zero]
      exact canonical_form.number
    case cons.nil =>
      obtain rfl : x = e := hg
      exact raise_factor_yields (hm.factors x (by simp))
    case cons.cons =>
      obtain rfl : prod (x :: y :: xs) = e := hg
      by_cases h₀ : n = 0
      case pos =>
        rw [h₀, raise_zero]
        exact canonical_form.number
      by_cases h₁ : n = 1
      case pos =>
        rw [h₁, raise_one]
        exact h.canonical
      case neg =>
        rw [raise_prod h₀ h₁]
        have hy := mapM_maps.settles fun z hz =>
          raise_factor_yields (d := d) (n := n) (hm.factors z (Multiset.mem_coe.mpr hz))
        refine (hy.and fun ys hys => ?_).bind fun ys ⟨hc, hf⟩ => combineWith_yields hc hf
        have hm := (mapM_maps.multiplied generator_atomic hm).ok hys
        exact fun z hz => hm.factors z (Multiset.mem_coe.mpr hz)

-- Such trees are determined by their number and their exponents.
theorem unique (hr : Factored limit c v r) (hs : Factored limit c v s) : r = s := by
  have ⟨hrc, hrm, hrv⟩ := hr.multiplied.monic canonical_form generator_atomic hr.canonical
  have ⟨hsc, hsm, hsv⟩ := hs.multiplied.monic canonical_form generator_atomic hs.canonical
  have h : r.symbolic = s.symbolic :=
    hrm.eq_of_exponents_eq canonical_form generator_atomic hsm (hrv.trans hsv.symm)
  rw [←canonical_form.scale_symbolic hr.canonical, ←canonical_form.scale_symbolic hs.canonical, h,
    hrc, hsc]

theorem productOf (hc : ∀ x ∈ xs, x.Every (Canonical limit))
    (hm : Multiplied (Generator limit) c v (xs.flatMap product.parts)) :
    ∃ r, Expr.productOf xs = .ok r ∧ Factored limit c v r := by
  have hr := hm.combineWith (d := weights xs) generator_atomic
  have hy := combineWith_yields (d := weights xs) hc hm.factors
  have hs := solid_hereditary.productOf fun x hx => canonical_form.solid (hc x hx)
  have ⟨r, h, hm, _⟩ := hr.exists_ok hs Fault.exhausted_no_cause
  exact ⟨r, h, hy.ok h, hm⟩

theorem powerOf (h : Factored limit c v e) (n : Int) :
    ∃ r, Expr.powerOf e (num n) = .ok r ∧ Factored limit (c ^ n) (n • v) r := by
  have hg := @Form.gather_parts _ _ product _ canonical_form h.canonical
  have hr := powerOf_multiplied (n := n) generator_atomic h.multiplied hg
  have hs := solid_hereditary.powerOf (e := num n) (canonical_form.solid h.canonical) trivial
  have ⟨r, hr, hm, _⟩ := hr.exists_ok hs Fault.exhausted_no_cause
  exact ⟨r, hr, h.raise_yields.ok ((powerOf_whole h.ne_zero).symm.trans hr), hm⟩

theorem powerProduct (h : Factored limit c v e) : e.PowerProduct := by
  intro x hx
  have hf := h.multiplied.factors x (by simpa using hx)
  cases hf
  case number => exact .number
  case power b q hb h₀ =>
    by_cases h₁ : q = 1
    case pos => exact h₁ ▸ literalPower_one ▸ .base hb.atomic
    case neg => exact literalPower_apart h₀ h₁ ▸ .power hb.atomic

theorem number_eq (h : Factored limit c v e) : e.number = c := by
  rw [←h.multiplied.number, Multiset.map_coe, Multiset.prod_coe, Expr.number]

theorem number_ne_zero (h : Factored limit c v e) : c ≠ 0 := by
  rw [←h.multiplied.number]
  refine Multiset.prod_ne_zero fun h₀ => ?_
  have ⟨x, hx, hx₀⟩ := Multiset.mem_map.mp h₀
  exact (h.multiplied.factors x hx).scalar_ne_zero hx₀

theorem exponents_eq (h : Factored limit c v e) : exponents (product.parts e) = v :=
  h.multiplied.powers

-- The literal powers among the factors have the exponents of their bases.
theorem literalPower_mem_iff (h : Factored limit c v e) (hb : b.Atomic) (h₀ : q ≠ 0) :
    literalPower b q ∈ product.parts e ↔ v (some b) = q := by
  have ha : product.absorbs e = false := absorbs_eq_false h.ne_zero
  have hv {x} (hx : x ∈ product.parts e) : v (product.label? x) = x.exponent := by
    rw [←h.multiplied.powers]
    exact amounts_apply_of_mem (canonical_form.parts h.canonical ha).sorted hx
  constructor
  case mp =>
    intro hm
    have hx := literalPower_isPower hb h₀
    have he := hv hm
    rwa [label?, hx.base, hx.exponent] at he
  case mpr =>
    intro hq
    obtain ⟨x, hx, hl⟩ := exists_of_amounts_apply_ne_zero (h.multiplied.powers ▸ hq ▸ h₀)
    obtain ⟨b', hb', _, hxe⟩ :=
      (h.multiplied.factors x hx).eq_literalPower generator_atomic (level_pos_of_label? hl)
    have hx : x ∈ product.parts e := by simpa using hx
    obtain rfl : b' = b := Option.some.inj (hb'.symm.trans hl)
    have he : x.exponent = q := by rw [←hv hx, hl, hq]
    rwa [hxe, he] at hx

end Factored

theorem Expr.LiteralFactor.factor (h : LiteralFactor x) (hx : Member (Canonical limit) .product x) :
    Factor (Generator limit) x := by
  cases h
  case number q =>
    refine .number (by simpa using hx.ne_zero) ?_
    simpa [identity] using isIdentity_eq_false.mp hx.not_identity
  case base hb =>
    have hf := Factor.power (q := 1) (Generator.mk hb hx.every) one_ne_zero
    rwa [literalPower_one] at hf
  case power b q hb =>
    obtain ⟨hn, hbe, _⟩ := every_pow.mp hx.every
    have h₀ : q ≠ 0 := by simpa using hn.neat.right.left
    have h₁ : q ≠ 1 := by simpa using hn.neat.right.right.left
    exact literalPower_apart h₀ h₁ ▸ .power ⟨hb, hbe⟩ h₀

theorem Factored.of_powerProduct (hc : e.Every (Canonical limit)) (hp : e.PowerProduct)
    (h₀ : e ≠ num 0) : Factored limit e.number (exponents (product.parts e)) e := by
  have hm := (canonical_form.parts (o := .product) hc (absorbs_eq_false h₀)).mem
  refine ⟨hc, fun x hx => ?_, by simp [Expr.number], rfl⟩
  have hx : x ∈ product.parts e := by simpa using hx
  exact (hp x hx).factor (hm x hx)

end ExactAlgebra
