import ExactAlgebra.Proofs.Form.Monic
import ExactAlgebra.Proofs.Simplify.Termination

-- Simplification decides the equality of Laurent polynomials.

namespace ExactAlgebra

open ExactAlgebra.Expr ExactAlgebra.Operation

namespace Expr

-- Nodes of numbers, symbols, products and whole powers.
def Monomial : Expr → Prop
  | num _ | sym _ | prod _ => True
  | pow _ e                => ∃ n : Int, e = num n
  | _                      => False

-- Sums of monomials, with any nesting of the sums.
inductive Laurent : Expr → Prop
  | monomial {e} (h : e.Every Monomial) : Laurent e
  | sum {xs} (h : ∀ x ∈ xs, Laurent x) : Laurent (sum xs)

-- A monomial denotes a coefficient and the exponents of its symbols, unless it raises 0 to a power
-- that is not positive.
mutual
noncomputable def monomial? : Expr → Option (ℚ × (String →₀ ℤ))
  | num q   => some (q, 0)
  | sym s   => some (1, Finsupp.single s 1)
  | prod xs => monomials? xs
  | pow b e =>
    match monomial? b, e.integer? with
    | some (c, v), some n => if c = 0 ∧ n ≤ 0 then none else some (c ^ n, n • v)
    | _, _                => none
  | _       => none

noncomputable def monomials? : List Expr → Option (ℚ × (String →₀ ℤ))
  | []      => some (1, 0)
  | x :: xs =>
    match monomial? x, monomials? xs with
    | some (c, v), some (d, w) => some (c * d, v + w)
    | _, _                     => none
end

-- A Laurent polynomial denotes the coefficients that are not 0 by the exponents they come with.
mutual
noncomputable def laurent? : Expr → Option ((String →₀ ℤ) →₀ ℚ)
  | sum xs => laurents? xs
  | e      => e.monomial?.map fun (c, v) => Finsupp.single v c

noncomputable def laurents? : List Expr → Option ((String →₀ ℤ) →₀ ℚ)
  | []      => some 0
  | x :: xs =>
    match laurent? x, laurents? xs with
    | some p, some q => some (p + q)
    | _, _           => none
end

def IsSymbol : Expr → Prop
  | sym _ => True
  | _     => False

theorem IsSymbol.atomic (b : Expr) (h : b.IsSymbol) : b.Atomic := by
  cases b <;> first | exact False.elim h | exact trivial

-- The exponents of symbols as the exponents of bases.
noncomputable def baseExponents : (String →₀ ℤ) →+ (Option Expr →₀ ℚ) :=
  (Finsupp.mapDomain.addMonoidHom fun s => some (sym s)).comp
    (Finsupp.mapRange.addMonoidHom (Int.castAddHom ℚ))

theorem baseExponents_single {s : String} {n : ℤ} :
    baseExponents (Finsupp.single s n) = Finsupp.single (some (sym s)) (n : ℚ) := by
  simp [baseExponents]

theorem baseExponents_injective : Function.Injective baseExponents := by
  have hs : Function.Injective fun s => some (sym s) := fun s t h => by simpa using h
  exact (Finsupp.mapDomain_injective hs).comp
    (Finsupp.mapRange_injective _ (map_zero _) Int.cast_injective)

-- A simplified tree for a monomial.
inductive Depicts (r : Expr) : ℚ → (String →₀ ℤ) → Prop
  | zero {v} (h : r = num 0) : Depicts r 0 v
  | product {c v} (h₀ : c ≠ 0) (h : Multiplied IsSymbol c (baseExponents v) (product.parts r)) :
      Depicts r c v

variable {c : Config} {e r : Expr} {xs ys : List Expr} {q : ℚ} {v : String →₀ ℤ}

theorem depicts_number : Depicts (num q) q 0 := by
  by_cases h : q = 0
  case pos => exact h ▸ .zero rfl
  case neg => exact .product h <| by simpa using Multiplied.of_number h

theorem depicts_symbol {s} : Depicts (sym s) 1 (Finsupp.single s 1) := by
  have h := Multiplied.of_power (q := 1) IsSymbol.atomic (show (sym s).IsSymbol from trivial)
  rw [literalPower_one, ←Int.cast_one, ←baseExponents_single] at h
  exact .product one_ne_zero h

-- The factors of a product depict its monomial all together, unless one of them is 0.
theorem depicts_factors
    (h : List.Forall₂ (fun x y => ∃ q v, x.monomial? = some (q, v) ∧ y.Depicts q v) xs ys) :
    ∃ q v, monomials? xs = some (q, v) ∧ (q = 0 ∧ num 0 ∈ ys ∨
      q ≠ 0 ∧ Multiplied IsSymbol q (baseExponents v) (ys.flatMap product.parts)) := by
  induction h with
  | nil =>
    refine ⟨1, 0, rfl, .inr ⟨one_ne_zero, ?_⟩⟩
    rw [map_zero]
    exact .nothing
  | @cons x y xs ys hx _ hi =>
    obtain ⟨c, v, hc, hy⟩ := hx
    obtain ⟨d, w, hd, hys⟩ := hi
    refine ⟨c * d, v + w, by simp only [monomials?, hc, hd], ?_⟩
    cases hy
    case zero hy => exact .inl ⟨zero_mul d, by simp [hy]⟩
    case product h₀ hy =>
      obtain ⟨rfl, hm⟩ | ⟨hd, hys⟩ := hys
      case inl => exact .inl ⟨mul_zero c, by simp [hm]⟩
      case inr =>
        refine .inr ⟨mul_ne_zero h₀ hd, ?_⟩
        simpa only [map_add, List.flatMap_cons, Multiset.coe_add] using hy.add hys

theorem depicts_productOf
    (h : List.Forall₂ (fun x y => ∃ q v, x.monomial? = some (q, v) ∧ y.Depicts q v) xs ys)
    (hr : productOf ys = .ok r) : ∃ q v, monomials? xs = some (q, v) ∧ r.Depicts q v := by
  obtain ⟨q, v, hq, ⟨rfl, h₀⟩ | ⟨h₀, hm⟩⟩ := depicts_factors h
  case inl =>
    rw [productOf, combineWith_absorbed h₀] at hr
    exact ⟨0, v, hq, .zero (by cases hr; rfl)⟩
  case inr => exact ⟨q, v, hq, .product h₀ <| (hm.combineWith IsSymbol.atomic).ok hr⟩

theorem depicts_powerOf {b : Expr} {n : Int} (h : b.Depicts q v)
    (hg : product.gather (product.parts b) = b) (hr : powerOf b (num n) = .ok r) :
    ¬(q = 0 ∧ n ≤ 0) ∧ r.Depicts (q ^ n) (n • v) := by
  cases h
  case zero hb =>
    subst hb
    by_cases hn : 0 < n
    case neg => simp [powerOf, powerWith, isZero, hn] at hr
    case pos =>
      have hr : num 0 = r := by simpa [powerOf, powerWith, isZero, hn] using hr
      rw [zero_zpow n (ne_of_gt hn)]
      exact ⟨fun h => absurd h.right (not_le_of_gt hn), .zero hr.symm⟩
  case product h₀ h =>
    refine ⟨fun h => h₀ h.left, .product (zpow_ne_zero n h₀) ?_⟩
    rw [map_zsmul]
    exact (powerOf_multiplied IsSymbol.atomic h hg).ok hr

theorem tame_of_monomial (h : e.Monomial) : e.Tame := by
  cases e <;> try exact trivial
  case pow => exact .inl h

theorem simplify_monomial (he : e.Every Monomial) (hr : e.simplify c = .ok r) :
    ∃ q v, e.monomial? = some (q, v) ∧ r.Depicts q v := by
  induction e generalizing r
  case num q =>
    cases hr
    exact ⟨q, 0, rfl, depicts_number⟩
  case sym s =>
    cases hr
    exact ⟨1, _, rfl, depicts_symbol⟩
  case prod xs hi =>
    have hx := (every_prod.mp he).right
    rw [simplify, bind_eq_ok] at hr
    obtain ⟨ys, hy, hr⟩ := hr
    have hxy := (List.forall₂_and_left _ _).mpr
      ⟨fun x hm r => @hi x hm r (hx x hm), simplifyAll_eq_ok.mp hy⟩
    exact depicts_productOf (hxy.imp fun _ y h => h.left y h.right) hr
  case pow b e hi _ =>
    obtain ⟨⟨n, rfl⟩, hb, -⟩ := every_pow.mp he
    rw [simplify, bind_eq_ok] at hr
    obtain ⟨b', hb', hr⟩ := hr
    obtain ⟨q, v, hq, hd⟩ := hi hb hb'
    have hplain := (yields_plain (hb.mono fun _ => tame_of_monomial)).ok hb'
    obtain ⟨hn, hd⟩ := depicts_powerOf hd (plain_form.gather_parts hplain) hr
    refine ⟨q ^ n, n • v, ?_, hd⟩
    simp only [monomial?, hq, integer?_eq_some_iff.mpr rfl, if_neg hn]
  case sum => exact he.here.elim
  case fact => exact he.here.elim
  case app => exact he.here.elim

-- The exponents in a symbolic part, or none where there is only a number.
noncomputable def labelExponents (l : Option Expr) : Option Expr →₀ ℚ :=
  exponents (product.parts (l.getD (num 1)))

-- Simplified trees that stand for a Laurent polynomial all together.
structure Stands (limit : Nat) (xs : List Expr) (p : (String →₀ ℤ) →₀ ℚ) : Prop where
  canonical : ∀ x ∈ xs, x.Every (Canonical limit)
  monic     : ∀ t ∈ terms xs, Monic (Canonical limit) IsSymbol t.symbolic
  total     : (coefficients (terms xs)).mapDomain labelExponents = p.mapDomain baseExponents

theorem not_factor_sum {ts} : ¬Factor IsSymbol (sum ts) :=
  fun h => (h.of_base? IsSymbol.atomic rfl).left

theorem not_monic_sum {p : Expr → Prop} {ts} : ¬Monic p IsSymbol (sum ts) :=
  fun h => not_factor_sum <| h.factors (sum ts) (by simp [parts, isIdentity, Operation.operands])

namespace Stands

variable {limit : Nat} {x : Expr} {p p' : (String →₀ ℤ) →₀ ℚ}

theorem nil : Stands limit [] 0 where
  canonical := by simp
  monic     := by simp [terms]
  total     := by simp [terms]

theorem cons (hx : Stands limit [x] p) (hxs : Stands limit xs p') :
    Stands limit (x :: xs) (p + p') where
  canonical := List.forall_mem_cons.mpr ⟨hx.canonical x (by simp), hxs.canonical⟩
  monic t ht := by
    rw [terms_cons, ←terms_singleton] at ht
    exact (Multiset.mem_add.mp ht).elim (hx.monic t) (hxs.monic t)
  total := by
    rw [terms_cons, ←terms_singleton, coefficients, amounts_add, Finsupp.mapDomain_add,
      Finsupp.mapDomain_add]
    exact congrArg₂ _ hx.total hxs.total

theorem of_depicts (hr : r.Every (Canonical limit)) (h : r.Depicts q v) :
    Stands limit [r] (Finsupp.single v q) := by
  have hc : ∀ x ∈ [r], x.Every (Canonical limit) := by simpa using hr
  cases h
  case zero h =>
    have ht : terms [r] = 0 := by simp [h, terms, parts, isIdentity, identity]
    exact ⟨hc, by simp [ht], by simp [ht]⟩
  case product h₀ h =>
    have ho : Operation.sum.owns r = false := by
      cases r <;> try rfl
      case sum ts =>
        have hm := h.factors (sum ts) (by simp [parts, isIdentity, Operation.operands])
        exact absurd hm not_factor_sum
    have hi := isIdentity_eq_false (o := .sum).mpr (h.ne_zero IsSymbol.atomic)
    have ht : terms [r] = {r} := by
      rw [terms_singleton, parts_eq hi, operands_of_not_owns ho, Multiset.coe_singleton]
    obtain ⟨hq, hm, hv⟩ := h.monic canonical_form IsSymbol.atomic hr
    refine ⟨hc, by simpa [ht] using hm, ?_⟩
    rw [ht, coefficients, amounts_singleton, Finsupp.mapDomain_single, Finsupp.mapDomain_single, hq,
      show labelExponents (Operation.sum.label? r) = baseExponents v from hv]

theorem intact (h : Stands limit xs p) : Intact (terms xs) := by
  refine .of_multiples fun t ht ts hl => absurd (h.monic t ht) ?_
  rw [symbolic, hl]
  exact not_monic_sum

theorem sumOf (h : Stands limit xs p) (hr : sumOf xs = .ok r) : Stands limit [r] p := by
  have hf : Form (Canonical limit) Apart := canonical_form
  have hs : Summed (Canonical limit) (coefficients (terms xs)) (terms xs) :=
    ⟨hf.terms_members h.canonical, h.intact, rfl⟩
  have ⟨r', hr', hre, hrs⟩ := hf.sumOf_summed_alone (fun _ h => h.neat.proper) h.canonical hs
  cases hr.symm.trans hr'
  refine ⟨by simpa using hre, fun t ht => ?_, by rw [hrs.total, h.total]⟩
  have ⟨y, hy, hl⟩ := hf.exists_label hre hrs.total ht
  rw [symbolic, ←hl]
  exact h.monic y hy

end Stands

-- The symbolic parts of products of symbols.
def symbolLabels (limit : Nat) : Set (Option Expr) :=
  { l | Monic (Canonical limit) IsSymbol (l.getD (num 1)) ∧ l ≠ some (num 1) }

theorem labelExponents_injOn {limit} : Set.InjOn labelExponents (symbolLabels limit) := by
  intro l hl m hm h
  have he : l.getD (num 1) = m.getD (num 1) :=
    hl.left.eq_of_exponents_eq canonical_form IsSymbol.atomic hm.left h
  have hl₁ := hl.right
  have hm₁ := hm.right
  cases l <;> cases m <;> simp_all

namespace Stands

variable {limit : Nat} {s : Expr} {p : (String →₀ ℤ) →₀ ℚ}

theorem support (h : Stands limit xs p) :
    ↑(coefficients (terms xs)).support ⊆ symbolLabels limit := by
  intro l hl
  have ⟨t, ht, htl⟩ := exists_of_amounts_apply_ne_zero (Finsupp.mem_support_iff.mp hl)
  have hte := (canonical_form.terms_members h.canonical t ht).every
  exact htl ▸ ⟨h.monic t ht, canonical_form.label_ne_one hte⟩

-- No two trees stand for the same polynomial.
theorem unique (hr : Stands limit [r] p) (hs : Stands limit [s] p) : r = s := by
  have h : coefficients (terms [r]) = coefficients (terms [s]) :=
    Finsupp.mapDomain_injOn (symbolLabels limit) labelExponents_injOn hr.support hs.support
      (hr.total.trans hs.total.symm)
  exact canonical_form.eq_of_coefficients_eq (hr.canonical r (by simp)) (hs.canonical s (by simp)) h

theorem operands
    (h : List.Forall₂ (fun x y => ∃ p, x.laurent? = some p ∧ Stands limit [y] p) xs ys) :
    ∃ p, laurents? xs = some p ∧ Stands limit ys p := by
  induction h with
  | nil => exact ⟨0, rfl, .nil⟩
  | cons hx _ hi =>
    have ⟨p, hp, hy⟩ := hx
    have ⟨q, hq, hys⟩ := hi
    exact ⟨p + q, by simp only [laurents?, hp, hq], hy.cons hys⟩

end Stands

theorem simplify_stands (he : e.Laurent) (hr : e.simplify c = .ok r) :
    ∃ p, e.laurent? = some p ∧ Stands c.factorialLimit [r] p := by
  induction he generalizing r with
  | @monomial e h =>
    obtain ⟨q, v, hq, hd⟩ := simplify_monomial h hr
    have hplain := (yields_plain (h.mono fun _ => tame_of_monomial)).ok hr
    refine ⟨Finsupp.single v q, ?_, .of_depicts (hplain.mono fun _ => Plain.toCanonical) hd⟩
    cases e <;> first | exact h.here.elim | simp [laurent?, hq]
  | @sum xs _ hi =>
    rw [simplify, bind_eq_ok] at hr
    obtain ⟨ys, hy, hr⟩ := hr
    have hxy := (List.forall₂_and_left _ _).mpr ⟨fun x hm r => @hi x hm r, simplifyAll_eq_ok.mp hy⟩
    obtain ⟨p, hp, hs⟩ := Stands.operands (hxy.imp fun _ y h => h.left y h.right)
    exact ⟨p, hp, hs.sumOf hr⟩

theorem simplify_eq_iff_laurent_eq {f s : Expr} (he : e.Laurent) (hf : f.Laurent)
    (hr : e.simplify c = .ok r) (hs : f.simplify c = .ok s) :
    ∃ p q, e.laurent? = some p ∧ f.laurent? = some q ∧ (r = s ↔ p = q) := by
  have ⟨p, hp, hrp⟩ := simplify_stands he hr
  have ⟨q, hq, hsq⟩ := simplify_stands hf hs
  refine ⟨p, q, hp, hq, ?_, ?_⟩
  · rintro rfl
    exact Finsupp.mapDomain_injective baseExponents_injective (hrp.total.symm.trans hsq.total)
  · rintro rfl
    exact hrp.unique hsq

-- Quotients of symbols, written as a sum of two and as one product.
theorem simplify_laurent_quotients :
    let e := sum [prod [num 2, sym "x", pow (sym "y") (num (-1))],
      sum [pow (prod [sym "y", pow (sym "x") (num (-1))]) (num (-1))]]
    let f := prod [pow (sym "y") (num (-1)), num 3, sym "x"]
    let r := prod [num 3, sym "x", pow (sym "y") (num (-1))]
    e.Laurent ∧ f.Laurent ∧ e.simplify {} = .ok r ∧ f.simplify {} = .ok r ∧
      ∃ p, e.laurent? = some p ∧ f.laurent? = some p := by
  intro e f r
  have hn : ∃ n : Int, (-1 : ℚ) = n := ⟨-1, by simp⟩
  have he : e.Laurent := by
    refine .sum ?_
    simp only [List.forall_mem_cons]
    refine ⟨.monomial ?_, .sum ?_, by simp⟩
    · simp [Monomial, hn]
    · simpa using Laurent.monomial (by simp [Monomial, hn])
  have hf : f.Laurent := .monomial (by simp [f, Monomial, hn])
  have hr : e.simplify {} = .ok r := by cbv
  have hs : f.simplify {} = .ok r := by cbv
  obtain ⟨p, q, hp, hq, h⟩ := simplify_eq_iff_laurent_eq he hf hr hs
  obtain rfl := h.mp rfl
  exact ⟨he, hf, hr, hs, p, hp, hq⟩

end Expr

end ExactAlgebra
