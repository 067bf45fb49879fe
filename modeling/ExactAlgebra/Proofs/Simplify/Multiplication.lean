import ExactAlgebra.Proofs.Form.PowerProduct
import ExactAlgebra.Proofs.Simplify.FixedPoint

-- Products of literal powers may be regrouped, and the laws of powers hold for them.

namespace ExactAlgebra

open ExactAlgebra.Expr ExactAlgebra.Operation

variable {limit : Nat} {s t : Expr} {xs ys : List Expr} {m n : Int}

namespace Factored

theorem multiplied_all (h : ∀ x ∈ xs, Factored limit x.number (exponents (product.parts x)) x) :
    Multiplied (Generator limit) (xs.map number).prod
      (xs.map fun x => exponents (product.parts x)).sum (xs.flatMap product.parts) := by
  induction xs with
  | nil => exact .nothing
  | cons x xs hi =>
    have ⟨hx, hxs⟩ := List.forall_mem_cons.mp h
    simpa only [List.map_cons, List.prod_cons, List.sum_cons, List.flatMap_cons, Multiset.coe_add]
      using hx.multiplied.add (hi hxs)

theorem productOf_pair {c d : ℚ} {v w} (hs : Factored limit c v s) (ht : Factored limit d w t) :
    ∃ r, Expr.productOf [s, t] = .ok r ∧ Factored limit (c * d) (v + w) r := by
  refine productOf (by simp [hs.canonical, ht.canonical]) ?_
  simpa using hs.multiplied.add ht.multiplied

end Factored

namespace Expr

-- A product is 0 if a factor is, and otherwise it multiplies the numbers and adds up the exponents.
theorem productOf_factored (hc : ∀ x ∈ xs, x.Every (Canonical limit))
    (hp : ∀ x ∈ xs, x.PowerProduct) :
    ∃ r, productOf xs = .ok r ∧ (num 0 ∈ xs → r = num 0) ∧ (num 0 ∉ xs →
      Factored limit (xs.map number).prod (xs.map fun x => exponents (product.parts x)).sum r) := by
  by_cases h₀ : num 0 ∈ xs
  case pos => exact ⟨num 0, combineWith_absorbed h₀, fun _ => rfl, fun h => absurd h₀ h⟩
  case neg =>
    have hx : ∀ x ∈ xs, Factored limit x.number (exponents (product.parts x)) x := fun x hx =>
      .of_powerProduct (hc x hx) (hp x hx) fun h => h₀ (h ▸ hx)
    have ⟨r, hr, hf⟩ := Factored.productOf hc (Factored.multiplied_all hx)
    exact ⟨r, hr, fun h => absurd h h₀, fun _ => hf⟩

-- Two lists of operands multiply to the product of what each of them multiplies to. The literal
-- powers in the result and in each operand have the exponents that are added.
theorem productOf_regroups (hc : ∀ x ∈ xs ++ ys, x.Every (Canonical limit))
    (hp : ∀ x ∈ xs ++ ys, x.PowerProduct) :
    ∃ s t r, productOf xs = .ok s ∧ productOf ys = .ok t ∧ productOf (xs ++ ys) = .ok r ∧
      productOf [s, t] = .ok r ∧ r.Every (Canonical limit) ∧ r.PowerProduct ∧
      (num 0 ∈ xs ++ ys → r = num 0) ∧
      (num 0 ∉ xs ++ ys → r.number = ((xs ++ ys).map number).prod ∧
        exponents (product.parts r) = ((xs ++ ys).map fun x => exponents (product.parts x)).sum ∧
        ∀ x ∈ r :: (xs ++ ys), ∀ b q, b.Atomic → q ≠ 0 →
          (literalPower b q ∈ product.parts x ↔ exponents (product.parts x) (some b) = q)) := by
  have ⟨hcx, hcy⟩ := List.forall_mem_append.mp hc
  have ⟨hpx, hpy⟩ := List.forall_mem_append.mp hp
  have ⟨s, hs, hs₀, hsf⟩ := productOf_factored hcx hpx
  have ⟨t, ht, ht₀, htf⟩ := productOf_factored hcy hpy
  have ⟨r, hr, hr₀, hrf⟩ := productOf_factored hc hp
  refine ⟨s, t, r, hs, ht, hr, ?_⟩
  by_cases h₀ : num 0 ∈ xs ++ ys
  case pos =>
    obtain rfl := hr₀ h₀
    have hst : num 0 ∈ [s, t] := by
      obtain h | h := List.mem_append.mp h₀
      case inl => simp [hs₀ h]
      case inr => simp [ht₀ h]
    exact ⟨combineWith_absorbed hst, canonical_form.number, powerProduct_num, hr₀,
      fun h => absurd h₀ h⟩
  case neg =>
    obtain ⟨hx, hy⟩ : num 0 ∉ xs ∧ num 0 ∉ ys := by simpa using h₀
    have hf := hrf h₀
    have hall : ∀ x ∈ xs ++ ys, Factored limit x.number (exponents (product.parts x)) x :=
      fun x hx => .of_powerProduct (hc x hx) (hp x hx) fun h => h₀ (h ▸ hx)
    have ⟨r', hr', hf'⟩ := (hsf hx).productOf_pair (htf hy)
    rw [←List.prod_append, ←List.sum_append, ←List.map_append, ←List.map_append] at hf'
    obtain rfl : r' = r := hf'.unique hf
    refine ⟨hr', hf.canonical, hf.powerProduct, hr₀, fun _ => ⟨hf.number_eq, hf.exponents_eq, ?_⟩⟩
    intro x hx b q hb hq
    obtain rfl | hx := List.mem_cons.mp hx
    case inl => rw [hf.literalPower_mem_iff hb hq, hf.exponents_eq]
    case inr => exact (hall x hx).literalPower_mem_iff hb hq

-- The powers of the sum cancel, and those of x become whole.
theorem productOf_regroups_roots :
    let u := sum [sym "x", sym "y"]
    let a := prod [num 2, pow (sym "x") (num (1 / 2)), pow u (num (-1))]
    let b := prod [sym "y", u]
    let xs := [a, num 3, fact (sym "n")]
    let ys := [pow (sym "x") (num (1 / 2)), b]
    let r := prod [num 6, fact (sym "n"), sym "x", sym "y"]
    (∀ x ∈ xs ++ ys, x.Every (Canonical 0)) ∧ (∀ x ∈ xs ++ ys, x.PowerProduct) ∧
      ∃ s t, productOf xs = .ok s ∧ productOf ys = .ok t ∧ productOf (xs ++ ys) = .ok r ∧
        productOf [s, t] = .ok r := by
  intro u a b xs ys r
  have hc : ∀ x ∈ xs ++ ys, x.Every (Canonical 0) := by
    simp only [xs, ys, List.cons_append, List.nil_append, List.forall_mem_cons]
    refine ⟨?_, ?_, ?_, ?_, ?_, by simp⟩
    all_goals
      refine canonical_of_fixed_nodes (c := ⟨0⟩) ?_
      repeat' apply And.intro
      all_goals cbv
  have ha : a.PowerProduct := powerProduct_prod.mpr <| by
    simpa using ⟨.number, .power trivial, .power trivial⟩
  have hb : b.PowerProduct := powerProduct_prod.mpr <| by
    simpa using ⟨.base trivial, .base trivial⟩
  have hn : (fact (sym "n")).PowerProduct := LiteralFactor.powerProduct (.base trivial) rfl
  have hx : (pow (sym "x") (num (1 / 2))).PowerProduct :=
    LiteralFactor.powerProduct (.power trivial) rfl
  have hp : ∀ x ∈ xs ++ ys, x.PowerProduct := by
    simp only [xs, ys, List.cons_append, List.nil_append, List.forall_mem_cons]
    exact ⟨ha, powerProduct_num, hn, hx, hb, by simp⟩
  have h : productOf (xs ++ ys) = .ok r := by cbv
  obtain ⟨s, t, r', hs, ht, hr', hst, _⟩ := productOf_regroups hc hp
  cases h.symm.trans hr'
  exact ⟨hc, hp, s, t, hs, ht, h, hst⟩

section

variable (hsc : s.Every (Canonical limit)) (hsp : s.PowerProduct) (hs₀ : s ≠ num 0)
variable (htc : t.Every (Canonical limit)) (htp : t.PowerProduct) (ht₀ : t ≠ num 0)

include hsc hsp hs₀ htc htp ht₀

-- The power of a power, the product of powers and the power of a product.
theorem powerOf_laws (m n : Int) :
    ∃ sm sn tn st smn sma stn,
      powerOf s (num m) = .ok sm ∧ powerOf s (num n) = .ok sn ∧ powerOf t (num n) = .ok tn ∧
      productOf [s, t] = .ok st ∧
      powerOf sm (num n) = .ok smn ∧ powerOf s (num (m * n : Int)) = .ok smn ∧
      productOf [sm, sn] = .ok sma ∧ powerOf s (num (m + n : Int)) = .ok sma ∧
      powerOf st (num n) = .ok stn ∧ productOf [sn, tn] = .ok stn := by
  have hs := Factored.of_powerProduct hsc hsp hs₀
  have ht := Factored.of_powerProduct htc htp ht₀
  have ⟨sm, hsm, fsm⟩ := hs.powerOf m
  have ⟨sn, hsn, fsn⟩ := hs.powerOf n
  have ⟨tn, htn, ftn⟩ := ht.powerOf n
  have ⟨st, hst, fst⟩ := hs.productOf_pair ht
  have ⟨smn, hsmn, fsmn⟩ := fsm.powerOf n
  have ⟨smn', hsmn', fsmn'⟩ := hs.powerOf (m * n)
  have ⟨sma, hsma, fsma⟩ := fsm.productOf_pair fsn
  have ⟨sma', hsma', fsma'⟩ := hs.powerOf (m + n)
  have ⟨stn, hstn, fstn⟩ := fst.powerOf n
  have ⟨stn', hstn', fstn'⟩ := fsn.productOf_pair ftn
  rw [←zpow_mul, smul_smul, mul_comm n m] at fsmn
  rw [←zpow_add₀ hs.number_ne_zero, ←add_smul] at fsma
  rw [mul_zpow, smul_add] at fstn
  obtain rfl := fsmn.unique fsmn'
  obtain rfl := fsma.unique fsma'
  obtain rfl := fstn.unique fstn'
  exact ⟨sm, sn, tn, st, smn, sma, stn, hsm, hsn, htn, hst, hsmn, hsmn', hsma, hsma', hstn, hstn'⟩

end

-- The exponents add up to 1, and the numbers and the powers of the sum cancel.
theorem powerOf_laws_roots :
    let u := sum [sym "x", sym "y"]
    let s := prod [num 2, pow (sym "x") (num (-1 / 2)), u]
    let t := prod [num (1 / 2), fact (sym "n"), pow u (num (-1))]
    let sm := prod [num (1 / 4), sym "x", pow u (num (-2))]
    let sn := prod [num 8, pow (sym "x") (num (-3 / 2)), pow u (num 3)]
    let st := prod [fact (sym "n"), pow (sym "x") (num (-1 / 2))]
    let r := prod [pow (fact (sym "n")) (num 3), pow (sym "x") (num (-3 / 2))]
    (s.Every (Canonical 0) ∧ s.PowerProduct ∧ s ≠ num 0) ∧
      (t.Every (Canonical 0) ∧ t.PowerProduct ∧ t ≠ num 0) ∧
      powerOf s (num (-2 : Int)) = .ok sm ∧ powerOf s (num (3 : Int)) = .ok sn ∧
      productOf [s, t] = .ok st ∧
      powerOf sm (num (3 : Int)) = powerOf s (num (-2 * 3 : Int)) ∧
      productOf [sm, sn] = .ok s ∧ powerOf s (num (-2 + 3 : Int)) = .ok s ∧
      powerOf st (num (3 : Int)) = .ok r ∧
      ∃ tn, powerOf t (num (3 : Int)) = .ok tn ∧ productOf [sn, tn] = .ok r := by
  intro u s t sm sn st r
  have hsc : s.Every (Canonical 0) := by
    refine canonical_of_fixed_nodes (c := ⟨0⟩) ?_
    repeat' apply And.intro
    all_goals cbv
  have htc : t.Every (Canonical 0) := by
    refine canonical_of_fixed_nodes (c := ⟨0⟩) ?_
    repeat' apply And.intro
    all_goals cbv
  have hsp : s.PowerProduct := powerProduct_prod.mpr <| by
    simpa using ⟨.number, .power trivial, .base trivial⟩
  have htp : t.PowerProduct := powerProduct_prod.mpr <| by
    simpa using ⟨.number, .base trivial, .power trivial⟩
  have hs₀ : s ≠ num 0 := by simp [s]
  have ht₀ : t ≠ num 0 := by simp [t]
  have hsm : powerOf s (num (-2 : Int)) = .ok sm := by
    unfold sm
    cbv
  have hsn : powerOf s (num (3 : Int)) = .ok sn := by
    unfold sn
    cbv
  have hst : productOf [s, t] = .ok st := by
    unfold st
    cbv
  have ha : productOf [sm, sn] = .ok s := by
    unfold s
    cbv
  have hr : powerOf st (num (3 : Int)) = .ok r := by
    unfold r
    cbv
  obtain ⟨sm', sn', tn, st', smn, sma, stn, hsm', hsn', htn, hst', hm, hm', ha', ha'', hr', hr''⟩ :=
    powerOf_laws hsc hsp hs₀ htc htp ht₀ (-2) 3
  cases hsm.symm.trans hsm'
  cases hsn.symm.trans hsn'
  cases hst.symm.trans hst'
  cases ha.symm.trans ha'
  cases hr.symm.trans hr'
  exact ⟨⟨hsc, hsp, hs₀⟩, ⟨htc, htp, ht₀⟩, hsm, hsn, hst, hm.trans hm'.symm, ha, ha'', hr, tn, htn,
    hr''⟩

end Expr

end ExactAlgebra
