import ExactAlgebra.Proofs.Operation.Load

-- Scaling is the product with a number, on whichever side the number stands.

namespace ExactAlgebra

open ExactAlgebra.Expr ExactAlgebra.Operation

namespace Operation

variable {o : Operation} {collect : Expr → Expr → Except Fault Collected}
variable {raise' : Expr → Int → Except Fault Expr} {c : Rat} {e : Expr} {xs : List Expr}

theorem mergeLoop_left_done {n out right} :
    o.mergeLoop collect (n + 1) out [] right = .ok (out.reverse ++ right) := by
  rw [mergeLoop]

theorem mergeLoop_right_done {n out left} :
    o.mergeLoop collect (n + 1) out left [] = .ok (out.reverse ++ left) := by
  cases left <;> simp [mergeLoop]

theorem merge_nil_left {right} : o.merge collect [] right = .ok right := by
  rw [merge, mergeBudget, Nat.succ_mul]
  exact mergeLoop_left_done

-- A merge with one number ends in a list that gathers to the scaled factors, or in 0.
def Scaled (e : Expr) (r : Except Halt (List Expr)) : Prop :=
  (∃ ys, r = .ok ys ∧ e = product.gather ys) ∨ (r = .error (.absorbed e))

theorem mergeLoop_scaled {n} (hn : xs.length < n) :
    Scaled (scaleFactors c xs) (product.mergeLoop (collectPowersWith raise') n [] [num c] xs) := by
  fun_induction scaleFactors c xs generalizing n
  all_goals obtain ⟨n, rfl⟩ := Nat.exists_eq_succ_of_ne_zero (Nat.ne_of_gt (Nat.zero_lt_of_lt hn))
  case case1 => exact .inl ⟨[num _], mergeLoop_right_done, rfl⟩
  case case2 c q xs hc =>
    obtain ⟨n, rfl⟩ := Nat.exists_eq_succ_of_ne_zero (n := n) (by rintro rfl; simp at hn)
    refine .inl ⟨xs, ?_, rfl⟩
    simp [mergeLoop_cons, collectPair, fold, identity, hc, mergeLoop_left_done]
  case case3 c q xs _ hc =>
    apply Or.inr
    simp [mergeLoop_cons, collectPair, fold, identity, hc, absorbs, absorbing?]
  case case4 c q xs h₁ h₀ hi =>
    have := @hi n (by simpa using hn)
    simp [mergeLoop_cons, collectPair, fold, identity, h₀, h₁, absorbs, absorbing?, fits, owns,
      this]
  case case5 c xs hne hnum =>
    cases xs
    case nil => exact absurd rfl hne
    case cons y ys =>
      obtain ⟨n, rfl⟩ := Nat.exists_eq_succ_of_ne_zero (n := n) (by rintro rfl; simp at hn)
      have hy : 0 < y.level := Nat.pos_of_ne_zero fun h => by
        cases y <;> cases h
        exact hnum _ _ rfl
      have ha : product.collectPair (collectPowersWith raise') (num c) y = .ok .apart := by
        apply product_apart_iff.mpr
        cases y <;> simp [label?, base?, level] at hy ⊢
      have hc : compare y (num c) ≠ .lt := by simp [compare_num_right hy]
      refine .inl ⟨num c :: y :: ys, ?_, rfl⟩
      simp [mergeLoop_cons, ha, hc, mergeLoop_left_done]

theorem find?_absorbs (h : num 0 ∉ xs) : xs.find? product.absorbs = none := by
  simp only [List.find?_eq_none, absorbs_iff]
  rintro x hx ⟨-, rfl⟩
  exact h hx

theorem combineWith_absorbed (h : num 0 ∈ xs) : product.combineWith collect xs = .ok (num 0) := by
  unfold combineWith
  split
  case h_1 e h => simpa [absorbs_iff] using List.find?_some h
  case h_2 hn  => simpa [absorbs_iff] using List.find?_eq_none.mp hn _ h

theorem combineWith_identity (h₀ : num 0 ∉ xs) (hx : xs = [num 1, e] ∨ xs = [e, num 1]) :
    product.combineWith collect xs = .ok e := by
  simp only [combineWith, find?_absorbs h₀]
  by_cases he : e = num 1 <;> obtain rfl | rfl := hx <;> simp [isIdentity, identity, he]

-- Operands that sort behind a number are scaled by it.
theorem combineWith_scaled (h₀ : num 0 ∉ xs)
    (hs : sort (xs.filter (!product.isIdentity ·)) = [num c, e]) :
    product.combineWith (collectPowersWith raise') xs =
      .ok (scaleFactors c (product.operands e)) := by
  simp only [combineWith, find?_absorbs h₀]
  split
  case h_1 h => simp [h, sort] at hs
  case h_2 h => simp [h, sort, Expr.insert] at hs
  case h_3   =>
    have hm : Scaled (scaleFactors c (product.operands e))
        (product.merge (collectPowersWith raise') [num c] (product.operands e)) := by
      have hn := @budget_lt_mergeBudget product [num c] (product.operands e)
      apply mergeLoop_scaled
      simp only [budget, List.length_singleton] at hn
      omega
    have hn : product.operands (num c) = [num c] := rfl
    simp only [hs, List.foldlM_cons, List.foldlM_nil, hn, merge_nil_left]
    obtain ⟨ys, hm, he⟩ | hm := hm <;> simp [hm, bind, Except.bind, pure, Except.pure]
    exact he.symm

end Operation

namespace Expr

theorem scaleFactors_num {q} : scaleFactors c [num q] = num (c * q) := by
  simp only [scaleFactors]
  split
  case isTrue h => simp [h, gather, identity]
  case isFalse  =>
    split
    case isTrue h => rw [h]
    case isFalse  => rfl

theorem scaleFactors_numbers {q r} : ∃ s, scaleFactors c [num q, num r] = num s := by
  rw [scaleFactors]
  split
  case isTrue => exact ⟨r, rfl⟩
  split
  case isTrue  => exact ⟨0, rfl⟩
  case isFalse => exact ⟨_, scaleFactors_num⟩

theorem scaleFactors_operands (h₀ : c ≠ 0) (h₁ : c ≠ 1) :
    scaleFactors c (product.operands e) = scale c e := by
  cases e
  case num  => exact scaleFactors_num
  case prod => simp [scale, h₀, h₁, operands]
  all_goals simp [scale, h₀, h₁, operands, scaleFactors]

theorem sort_num {q} :
    sort [num c, num q] = [num c, num q] ∨ sort [num c, num q] = [num q, num c] := by
  simp only [sort, Expr.insert]
  split <;> simp

theorem sort_num_left (he : 0 < e.level) : sort [num c, e] = [num c, e] := by
  simp [sort, Expr.insert, compare_num_left he]

theorem sort_num_right (he : 0 < e.level) : sort [e, num c] = [num c, e] := by
  simp [sort, Expr.insert, compare_num_right he]

-- Either the number comes first, or the other expression is a number too.
theorem sort_pair (hx : xs = [num c, e] ∨ xs = [e, num c]) :
    sort xs = [num c, e] ∨ ∃ q, e = num q ∧ sort xs = [e, num c] := by
  by_cases he : 0 < e.level
  case pos =>
    left
    obtain rfl | rfl := hx
    case inl => exact sort_num_left he
    case inr => exact sort_num_right he
  case neg =>
    cases e <;> simp [level] at he
    case num q =>
      have hs : sort xs = [num c, num q] ∨ sort xs = [num q, num c] := by
        obtain rfl | rfl := hx
        case inl => exact sort_num
        case inr => exact sort_num.symm
      exact hs.imp_right (⟨q, rfl, ·⟩)

theorem combineWith_pair (hx : xs = [num c, e] ∨ xs = [e, num c]) (h₀ : num 0 ∉ xs)
    (h₁ : num 1 ∉ xs) :
    product.combineWith (collectPowersWith raise') xs =
      .ok (scaleFactors c (product.operands e)) := by
  have hf : xs.filter (!product.isIdentity ·) = xs := by
    apply List.filter_eq_self.mpr
    intro x hx
    have : x ≠ num product.identity := fun h => h₁ (h ▸ hx)
    simpa [isIdentity]
  obtain hs | ⟨q, rfl, hs⟩ := sort_pair hx
  case inl => exact combineWith_scaled h₀ (hf.symm ▸ hs)
  case inr =>
    rw [combineWith_scaled h₀ (hf.symm ▸ hs)]
    simp only [operands, scaleFactors_num, Rat.mul_comm]

theorem scale_eq_zero (h : num 0 = num c ∨ num 0 = e) : scale c e = num 0 := by
  obtain h | rfl := h
  case inl =>
    cases h
    cases e <;> simp [scale]
  case inr => simp [scale]

theorem scale_one : scale 1 e = e := by
  cases e <;> simp [scale]

-- Sums and powers scale where a product with a number is meant.
theorem productOf_pair (hx : xs = [num c, e] ∨ xs = [e, num c]) :
    productOf xs = .ok (scale c e) := by
  have hmem (x) : x ∈ xs ↔ x = num c ∨ x = e := by
    obtain rfl | rfl := hx <;> simp [or_comm]
  rw [productOf]
  by_cases h₀ : num 0 ∈ xs
  case pos => rw [combineWith_absorbed h₀, scale_eq_zero ((hmem _).mp h₀)]
  by_cases h₁ : num 1 ∈ xs
  case pos =>
    obtain h | rfl := (hmem _).mp h₁
    case inl =>
      cases h
      rw [combineWith_identity h₀ hx, scale_one]
    case inr =>
      rw [combineWith_identity h₀ hx.symm]
      simp [scale]
  case neg =>
    have hc₀ : c ≠ 0 := fun h => h₀ <| (hmem _).mpr <| .inl <| h ▸ rfl
    have hc₁ : c ≠ 1 := fun h => h₁ <| (hmem _).mpr <| .inl <| h ▸ rfl
    rw [combineWith_pair hx h₀ h₁, scaleFactors_operands hc₀ hc₁]

end Expr

end ExactAlgebra
