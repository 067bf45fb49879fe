import ExactAlgebra.Proofs.Expr.Hereditary
import ExactAlgebra.Proofs.Expr.Raise
import ExactAlgebra.Proofs.Operation.Collect
import ExactAlgebra.Proofs.Operation.Invariant

-- Collecting two operands makes the load of a merge smaller, and no operation makes it larger.

namespace ExactAlgebra

open ExactAlgebra.Expr ExactAlgebra.Operation

namespace Operation

variable {o : Operation} {collect : Expr → Expr → Except Fault Collected} {e : Expr}

@[simp]
theorem labelWeight_num {q} : o.labelWeight (num q) = 1 := by
  cases o <;> simp [labelWeight, label?, split?, base?]

theorem absorbs_iff : o.absorbs e ↔ o = product ∧ e = num 0 := by
  cases o <;> simp [absorbs, absorbing?]

theorem absorbs_eq_false (h : e ≠ num 0) : o.absorbs e = false :=
  Bool.eq_false_iff.mpr fun ha => h (absorbs_iff.mp ha).right

theorem isIdentity_eq_false : o.isIdentity e = false ↔ e ≠ num o.identity := by
  simp [isIdentity]

theorem load_operands_le_labelWeight : o.load (o.operands e) ≤ o.labelWeight e := by
  cases o <;> cases e <;> simp [operands]
  case sum.sum xs =>
    exact Nat.le_trans (load_le_weights ..) <| by simp [labelWeight, label?, split?, weight]
  case product.prod xs =>
    exact Nat.le_trans (load_le_weights ..) <| by simp [labelWeight, label?, base?, weight]

theorem load_operands_le_weight : o.load (o.operands e) ≤ e.weight :=
  Nat.le_trans load_operands_le_labelWeight labelWeight_le_weight

-- A sum weighs more than the symbolic parts of its terms.
theorem label?_ne_sum {x ts} (h : x ∈ ts) : sum.label? x ≠ some (.sum ts) := by
  intro hl
  have hle := label?_weight hl
  have := weight_le_weights h
  simp only [weight] at hle
  omega

theorem load_gather_le_of_ne_nil (o : Operation) {xs} (h : xs ≠ []) :
    o.load (o.operands (o.gather xs)) ≤ o.load xs := by
  match xs with
  | []           => exact absurd rfl h
  | [x]          => exact load_operands_le_labelWeight
  | x :: y :: xs => cases o <;> simp [gather, node, operands]

theorem load_gather_le (o : Operation) (xs) :
    o.load (o.operands (o.gather xs)) ≤ 1 + o.load xs := by
  by_cases h : xs = []
  case pos => cases o <;> simp [h, gather, operands]
  case neg => exact Nat.le_add_left_of_le (o.load_gather_le_of_ne_nil h)

def loads (o : Operation) : List Expr → Nat
  | []      => 0
  | x :: xs => o.load (o.operands x) + o.loads xs

theorem loads_eq_load {xs} (h : ∀ x ∈ xs, o.owns x = false) : o.loads xs = o.load xs := by
  induction xs with
  | nil => rfl
  | cons x xs hi =>
    have ⟨hx, hxs⟩ := List.forall_mem_cons.mp h
    simp [loads, operands_of_not_owns hx, hi hxs]

theorem loads_insert {x xs} : o.loads (Expr.insert x xs) = o.load (o.operands x) + o.loads xs := by
  induction xs with
  | nil => rfl
  | cons y ys hi =>
    simp only [Expr.insert]
    split
    case isTrue  => simp only [loads, hi, Nat.add_left_comm]
    case isFalse => rfl

theorem loads_sort {xs} : o.loads (sort xs) = o.loads xs := by
  induction xs with
  | nil => rfl
  | cons _ _ hi => simp only [sort, loads_insert, hi, loads]

theorem loads_filter_le (o : Operation) (p : Expr → Bool) (xs) :
    o.loads (xs.filter p) ≤ o.loads xs := by
  induction xs with
  | nil => simp
  | cons x xs hi =>
    simp only [List.filter_cons]
    split <;> simp only [loads] <;> omega

theorem load_operands_le_loads {x xs} (h : x ∈ xs) : o.load (o.operands x) ≤ o.loads xs := by
  induction h with
  | head        => exact Nat.le_add_right ..
  | tail _ _ hi => exact Nat.le_add_left_of_le hi

theorem Shrinks.load_le_of_mergesAll (hs : Shrinks o collect) {out xs r ys}
    (m : MergesAll o collect out xs r) (hr : r = .ok ys) : o.load ys ≤ o.load out + o.loads xs := by
  induction m generalizing ys <;> cases hr
  case nil       => exact Nat.le_add_right ..
  case cons m _ hi =>
    have := hs.load_le m rfl
    have := hi rfl
    simp only [load_nil, loads] at *
    omega

theorem Shrinks.load_le_of_combines (hs : Shrinks o collect) {xs e}
    (m : Combines o collect xs (.ok e)) : o.load (o.operands e) ≤ 1 + o.loads xs := by
  cases m
  case absorbing h _ => exact Nat.le_add_left_of_le <| load_operands_le_loads h
  case none          => cases o <;> simp [operands]
  case one h         =>
    have hx : e ∈ xs.filter (!o.isIdentity ·) := by simp [h]
    exact Nat.le_add_left_of_le <| load_operands_le_loads (List.mem_filter.mp hx).left
  case merged ys _ m =>
    have := hs.load_le_of_mergesAll m rfl
    have := o.load_gather_le ys
    have := o.loads_filter_le (!o.isIdentity ·) xs
    simp only [load_nil, loads_sort] at *
    omega
  case absorbed m    =>
    have he := absorbs_iff.mp m.absorbs
    simp [he, operands]

theorem labelWeight_prod_num_le {c xs} :
    sum.labelWeight (prod (num c :: xs)) ≤ 1 + weights xs := by
  match xs with
  | []          => simp [labelWeight, label?, split?, weight]
  | [x]         => simp [labelWeight, label?, split?]
  | x :: y :: xs => simp [labelWeight, label?, split?, weight]

theorem load_product_gather_le (xs) :
    sum.load (sum.operands (product.gather xs)) ≤ 1 + weights xs := by
  match xs with
  | []          => simp [gather, operands]
  | [x]         => exact Nat.le_add_left_of_le <| load_operands_le_weight (e := x)
  | x :: y :: xs => exact load_operands_le_weight

theorem load_scaleFactors_le {c xs} :
    sum.load (sum.operands (scaleFactors c xs)) ≤ 1 + weights xs := by
  fun_induction scaleFactors c xs
  case case1 => simp [operands]
  case case2 xs _ =>
    have := load_product_gather_le xs
    simp only [weights_cons]
    omega
  case case3 => simp [operands]
  case case4 hi =>
    simp only [weights_cons]
    omega
  case case5 => simpa [operands] using labelWeight_prod_num_le

-- Scaling folds the numbers in front of other factors, and so loses the second one.
theorem load_scaleFactors_numbers_le {c p q x xs} :
    sum.load (sum.operands (scaleFactors c (num p :: num q :: x :: xs))) ≤
      1 + weights (x :: xs) := by
  rw [scaleFactors]
  split
  case isTrue => exact @labelWeight_prod_num_le _ (x :: xs)
  split
  case isTrue => simp [operands]
  rw [scaleFactors]
  split
  case isTrue => exact load_product_gather_le _
  split
  case isTrue  => simp [operands]
  case isFalse => exact load_scaleFactors_le

theorem load_scale_le {c} : sum.load (sum.operands (scale c e)) ≤ e.weight := by
  fun_cases scale c e
  case case1 => simp [operands, weight]
  case case2 => simpa [operands] using Nat.succ_le_of_lt e.weight_pos
  case case3 => exact load_operands_le_weight
  case case4 => exact load_scaleFactors_le
  case case5 h => simp [operands, labelWeight, label?, split?]

theorem load_operands_num_lt {q a b} :
    o.load (o.operands (num q)) < o.labelWeight a + o.labelWeight b := by
  have := o.labelWeight_pos (e := a)
  have := o.labelWeight_pos (e := b)
  cases o <;> simp [operands] <;> omega

theorem sum_shrinks : sum.Shrinks collectTerms := by
  intro a b c h
  obtain ⟨p, q, -, -, rfl, -⟩ | h := collectPair_eq_one h
  case inl => exact load_operands_num_lt
  case inr =>
    have ⟨p, q, t, ha, hb, _, hc⟩ := collectTerms_eq_one h
    have := t.weight_pos
    have := load_scale_le (e := t) (c := p + q)
    simp only [labelWeight, label?, ha, hb, hc, Option.elim]
    omega

variable {raise' : Expr → Int → Except Fault Expr}

-- Powers keep to the base that they raise, however their exponents grow.
def Bounded (raise' : Expr → Int → Except Fault Expr) : Prop :=
  ∀ ⦃b n e⦄, raise' b n = .ok e → product.load (product.operands e) ≤ b.weight

theorem Bounded.powerWith (hr : Bounded raise') {b f e} (h : powerWith raise' b f = .ok e) :
    product.load (product.operands e) ≤ b.weight := by
  have m := powerWith_powers raise' b f
  have := b.weight_pos
  generalize Expr.powerWith raise' b f = r at h m
  cases m <;> try cases h
  case whole => exact hr h
  all_goals
    simp [operands, labelWeight, label?, base?]
    try omega

theorem Bounded.shrinks (hr : Bounded raise') : product.Shrinks (collectPowersWith raise') := by
  intro a b c h
  obtain ⟨p, q, -, -, rfl, -⟩ | h := collectPair_eq_one h
  case inl => exact load_operands_num_lt
  case inr =>
    have ⟨s, _, _, _, ha, hb, _, _, _, h, _⟩ := collectPowersWith_eq_one h
    have := s.weight_pos
    have := hr.powerWith h
    simp only [labelWeight, label?, ha, hb, Option.elim]
    omega

theorem Bounded.loads_le (hr : Bounded raise') {n xs ys} (m : Maps (raise' · n) xs (.ok ys)) :
    product.loads ys ≤ weights xs := by
  generalize h : Except.ok ys = r at m
  induction m generalizing ys <;> cases h
  case nil          => simp [loads]
  case cons h _ hi  => exact Nat.add_le_add (hr h) (hi rfl)

theorem raise_bounded {d} : Bounded (raise d) := by
  induction d with
  | zero => intro _ _ _ h; cases h
  | succ d hd =>
    intro b n e h
    have m := raise_raises d b n
    have := b.weight_pos
    generalize raise (d + 1) b n = r at h m
    cases m
    case zero  => cases h; simpa [operands]
    case one   => cases h; exact load_operands_le_weight
    case fault => cases h
    case num q _ _ _ =>
      cases hp : Coefficient.power q n <;> rw [hp] at h <;> cases h
      simpa [operands]
    case whole s e k _ _ hb _ =>
      have := hd.powerWith h
      simp only [hb, weight]
      omega
    case pow s e _ _ hb _ =>
      cases h
      simp [hb, operands, labelWeight, label?, base?, weight]
      omega
    case prod xs ys _ _ hb m =>
      have := hd.loads_le m
      have := hd.shrinks.load_le_of_combines <| h ▸ hd.shrinks.combineWith_combines
      simp only [hb, weight]
      omega
    case atom  => cases h; simp [operands, labelWeight, label?, base?]

theorem product_shrinks {d} : product.Shrinks (collectPowersWith (raise d)) :=
  raise_bounded.shrinks

end Operation

end ExactAlgebra
