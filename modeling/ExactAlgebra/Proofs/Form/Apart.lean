import ExactAlgebra.Proofs.Form.Closure

-- Operands with different labels stand in the order of their labels. So a label finds its place in
-- a list no matter which coefficient or exponent it comes with.

namespace ExactAlgebra

open ExactAlgebra.Expr ExactAlgebra.Operation

namespace Expr

-- Numbers behind other things do not matter, unless the other things are the same.
theorem compareLists_append {xs ys ms ns : List Expr}
    (hx : ∀ x ∈ xs, 0 < x.level) (hy : ∀ y ∈ ys, 0 < y.level)
    (hm : ∀ x ∈ ms, x.level = 0) (hn : ∀ x ∈ ns, x.level = 0) (h : compareLists xs ys ≠ .eq) :
    compareLists (xs ++ ms) (ys ++ ns) = compareLists xs ys := by
  have hnum {x : Expr} (h : x.level = 0) : ∃ q, x = num q := by cases x <;> simp_all [level]
  induction xs generalizing ys <;> cases ys
  case nil.nil => simp [compareLists] at h
  case nil.cons y ys =>
    cases ms with
    | nil => simp [compareLists]
    | cons m ms =>
      obtain ⟨q, rfl⟩ := hnum (hm m (by simp))
      simp [compareLists, compare_num_left (hy y (by simp))]
  case cons.nil x xs _ =>
    cases ns with
    | nil => simp [compareLists]
    | cons n ns =>
      obtain ⟨q, rfl⟩ := hnum (hn n (by simp))
      simp [compareLists, compare_num_right (hx x (by simp))]
  case cons.cons x xs hi y ys =>
    have hx := (List.forall_mem_cons.mp hx).right
    have hy := (List.forall_mem_cons.mp hy).right
    simp only [List.cons_append, compareLists] at h ⊢
    cases hc : compare x y <;> simp only [hc, Ordering.then] at h ⊢
    exact hi hx hy h

-- A term is its symbolic part, which has no numbers among its factors, behind at most a number.
structure Splits (e t : Expr) : Prop where
  factors : ∀ x ∈ Operation.product.operands t, 0 < x.level
  numbers : ∃ ns, Operation.product.operands e = ns ++ Operation.product.operands t ∧
    ∀ x ∈ ns, x.level = 0

theorem Splits.level_pos {e t : Expr} (h : Splits e t) : 0 < t.level := by
  cases t
  case num => exact absurd (h.factors _ (List.mem_singleton.mpr rfl)) (Nat.lt_irrefl 0)
  all_goals simp [level]

theorem Splits.compare {a b s t : Expr} (ha : Splits a s) (hb : Splits b t) (hla : 0 < a.level)
    (hlb : 0 < b.level) (h : compare s t ≠ .eq) : compare a b = compare s t := by
  have ⟨ms, hoa, hm⟩ := ha.numbers
  have ⟨ns, hob, hn⟩ := hb.numbers
  rw [compare_factors ha.level_pos hb.level_pos] at h ⊢
  rw [compare_factors hla hlb, hoa, hob, List.reverse_append, List.reverse_append]
  apply compareLists_append
  · simpa using ha.factors
  · simpa using hb.factors
  · simpa using hm
  · simpa using hn
  · exact h

-- The order of labels, where numbers have none and come first.
def compareLabels : Option Expr → Option Expr → Ordering
  | none, none     => .eq
  | none, some _   => .lt
  | some _, none   => .gt
  | some s, some t => Expr.compare s t

theorem compareLabels_self {l} : compareLabels l l = .eq := by
  cases l <;> simp [compareLabels]

theorem compareLabels_trans {k l m : Option Expr} (hk : ∀ s ∈ k, s.Every Proper)
    (hl : ∀ s ∈ l, s.Every Proper) (hm : ∀ s ∈ m, s.Every Proper)
    (h₁ : compareLabels k l = .lt) (h₂ : compareLabels l m = .lt) : compareLabels k m = .lt := by
  cases k <;> cases l <;> cases m <;> simp only [compareLabels, reduceCtorEq] at h₁ h₂ ⊢
  exact compare_trans (hk _ rfl) (hl _ rfl) (hm _ rfl) h₁ h₂

theorem level_pos_of_split? {e s : Expr} {c} (h : e.split? = .ok (some (c, s))) : 0 < e.level := by
  cases e
  case num => cases h
  all_goals simp [level]

theorem level_pos_of_label? {o : Operation} {e s : Expr} (h : o.label? e = some s) :
    0 < e.level := by
  cases e
  case num => cases h.symm.trans label?_num
  all_goals simp [level]

end Expr

-- Operands in order that do not collect.
def Operation.Apart (o : Operation) (a b : Expr) : Prop :=
  Precedes a b ∧ o.label? a ≠ o.label? b

namespace Form

variable {p : Expr → Prop} {R : Operation → Expr → Expr → Prop}
variable {o : Operation} {a b e t : Expr} {c : Rat}

-- A term splits if at most one of its factors is a number.
theorem splits_of_one_number (hf : Form p R) (h : e.Every p) (hs : e.split? = .ok (some (c, t)))
    (hn : ∀ q r xs, e ≠ prod (num q :: num r :: xs)) : Splits e t := by
  obtain rfl | ⟨xs, hl, rfl, rfl⟩ | ⟨-, rfl, hq⟩ := split?_eq_some hs
  case inl =>
    have ht := operands_of_not_owns ((hf.factors.mp h).right.mem t (by simp)).not_owns
    have hlt : 0 < t.level := by
      cases t
      case num q => exact absurd rfl (hn c q [])
      all_goals simp [level]
    exact ⟨by simpa [ht], [num c], by rw [ht]; rfl, by simp [level]⟩
  case inr.inl =>
    have hx := hf.level_pos (hf.factors.mp h).right.tail fun q ys he => hn c q ys (by rw [he])
    exact ⟨hx, [num c], rfl, by simp [level]⟩
  case inr.inr =>
    refine ⟨?_, [], rfl, by simp⟩
    have hle := level_pos_of_split? hs
    cases t
    case prod xs =>
      exact hf.level_pos (hf.factors.mp h).right fun q ys hx => hq q ys (congrArg prod hx)
    all_goals simpa [Operation.operands] using hle

theorem splits (hf : Form p Apart) (h : e.Every p) (hs : e.split? = .ok (some (c, t))) :
    Splits e t := by
  apply hf.splits_of_one_number h hs
  rintro q r xs rfl
  have ⟨hlt, _⟩ := List.pairwise_cons.mp (hf.factors.mp h).right.sorted
  exact (hlt (num r) (by simp)).right rfl

theorem label_every (hf : Form p Apart) (h : e.Every p) : ∀ s ∈ o.label? e, s.Every p := by
  intro s hs
  cases o
  case product => exact h.base hs
  case sum     =>
    cases he : e.split?
    case error f => exact absurd he (hf.split?_ne_error h f)
    case ok r    =>
      match r with
      | none        => simp [sum_label? he] at hs
      | some (c, t) =>
        simp only [sum_label? he, Option.map_some, Option.mem_some] at hs
        exact hs ▸ (hf.symbolic h he).left

theorem label_none (hf : Form p Apart) (h : e.Every p) (hl : o.label? e = none) :
    ∃ q, e = num q := by
  have hc : e.isConstant := by
    cases o
    case sum     => exact sum_label?_eq_none (hf.split?_ne_error h) hl
    case product => exact base?_eq_none hl
  cases e <;> cases hc
  exact ⟨_, rfl⟩

theorem compare_symbolic (hf : Form p Apart) (ha : a.Every p) (hb : b.Every p) {s t}
    (hs : Operation.sum.label? a = some s) (ht : Operation.sum.label? b = some t)
    (h : compare s t ≠ .eq) : compare a b = compare s t := by
  have hsplit {e t : Expr} (he : e.Every p) (ht : Operation.sum.label? e = some t) :
      ∃ c, e.split? = .ok (some (c, t)) := by
    cases hs : e.split?
    case error f => exact absurd hs (hf.split?_ne_error he f)
    case ok r    =>
      match r with
      | none        => simp [sum_label? hs] at ht
      | some (c, t) => exact ⟨c, by simp_all [sum_label? hs]⟩
  have ⟨_, hsa⟩ := hsplit ha hs
  have ⟨_, hsb⟩ := hsplit hb ht
  exact (hf.splits ha hsa).compare (hf.splits hb hsb) (level_pos_of_split? hsa)
    (level_pos_of_split? hsb) h

theorem compare_bases {s t} (ha : Belongs .product a) (hb : Belongs .product b)
    (hs : a.base? = some s) (ht : b.base? = some t) (h : compare s t ≠ .eq) :
    compare a b = compare s t := by
  have hlevel {e s : Expr} (he : Belongs .product e) (hs : e.base? = some s) : 1 < e.level := by
    have := he.not_owns
    cases e <;> cases hs <;> simp_all [level, owns]
  obtain ⟨_, he⟩ := exists_exponent hs
  obtain ⟨_, hf⟩ := exists_exponent ht
  rw [compare_powers (hlevel ha hs) (hlevel hb ht) hs he ht hf]
  cases hc : compare s t <;> simp_all

theorem compare_labels (hf : Form p Apart) (hp : ∀ e, p e → e.Proper) (ha : Member p o a)
    (hb : Member p o b) (h : o.label? a ≠ o.label? b) :
    compare a b = compareLabels (o.label? a) (o.label? b) := by
  have hproper {e s} (he : Member p o e) (hs : o.label? e = some s) : s.Every Proper :=
    (hf.label_every he.every s hs).mono hp
  cases hs : o.label? a <;> cases ht : o.label? b
  case none.none => exact absurd (hs.trans ht.symm) h
  case none.some =>
    obtain ⟨q, rfl⟩ := hf.label_none ha.every hs
    exact compare_num_left (level_pos_of_label? ht)
  case some.none =>
    obtain ⟨q, rfl⟩ := hf.label_none hb.every ht
    exact compare_num_right (level_pos_of_label? hs)
  case some.some s t =>
    have hst : compare s t ≠ .eq := by
      rw [Ne, compare_eq_iff (hproper ha hs) (hproper hb ht)]
      rintro rfl
      exact h (hs.trans ht.symm)
    cases o
    case sum     => exact hf.compare_symbolic ha.every hb.every hs ht hst
    case product => exact compare_bases ha.toBelongs hb.toBelongs hs ht hst

theorem apart_iff (hf : Form p Apart) (hp : ∀ e, p e → e.Proper) (ha : Member p o a)
    (hb : Member p o b) : o.Apart a b ↔
      o.label? a ≠ o.label? b ∧ compareLabels (o.label? a) (o.label? b) = .lt where
  mp h  := ⟨h.right, (hf.compare_labels hp ha hb h.right).symm.trans h.left⟩
  mpr h := ⟨(hf.compare_labels hp ha hb h.left).trans h.right, h.left⟩

-- Whether operands stay apart only depends on their labels.
theorem pairwise_apart_of_labels (hf : Form p Apart) (hp : ∀ e, p e → e.Proper) {xs ys : List Expr}
    (hx : ∀ x ∈ xs, Member p o x) (hy : ∀ y ∈ ys, Member p o y)
    (hl : ys.map o.label? = xs.map o.label?) (h : xs.Pairwise o.Apart) : ys.Pairwise o.Apart := by
  have hiff {zs : List Expr} (hz : ∀ z ∈ zs, Member p o z) : zs.Pairwise o.Apart ↔
      (zs.map o.label?).Pairwise fun k l => k ≠ l ∧ compareLabels k l = .lt := by
    rw [List.pairwise_map]
    exact List.Pairwise.iff_of_mem fun ha hb => hf.apart_iff hp (hz _ ha) (hz _ hb)
  rwa [hiff hy, hl, ←hiff hx]

theorem apart_trans (hf : Form p Apart) (hp : ∀ e, p e → e.Proper) (ha : Member p o a)
    (hb : Member p o b) (hc : Member p o e) (hab : o.Apart a b) (hbc : o.Apart b e) :
    o.Apart a e := by
  have hproper {e} (he : Member p o e) : ∀ s ∈ o.label? e, s.Every Proper :=
    fun s hs => (hf.label_every he.every s hs).mono hp
  have ⟨_, h₁⟩ := (hf.apart_iff hp ha hb).mp hab
  have ⟨_, h₂⟩ := (hf.apart_iff hp hb hc).mp hbc
  have h₃ := compareLabels_trans (hproper ha) (hproper hb) (hproper hc) h₁ h₂
  have hlt :=
    compare_trans (ha.every.mono hp) (hb.every.mono hp) (hc.every.mono hp) hab.left hbc.left
  refine ⟨hlt, fun hl => ?_⟩
  rw [hl, compareLabels_self] at h₃
  cases h₃

-- Collecting leaves the label alone, so that what is collected takes the place of its parts.
theorem apart_keeps (hf : Form p Apart) (hp : ∀ e, p e → e.Proper)
    {collect : Expr → Expr → Except Fault Collected} {K : Expr → Prop}
    (hK : ∀ {a}, K a → Member p o a)
    (hn : ∀ {a b}, K a → K b → o.collectPair collect a b = .ok .apart → o.label? a ≠ o.label? b)
    (hc : ∀ {a b c}, K a → K b → o.collectPair collect a b = .ok (.one c) →
      o.absorbs c = false → Listed K o.Apart (o.operands c))
    (hl : ∀ {a b c}, K a → K b → o.collectPair collect a b = .ok (.one c) →
      o.owns c = false → o.label? c = o.label? a) :
    Keeps o collect K o.Apart fun _ => True where
  trans ha hb hc    := hf.apart_trans hp (hK ha) (hK hb) (hK hc)
  collected         := hc
  fault _ _ _       := trivial
  right ha hb h hlt := ⟨hlt, (hn ha hb h).symm⟩
  left {a b} ha hb h hlt := by
    have hne := hn ha hb h
    refine ⟨compare_lt_of_not_lt ((hK ha).every.mono hp) ((hK hb).every.mono hp) ?_ hlt, hne⟩
    rintro rfl
    exact hne rfl
  after ha hb _ h ho hxa hlt  := ⟨hlt, hl ha hb h ho ▸ hxa.right⟩
  before ha hb _ h ho hax hlt := ⟨hlt, hl ha hb h ho ▸ hax.right⟩

theorem two_factors (hf : Form p R) {xs} (h : (prod xs).Every p) (hs : Splits e (prod xs)) :
    ∃ x y ys, xs = x :: y :: ys ∧ ∀ q, x ≠ num q := by
  match xs, (hf.factors.mp h).left with
  | x :: y :: ys, _ =>
    refine ⟨x, y, ys, rfl, ?_⟩
    rintro q rfl
    exact absurd (hs.factors (num q) (by simp [Operation.operands])) (Nat.lt_irrefl 0)

theorem split?_symbolic (hf : Form p R) (h : t.Every p) (hs : Splits e t) :
    t.split? = .ok (some (1, t)) := by
  have hlevel := hs.level_pos
  cases t <;> try rfl
  case num     => exact absurd hlevel (Nat.lt_irrefl 0)
  case prod xs =>
    obtain ⟨x, y, ys, rfl, hx⟩ := hf.two_factors h hs
    cases x <;> first | exact absurd rfl (hx _) | rfl

theorem split?_scale (hf : Form p R) (h : t.Every p) (hs : Splits e t) (hc : c ≠ 0) :
    (Expr.scale c t).split? = .ok (some (c, t)) := by
  have hlevel := hs.level_pos
  fun_cases Expr.scale c t
  case case1          => exact absurd hlevel (Nat.lt_irrefl 0)
  case case2 h₀ _     => exact absurd h₀ hc
  case case3 h₁ _     => exact h₁ ▸ hf.split?_symbolic h hs
  case case5          => rfl
  case case4 xs _ _ _ =>
    obtain ⟨x, y, ys, rfl, hx⟩ := hf.two_factors h hs
    cases x <;> first | exact absurd rfl (hx _) | rfl

theorem label_scale (hf : Form p R) (h : t.Every p) (hs : Splits e t) (hc : c ≠ 0) :
    Operation.sum.label? (Expr.scale c t) = some t :=
  sum_label? (hf.split?_scale h hs hc)

theorem apart_keeps_sum (hf : Form p Apart) (hp : ∀ e, p e → e.Proper) :
    Keeps .sum collectTerms (Member p .sum) Operation.sum.Apart fun _ => True := by
  refine hf.apart_keeps hp id ?_ (fun ha _ h _ => hf.sum_collected ha h) ?_
  · intro a b ha hb h
    exact (sum_apart_iff (hf.split?_ne_error ha.every) (hf.split?_ne_error hb.every)).mp h
  · intro a b c ha _ h _
    obtain ⟨_, _, rfl, -, rfl, -⟩ | h := collectPair_eq_one h
    case inl => rfl
    case inr =>
      have ⟨_, _, t, hs, _, hpq, hc⟩ := collectTerms_eq_one h
      rw [hc, sum_label? hs]
      exact hf.label_scale (hf.symbolic ha.every hs).left (hf.splits ha.every hs) hpq

end Form

end ExactAlgebra
