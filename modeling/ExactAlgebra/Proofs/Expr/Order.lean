import ExactAlgebra.Expr.Order
import ExactAlgebra.Expr.Split
import ExactAlgebra.Proofs.Expr.Every

-- The canonical order is antisymmetric on all trees. On proper trees, where no node can be confused
-- with its one operand or its base, it is a strict total order.

namespace ExactAlgebra.Expr

section Leaves

variable {α} [LE α] [LT α] [DecidableLT α] [DecidableEq α]
variable [Std.IsLinearOrder α] [Std.LawfulOrderLT α] {x y : α}

theorem compareLeaves_swap : compareLeaves y x = (compareLeaves x y).swap := by
  grind [compareLeaves, Ordering.swap_lt, Ordering.swap_eq, Ordering.swap_gt]

theorem compareLeaves_eq_iff : compareLeaves x y = .eq ↔ x = y := by
  grind [compareLeaves]

end Leaves

attribute [local simp] compare compareLists

theorem compare_swap_both :
    (∀ a b, compare b a = (compare a b).swap) ∧
    (∀ xs ys, compareLists ys xs = (compareLists xs ys).swap) := by
  apply compare.mutual_induct <;> intros
  case case1 | case24 =>
    rw [compare, compare]
    exact compareLeaves_swap
  case case19 h | case21 h | case23 h =>
    simp only [compare, h, Ne.symm h, if_false]
    exact compareLeaves_swap
  all_goals simp_all [Ordering.swap_then]

theorem compare_swap (a b : Expr) : compare b a = (compare a b).swap :=
  compare_swap_both.left a b

@[simp]
theorem compare_self (a : Expr) : compare a a = .eq := by
  have h := compare_swap a a
  cases hc : compare a a <;> simp [hc] at h
  rfl

theorem compare_eq_gt_iff {a b : Expr} : compare a b = .gt ↔ compare b a = .lt := by
  rw [compare_swap a b]
  cases compare a b <;> simp

-- A node that means something else than its one operand or its base.
def Proper : Expr → Prop
  | sum [_] | prod [_] => False
  | pow _ e            => e ≠ num 1
  | _                  => True

theorem proper_node_ne_singleton {o : Operation} {xs y} (h : Proper (o.node xs)) : xs ≠ [y] := by
  rintro rfl
  cases o <;> exact h

theorem eq_of_compare_both :
    (∀ a b, a.Every Proper → b.Every Proper → compare a b = .eq → a = b) ∧
    (∀ xs ys, (∀ x ∈ xs, x.Every Proper) → (∀ y ∈ ys, y.Every Proper) →
      compareLists xs ys = .eq → xs = ys) := by
  apply compare.mutual_induct <;> intros
  -- Only an improper node compares as equal to its one operand.
  case case5 xs y hn hp hi ha hb h =>
    have hl := hi (by simp_all) (by simp_all) (by rwa [compare] at h <;> assumption)
    exact absurd (List.reverse_eq_iff.mp hl) (proper_node_ne_singleton (o := .product) ha.here)
  case case6 x ys hn hp hi ha hb h =>
    have hl := hi (by simp_all) (by simp_all) (by rwa [compare] at h <;> assumption)
    exact absurd (List.reverse_eq_iff.mp hl.symm) (proper_node_ne_singleton (o := .product) hb.here)
  case case11 xs y hn hp hw hs hi ha hb h =>
    have hl := hi (by simp_all) (by simp_all) (by rwa [compare] at h <;> assumption)
    exact absurd (List.reverse_eq_iff.mp hl) (proper_node_ne_singleton (o := .sum) ha.here)
  case case12 x ys hn hp hw hs hi ha hb h =>
    have hl := hi (by simp_all) (by simp_all) (by rwa [compare] at h <;> assumption)
    exact absurd (List.reverse_eq_iff.mp hl.symm) (proper_node_ne_singleton (o := .sum) hb.here)
  all_goals simp_all [compareLeaves_eq_iff, Proper, Ordering.then_eq_eq]

theorem compare_eq_iff {a b : Expr} (ha : a.Every Proper) (hb : b.Every Proper) :
    compare a b = .eq ↔ a = b :=
  ⟨eq_of_compare_both.left a b ha hb, fun h => h ▸ compare_self a⟩

section Views

-- The shapes in the order in which `compare` looks for them.
def level : Expr → Nat
  | num _          => 0
  | prod _         => 1
  | pow _ _        => 2
  | sum _          => 3
  | fact _         => 4
  | sym _ | app .. => 5

def factRank : Expr → Nat
  | fact _ => 1
  | _      => 0

def callRank : Expr → Nat
  | app .. => 1
  | _      => 0

def unfact : Expr → Expr
  | fact e => e
  | e      => e

def name : Expr → String
  | sym s | app s _ => s
  | _               => ""

def args : Expr → List Expr
  | app _ xs => xs
  | _        => []

variable {a b : Expr}

theorem compare_num_left {q} (hb : 0 < b.level) : compare (num q) b = .lt := by
  cases b <;> simp_all [level]

theorem compare_num_right {q} (ha : 0 < a.level) : compare a (num q) = .gt := by
  rw [compare_eq_gt_iff, compare_num_left ha]

theorem compare_factors (ha : 0 < a.level) (hb : 0 < b.level) :
    compare a b = compareLists
      (Operation.product.operands a).reverse (Operation.product.operands b).reverse := by
  cases a <;> cases b <;> simp_all [level, Operation.operands]

theorem compare_powers {s t e f} (ha : 1 < a.level) (hb : 1 < b.level)
    (hs : a.base? = some s) (he : a.exponent? = some e)
    (ht : b.base? = some t) (hf : b.exponent? = some f) :
    compare a b = (compare s t).then (compare e f) := by
  cases a <;> simp [base?, exponent?, level] at hs he ha <;>
    cases b <;> simp [base?, exponent?, level] at ht hf hb <;>
    subst_vars <;> simp

theorem compare_terms (ha : 2 < a.level) (hb : 2 < b.level) :
    compare a b = compareLists
      (Operation.sum.operands a).reverse (Operation.sum.operands b).reverse := by
  cases a <;> cases b <;> simp_all [level, Operation.operands]

theorem compare_fact_call {e} (hb : 4 < b.level) :
    compare (fact e) b = if e = b then .gt else compare e b := by
  cases b <;> simp_all [level]

-- A factorial follows its operand, and nothing else that compares as equal to the operand. On some
-- classes of trees that makes no difference.
def Discerning (p : Expr → Prop) : Prop :=
  ∀ ⦃e y⦄, (fact e).Every p → y.Every p → 4 < y.level → compare e y = .eq → e = y

theorem discerning_proper : Discerning Proper :=
  fun _ _ he hy _ => (compare_eq_iff he.right hy).mp

theorem compare_fact_left {p e} (hp : Discerning p) (hb : 4 < b.level) (hpe : (fact e).Every p)
    (hpb : b.Every p) : compare (fact e) b = (compare e b).then .gt := by
  rw [compare_fact_call hb]
  by_cases he : e = b
  case pos => rw [if_pos he, he, compare_self, Ordering.eq_then]
  case neg =>
    have hc := mt (hp hpe hpb hb) he
    rw [if_neg he]
    cases hd : compare e b <;> simp_all

theorem compare_unfact {p} (hp : Discerning p) (ha : 3 < a.level) (hb : 3 < b.level)
    (hpa : a.Every p) (hpb : b.Every p) :
    compare a b = (compare a.unfact b.unfact).then (compareLeaves a.factRank b.factRank) := by
  cases a <;> simp [level] at ha <;> cases b <;> simp [level] at hb
  case fact.fact e f => simp [unfact, factRank, compareLeaves]
  case fact.sym e t | fact.app e t ys =>
    simp [compare_fact_left hp (by simp [level]) hpa hpb, unfact, factRank, compareLeaves]
  case sym.fact s f | app.fact s xs f =>
    rw [compare_swap, compare_fact_left hp (by simp [level]) hpb hpa, Ordering.swap_then,
      ←compare_swap]
    simp [unfact, factRank, compareLeaves]
  all_goals simp [unfact, factRank, compareLeaves]

theorem compare_names (ha : 4 < a.level) (hb : 4 < b.level) :
    compare a b = (compareLeaves a.name b.name).then
      ((compareLeaves a.callRank b.callRank).then (compareLists a.args b.args)) := by
  cases a <;> simp [level] at ha <;> cases b <;> simp [level] at hb
  all_goals grind [compare, compareLists, compareLeaves, name, args, callRank, Ordering.then]

end Views

-- How the first and the last of three things compare if neither step goes down.
def Chain (p q r : Ordering) : Prop :=
  p ≠ .gt → q ≠ .gt → r = p.then q

namespace Chain

theorem leaves {α} [LE α] [LT α] [DecidableLT α] [DecidableEq α] [Std.IsLinearOrder α]
    [Std.LawfulOrderLT α] {x y z : α} :
    Chain (compareLeaves x y) (compareLeaves y z) (compareLeaves x z) := by
  grind [Chain, compareLeaves, Ordering.then]

theorem both {p q r p' q' r' : Ordering} (h : Chain p q r) (h' : Chain p' q' r') :
    Chain (p.then p') (q.then q') (r.then r') := by
  revert h h'
  cases p <;> cases q <;> cases p' <;> cases q' <;> simp +contextual [Chain]

theorem lists {xs ys zs : List Expr}
    (h : ∀ x ∈ xs, ∀ y ∈ ys, ∀ z ∈ zs, Chain (compare x y) (compare y z) (compare x z)) :
    Chain (compareLists xs ys) (compareLists ys zs) (compareLists xs zs) := by
  induction xs generalizing ys zs <;> cases ys <;> cases zs <;> simp only [compareLists]
  case cons.cons.cons x xs hi y ys z zs =>
    exact both (h x (by simp) y (by simp) z (by simp)) <| hi (by grind)
  all_goals simp [Chain]

end Chain

theorem weight_le_weights {x xs} (h : x ∈ xs) : x.weight ≤ weights xs := by
  induction xs with
  | nil => cases h
  | cons y ys hi =>
    cases h
    case head   => simp
    case tail h => exact Nat.le_add_left_of_le (hi h)

theorem weight_factor_lt {x xs} (h : x ∈ xs) : x.weight < (prod xs).weight :=
  Nat.lt_one_add_iff.mpr (weight_le_weights h)

theorem weight_base_lt {b e : Expr} : b.weight < (pow b e).weight := by
  simp +arith [weight]

theorem chain_of_num {a b c : Expr} (h : a.level = 0 ∨ b.level = 0 ∨ c.level = 0) :
    Chain (compare a b) (compare b c) (compare a c) := by
  have hn (x : Expr) : 0 < x.level ∨ ∃ q, x = num q := by cases x <;> simp [level]
  obtain ha | ⟨p, rfl⟩ := hn a <;> obtain hb | ⟨q, rfl⟩ := hn b <;> obtain hc | ⟨r, rfl⟩ := hn c
  case inl.inl.inl => omega
  case inr.inr.inr =>
    simp only [compare]
    exact Chain.leaves
  case inr.inr.inl =>
    rw [compare_num_left hc, compare_num_left hc]
    cases compare (num p) (num q) <;> simp [Chain]
  all_goals simp_all [Chain, compare_num_left, compare_num_right]

theorem weight_factor {a x} (h : x ∈ Operation.product.operands a) :
    x.weight ≤ a.weight ∧ (a.level = 1 → x.weight < a.weight) := by
  cases a <;> simp [Operation.operands, level, weight] at h ⊢ <;> try exact h ▸ Nat.le_refl _
  case prod xs => have := weight_le_weights h; omega

theorem weight_term {a x} (h : x ∈ Operation.sum.operands a) :
    x.weight ≤ a.weight ∧ (a.level = 3 → x.weight < a.weight) := by
  cases a <;> simp [Operation.operands, level, weight] at h ⊢ <;> try exact h ▸ Nat.le_refl _
  case sum xs => have := weight_le_weights h; omega

theorem exists_base_exponent {a : Expr} (ha : 0 < a.level) :
    ∃ s e, a.base? = some s ∧ a.exponent? = some e ∧ s.weight ≤ a.weight ∧ e.weight ≤ a.weight ∧
      (a.level = 2 → s.weight < a.weight ∧ e.weight < a.weight) := by
  cases a <;> simp [level] at ha <;> simp +arith [base?, exponent?, weight, level]

theorem weight_unfact {a : Expr} :
    a.unfact.weight ≤ a.weight ∧ (a.level = 4 → a.unfact.weight < a.weight) := by
  cases a <;> simp [unfact, level, weight]

theorem weight_args {a x : Expr} (h : x ∈ a.args) : x.weight < a.weight := by
  cases a <;> simp [args] at h
  case app s xs => exact Nat.lt_one_add_iff.mpr (weight_le_weights h)

theorem every_unfact {p} {a : Expr} (h : a.Every p) : a.unfact.Every p := by
  cases a <;> simp_all [unfact]

theorem every_args {p} {a : Expr} (h : a.Every p) : ∀ x ∈ a.args, x.Every p := by
  cases a <;> simp_all [args]

-- Only the exponent of a first power that is none may come from outside the tree.
theorem every_exponent {p} {a e : Expr} (h : a.Every p) (he : a.exponent? = some e)
    (hl : 0 < e.level) : e.Every p := by
  cases a <;> cases he
  case pow => exact h.right.right
  all_goals exact absurd hl (Nat.lt_irrefl 0)

-- Trees of a class that together stay below a weight compare as a chain. The lemmas that follow step
-- up from there, level by level: where one of three trees is of the level and none is of a lower one,
-- all three are taken apart in the same way.
def Chained (p : Expr → Prop) (n : Nat) : Prop :=
  ∀ ⦃a b c : Expr⦄, a.Every p → b.Every p → c.Every p → a.weight + b.weight + c.weight < n →
    Chain (compare a b) (compare b c) (compare a c)

namespace Chained

variable {p : Expr → Prop} {n : Nat} {a b c : Expr}

theorem operands {o : Operation} (hi : Chained p n) (ha : a.Every p) (hb : b.Every p)
    (hc : c.Every p) (hw : ∀ x ∈ o.operands a, ∀ y ∈ o.operands b, ∀ z ∈ o.operands c,
      x.weight + y.weight + z.weight < n) :
    Chain (compareLists (o.operands a).reverse (o.operands b).reverse)
      (compareLists (o.operands b).reverse (o.operands c).reverse)
      (compareLists (o.operands a).reverse (o.operands c).reverse) := by
  apply Chain.lists
  intro x hx y hy z hz
  rw [List.mem_reverse] at hx hy hz
  exact hi (ha.operands _ x hx) (hb.operands _ y hy) (hc.operands _ z hz) (hw x hx y hy z hz)

variable (hi : Chained p (a.weight + b.weight + c.weight))
variable (ha : a.Every p) (hb : b.Every p) (hc : c.Every p)

include hi ha hb hc

theorem prod (hl : 0 < a.level ∧ 0 < b.level ∧ 0 < c.level)
    (h : a.level = 1 ∨ b.level = 1 ∨ c.level = 1) :
    Chain (compare a b) (compare b c) (compare a c) := by
  have ⟨hla, hlb, hlc⟩ := hl
  rw [compare_factors hla hlb, compare_factors hlb hlc, compare_factors hla hlc]
  refine hi.operands ha hb hc fun x hx y hy z hz => ?_
  have := weight_factor hx
  have := weight_factor hy
  have := weight_factor hz
  omega

theorem pow (hl : 1 < a.level ∧ 1 < b.level ∧ 1 < c.level)
    (h : a.level = 2 ∨ b.level = 2 ∨ c.level = 2) :
    Chain (compare a b) (compare b c) (compare a c) := by
  have ⟨hla, hlb, hlc⟩ := hl
  have ⟨sa, ea, hsa, hea, _⟩ := exists_base_exponent (Nat.zero_lt_of_lt hla)
  have ⟨sb, eb, hsb, heb, _⟩ := exists_base_exponent (Nat.zero_lt_of_lt hlb)
  have ⟨sc, ec, hsc, hec, _⟩ := exists_base_exponent (Nat.zero_lt_of_lt hlc)
  rw [compare_powers hla hlb hsa hea hsb heb, compare_powers hlb hlc hsb heb hsc hec,
    compare_powers hla hlc hsa hea hsc hec]
  apply Chain.both (hi (ha.base hsa) (hb.base hsb) (hc.base hsc) (by omega))
  by_cases h₀ : ea.level = 0 ∨ eb.level = 0 ∨ ec.level = 0
  case pos => exact chain_of_num h₀
  case neg =>
    have ⟨ha₀, hb₀, hc₀⟩ : 0 < ea.level ∧ 0 < eb.level ∧ 0 < ec.level := by omega
    exact hi (every_exponent ha hea ha₀) (every_exponent hb heb hb₀) (every_exponent hc hec hc₀)
      (by omega)

theorem sum (hl : 2 < a.level ∧ 2 < b.level ∧ 2 < c.level)
    (h : a.level = 3 ∨ b.level = 3 ∨ c.level = 3) :
    Chain (compare a b) (compare b c) (compare a c) := by
  have ⟨hla, hlb, hlc⟩ := hl
  rw [compare_terms hla hlb, compare_terms hlb hlc, compare_terms hla hlc]
  refine hi.operands ha hb hc fun x hx y hy z hz => ?_
  have := weight_term hx
  have := weight_term hy
  have := weight_term hz
  omega

-- Only the comparison of a factorial depends on the class.
theorem fact (hp : Discerning p) (hl : 3 < a.level ∧ 3 < b.level ∧ 3 < c.level)
    (h : a.level = 4 ∨ b.level = 4 ∨ c.level = 4) :
    Chain (compare a b) (compare b c) (compare a c) := by
  have ⟨hla, hlb, hlc⟩ := hl
  rw [compare_unfact hp hla hlb ha hb, compare_unfact hp hlb hlc hb hc,
    compare_unfact hp hla hlc ha hc]
  have := @weight_unfact a
  have := @weight_unfact b
  have := @weight_unfact c
  exact (hi (every_unfact ha) (every_unfact hb) (every_unfact hc) (by omega)).both .leaves

theorem call (hl : 4 < a.level ∧ 4 < b.level ∧ 4 < c.level) :
    Chain (compare a b) (compare b c) (compare a c) := by
  have ⟨hla, hlb, hlc⟩ := hl
  rw [compare_names hla hlb, compare_names hlb hlc, compare_names hla hlc]
  apply Chain.leaves.both <| Chain.leaves.both <| Chain.lists _
  intro x hx y hy z hz
  have := weight_args hx
  have := weight_args hy
  have := weight_args hz
  exact hi (every_args ha x hx) (every_args hb y hy) (every_args hc z hz) (by omega)

end Chained

theorem Discerning.chained {p : Expr → Prop} (hp : Discerning p) {n} : Chained p n := by
  induction n with
  | zero      => exact fun _ _ _ _ _ _ h => absurd h (Nat.not_lt_zero _)
  | succ n hn =>
    intro a b c ha hb hc hw
    have hi : Chained p (a.weight + b.weight + c.weight) :=
      fun _ _ _ hx hy hz h => hn hx hy hz (by omega)
    by_cases h₀ : a.level = 0 ∨ b.level = 0 ∨ c.level = 0
    case pos => exact chain_of_num h₀
    by_cases h₁ : a.level = 1 ∨ b.level = 1 ∨ c.level = 1
    case pos => exact hi.prod ha hb hc (by omega) h₁
    by_cases h₂ : a.level = 2 ∨ b.level = 2 ∨ c.level = 2
    case pos => exact hi.pow ha hb hc (by omega) h₂
    by_cases h₃ : a.level = 3 ∨ b.level = 3 ∨ c.level = 3
    case pos => exact hi.sum ha hb hc (by omega) h₃
    by_cases h₄ : a.level = 4 ∨ b.level = 4 ∨ c.level = 4
    case pos => exact hi.fact ha hb hc hp (by omega) h₄
    case neg => exact hi.call ha hb hc (by omega)

theorem Discerning.chain {p : Expr → Prop} (hp : Discerning p) {a b c : Expr} (ha : a.Every p)
    (hb : b.Every p) (hc : c.Every p) : Chain (compare a b) (compare b c) (compare a c) :=
  hp.chained ha hb hc (Nat.lt_succ_self _)

theorem compare_trans {a b c : Expr}
    (ha : a.Every Proper) (hb : b.Every Proper) (hc : c.Every Proper)
    (hab : compare a b = .lt) (hbc : compare b c = .lt) : compare a c = .lt := by
  simpa [Chain, hab, hbc] using discerning_proper.chain ha hb hc

theorem compare_lt_of_not_lt {a b : Expr} (ha : a.Every Proper) (hb : b.Every Proper)
    (hne : a ≠ b) (h : compare b a ≠ .lt) : compare a b = .lt := by
  cases hc : compare a b
  case lt => rfl
  case eq => exact absurd ((compare_eq_iff ha hb).mp hc) hne
  case gt => exact absurd (compare_eq_gt_iff.mp hc) h

theorem compare_strict_order :
    (∀ a b : Expr, compare a b = (compare b a).swap) ∧
    ∀ a b c : Expr, a.Every Proper → b.Every Proper → c.Every Proper →
      (compare a b = .eq ↔ a = b) ∧
      (compare a b = .lt → compare b c = .lt → compare a c = .lt) where
  left a b            := compare_swap b a
  right _ _ _ ha hb hc := ⟨compare_eq_iff ha hb, compare_trans ha hb hc⟩

-- A multiple, a power and a factorial of one symbol.
theorem compare_strict_order_shapes :
    let a := prod [num 2, sym "x"]
    let b := pow (sym "x") (num 2)
    let c := fact (sym "x")
    (a.Every Proper ∧ b.Every Proper ∧ c.Every Proper) ∧
      (compare a b = .lt ∧ compare b c = .lt) ∧ (a ≠ b ∧ compare a c = .lt) := by
  intro a b c
  have ha : a.Every Proper := by simp [a, Proper]
  have hb : b.Every Proper := by simp [b, Proper]
  have hc : c.Every Proper := by simp [c, Proper]
  have hab : compare a b = .lt := by cbv
  have hbc : compare b c = .lt := by cbv
  obtain ⟨heq, htrans⟩ := compare_strict_order.right a b c ha hb hc
  exact ⟨⟨ha, hb, hc⟩, ⟨hab, hbc⟩, fun h => by simp [heq.mpr h] at hab, htrans hab hbc⟩

end ExactAlgebra.Expr
