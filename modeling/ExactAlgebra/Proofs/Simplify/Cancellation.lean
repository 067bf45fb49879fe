import ExactAlgebra.Expr.Arithmetic
import ExactAlgebra.Proofs.Expr.Sort
import ExactAlgebra.Proofs.Simplify.Addition

-- A difference of equals is 0, unless what they simplify to is flattened before it meets its
-- negative, or has numbers left that the negative folds.

namespace ExactAlgebra

open ExactAlgebra.Expr ExactAlgebra.Operation

namespace Expr

variable {limit : Nat} {a b s t : Expr} {q r : Rat}

theorem collectPair_cancelled (ha : a.split? = .ok (some (q, t)))
    (hb : b.split? = .ok (some (r, t))) (h : q + r = 0) :
    Operation.sum.collectPair collectTerms a b = .ok .cancelled := by
  cases a
  case num => cases ha
  all_goals simp [collectPair, collectTerms, ha, hb, h, bind, Except.bind, pure, Except.pure]

-- Opposite terms cancel.
theorem sumOf_opposite (ha : a.split? = .ok (some (q, t))) (hb : b.split? = .ok (some (-q, t)))
    (hoa : Operation.sum.owns a = false) (hob : Operation.sum.owns b = false) :
    sumOf [a, b] = .ok (num 0) := by
  have hne {e c} (h : e.split? = .ok (some (c, t))) : e ≠ num 0 := by rintro rfl; cases h
  obtain ⟨u, v, r, hs, m, hr⟩ := sum_shrinks.combineWith_merges (a := a) (b := b) rfl rfl
    (isIdentity_eq_false.mpr (hne ha)) (isIdentity_eq_false.mpr (hne hb))
  have huv : Operation.sum.collectPair collectTerms u v = .ok .cancelled ∧
      Operation.sum.owns u = false ∧ Operation.sum.owns v = false := by
    obtain ⟨rfl, rfl⟩ | ⟨rfl, rfl⟩ := sort_pair_eq hs
    case inl => exact ⟨collectPair_cancelled ha hb (add_neg_cancel q), hoa, hob⟩
    case inr => exact ⟨collectPair_cancelled hb ha (neg_add_cancel q), hob, hoa⟩
  obtain ⟨hc, hou, hov⟩ := huv
  rw [operands_of_not_owns hou, operands_of_not_owns hov] at m
  cases m
  case cancel m =>
    cases m <;> exact hr [] rfl
  all_goals cases hc.symm.trans ‹_›

-- Operands that do not collect with each other stay side by side.
theorem sumOf_apart (ha : a.Every (Neat limit)) (hb : b.Every (Neat limit)) (ha₀ : a ≠ num 0)
    (hb₀ : b ≠ num 0) (h : ∀ x ∈ Operation.sum.operands a, ∀ y ∈ Operation.sum.operands b,
      Operation.sum.label? x ≠ Operation.sum.label? y) :
    sumOf [a, b] =
      .ok (sum (sort (Operation.sum.operands a ++ Operation.sum.operands b))) := by
  obtain ⟨u, v, r, hs, m, hr⟩ := sum_shrinks.combineWith_merges (a := a) (b := b) rfl rfl
    (isIdentity_eq_false.mpr ha₀) (isIdentity_eq_false.mpr hb₀)
  have hoa := neat_form.operands (o := .sum) ha (isIdentity_eq_false.mpr ha₀) rfl
  have hob := neat_form.operands (o := .sum) hb (isIdentity_eq_false.mpr hb₀) rfl
  have apart {x y} (hx : x.Every (Neat limit)) (hy : y.Every (Neat limit))
      (h : Operation.sum.label? x ≠ Operation.sum.label? y) :
      Operation.sum.collectPair collectTerms x y = .ok .apart :=
    (sum_apart_iff (neat_form.split?_ne_error hx) (neat_form.split?_ne_error hy)).mpr h
  have ⟨ys, hy, hp⟩ : ∃ ys, r = .ok ys ∧
      ys.Perm (Operation.sum.operands a ++ Operation.sum.operands b) := by
    obtain ⟨rfl, rfl⟩ | ⟨rfl, rfl⟩ := sort_pair_eq hs
    case inl =>
      have ⟨ys, hy, hp⟩ := m.keeps fun x hx y hy =>
        apart (hoa.mem x hx).every (hob.mem y hy).every (h x hx y hy)
      exact ⟨ys, hy, by simpa using hp⟩
    case inr =>
      have ⟨ys, hy, hp⟩ := m.keeps fun x hx y hy =>
        apart (hob.mem x hx).every (hoa.mem y hy).every (h y hy x hx).symm
      exact ⟨ys, hy, (by simpa using hp : ys.Perm _).trans List.perm_append_comm⟩
  have hl : 2 ≤ ys.length := by
    rw [hp.length_eq, List.length_append]
    exact Nat.add_le_add (neat_form.operands_pos ha) (neat_form.operands_pos hb)
  have hsum : sumOf [a, b] = .ok (sum ys) := by
    rw [sumOf, hr ys hy, gather_eq_node hl]
    rfl
  have hn : (sum ys).Every (Neat limit) :=
    (neat_form.sumOf neat_keeps_sum (by simp [ha, hb])).ok hsum
  have hys := (neat_form.listed (o := .sum).mp hn).right
  have hproper : ∀ y ∈ ys, y.Every Proper := fun y hy =>
    (hys.mem y hy).every.mono fun _ => Neat.proper
  rw [hsum, ←sort_eq_of_perm hproper hp, sort_of_sorted hys.sorted]

-- Trees that share no symbolic part with their negative. A sum is flattened, and so is the negative
-- of its negative. Numbers next to each other are folded only once another number comes along.
inductive Lopsided : Expr → Prop
  | sum {ts} : Lopsided (sum ts)
  | neg {ts} : Lopsided (neg (sum ts))
  | numbers {p q xs} : Lopsided (prod (num p :: num q :: xs))

theorem sumOf_neg (hs : s.Every (Neat limit)) (h : ¬s.Lopsided) :
    sumOf [s, scale (-1) s] = .ok (num 0) := by
  obtain ⟨q, rfl⟩ | ⟨q, t, hq⟩ := neat_form.term_cases hs
  case inl => simpa [scale] using @sumOf_numbers [q, -q]
  case inr =>
    have hsp : Splits s t := neat_form.splits_of_one_number hs hq <| by
      rintro p r xs rfl
      exact h .numbers
    have ht := (neat_form.symbolic hs hq).left
    have hscale := neat_form.scale_of_splits hs hq hsp
    have hq₀ := neat_form.split?_ne_zero hs hq
    have ho : Operation.sum.owns s = false := by
      cases s <;> first | rfl | exact absurd .sum h
    have hneg : scale (-1) s = scale (-q) t := by
      rw [neat_form.scale_term hs hq hsp (by simp), neg_one_mul]
    have hon : Operation.sum.owns (scale (-1) s) = false := by
      by_cases hq₁ : q = -1
      case neg =>
        rw [hneg, neat_form.scale_splits ht hsp (neg_ne_zero.mpr hq₀) (by grind)]
        rfl
      case pos =>
        subst hq₁
        rw [hneg, neg_neg, scale_one]
        cases t <;> try rfl
        exact absurd (hscale ▸ .neg) h
    exact sumOf_opposite hq (hneg ▸ neat_form.split?_scale ht hsp (neg_ne_zero.mpr hq₀)) ho hon

-- Scaling folds the second number as well, which leaves less of a symbolic part.
theorem label?_ne_of_numbers {p q : Rat} {y : Expr} {xs : List Expr}
    (hy : y ∈ Operation.sum.operands (scale (-1) (prod (num p :: num q :: xs)))) :
    Operation.sum.label? (prod (num p :: num q :: xs)) ≠ Operation.sum.label? y := by
  intro hl
  have hs : scale (-1) (prod (num p :: num q :: xs)) = scaleFactors (-1) (num p :: num q :: xs) :=
    (scaleFactors_operands (by simp) (by decide)).symm
  rw [hs] at hy
  cases xs with
  | nil =>
    obtain ⟨c, hc⟩ := scaleFactors_numbers (c := -1) (q := p) (r := q)
    rw [hc] at hy
    obtain rfl := List.mem_singleton.mp hy
    cases hl
  | cons x xs =>
    have hs : Operation.sum.labelWeight (prod (num p :: num q :: x :: xs)) =
        2 + weights (x :: xs) := by
      simp +arith [labelWeight, label?, split?, weight]
    have hw : Operation.sum.labelWeight y = 2 + weights (x :: xs) := by
      rw [←hs, labelWeight, labelWeight, hl]
    have := labelWeight_le_load (o := .sum) hy
    have := @load_scaleFactors_numbers_le (-1) p q x xs
    omega

-- The terms of a lopsided tree have other symbolic parts than those of its negative.
theorem labels_ne_of_lopsided (h : s.Lopsided) :
    ∀ x ∈ Operation.sum.operands s, ∀ y ∈ Operation.sum.operands (scale (-1) s),
      Operation.sum.label? x ≠ Operation.sum.label? y := by
  have hne : (-1 : Rat) ≠ 1 := by decide
  intro x hx y hy
  cases h
  case sum ts =>
    have hs : scale (-1) (sum ts) = neg (sum ts) := by simp [scale, neg, hne]
    rw [hs] at hy
    obtain rfl := List.mem_singleton.mp hy
    exact label?_ne_sum hx
  case neg ts =>
    have hs : scale (-1) (neg (sum ts)) = sum ts := by simp [scale, neg, hne, scaleFactors, gather]
    rw [hs] at hy
    obtain rfl := List.mem_singleton.mp hx
    exact (label?_ne_sum hy).symm
  case numbers p q xs =>
    obtain rfl := List.mem_singleton.mp hx
    exact label?_ne_of_numbers hy

theorem simplify_neg {c : Config} {e : Expr} (h : e.simplify c = .ok s) :
    (neg e).simplify c = .ok (scale (-1) s) := by
  simp only [neg, simplify, simplifyAll, h, bind, Except.bind, pure, Except.pure,
    productOf_pair (.inl rfl)]

theorem simplify_sub {c : Config} {e : Expr} (h : e.simplify c = .ok s) :
    (binary .sub e e).simplify c = sumOf [s, scale (-1) s] := by
  simp only [binary, simplify, simplifyAll, h, simplify_neg h, bind, Except.bind, pure,
    Except.pure]

-- Subtracting a tree from itself gives 0, unless what it simplifies to is lopsided. Then all terms
-- of both sides are left over.
theorem simplify_sub_self {c : Config} {e s : Expr} (h : e.simplify c = .ok s) :
    (neg e).simplify c = .ok (scale (-1) s) ∧
      (¬s.Lopsided → (binary .sub e e).simplify c = .ok (num 0)) ∧
      (s.Lopsided → (binary .sub e e).simplify c =
        .ok (sum (sort (Operation.sum.operands s ++ Operation.sum.operands (scale (-1) s))))) := by
  have hs : s.Every (Neat c.factorialLimit) := yields_neat.ok h
  rw [simplify_sub h]
  refine ⟨simplify_neg h, sumOf_neg hs, fun hl => ?_⟩
  have hne : s ≠ num 0 := by
    rintro rfl
    cases hl
  exact sumOf_apart hs (neat_form.scale hs) hne
    (neat_form.scale_ne_zero hs (by simp) hne) (labels_ne_of_lopsided hl)

theorem simplify_sub_self_monomial :
    let e := prod [sym "x", num 2, pow (sym "y") (sym "z"), sym "x"]
    let s := prod [num 2, pow (sym "x") (num 2), pow (sym "y") (sym "z")]
    e.simplify {} = .ok s ∧ ¬s.Lopsided ∧ (binary .sub e e).simplify {} = .ok (num 0) := by
  intro e s
  have h : e.simplify {} = .ok s := by cbv
  have hl : ¬s.Lopsided := by
    simp only [s]
    rintro ⟨⟩
  obtain ⟨_, hc, _⟩ := simplify_sub_self h
  exact ⟨h, hl, hc hl⟩

-- The terms of a sum do not cancel with the negative of the sum.
theorem simplify_sub_self_sum :
    let e := sum [sym "a", sym "b"]
    e.simplify {} = .ok e ∧
      (binary .sub e e).simplify {} = .ok (sum [sym "a", sym "b", neg e]) ∧
      (binary .sub e e).simplify {} ≠ .ok (num 0) := by
  intro e
  have h : (binary .sub e e).simplify {} = .ok (sum [sym "a", sym "b", neg e]) := by cbv
  refine ⟨by cbv, h, ?_⟩
  rw [h]
  simp

end Expr

end ExactAlgebra
