import ExactAlgebra.Proofs.Operation.Load

-- Forms of trees in which the operands of each sum and of each product stand in some order.

namespace ExactAlgebra

open ExactAlgebra.Expr ExactAlgebra.Operation

namespace Expr

def Precedes (a b : Expr) : Prop :=
  compare a b = .lt

-- Bases that a whole power leaves as they are.
def Atomic : Expr → Prop
  | num _ | prod _ | pow .. => False
  | _                       => True

theorem atomic_iff {e : Expr} : e.Atomic ↔ 2 < e.level := by
  cases e <;> simp [level, Atomic]

end Expr

-- What can be an operand without being dropped, folded or flattened.
structure Belongs (o : Operation) (e : Expr) : Prop where
  not_owns     : o.owns e = false
  not_identity : o.isIdentity e = false
  not_absorbs  : o.absorbs e = false

theorem Belongs.ne_zero {o e} (h : Belongs o e) : e ≠ num 0 := by
  rintro rfl
  cases o
  case sum     => exact Bool.noConfusion h.not_identity
  case product => exact Bool.noConfusion h.not_absorbs

theorem Belongs.of_level_pos {o e} (ho : Operation.owns o e = false) (h : 0 < e.level) :
    Belongs o e where
  not_owns     := ho
  not_identity := by cases e <;> simp_all [isIdentity, level]
  not_absorbs  := by cases o <;> cases e <;> simp_all [absorbs, absorbing?, level]

theorem gather_ne_zero {xs} (h : ∀ x ∈ xs, Belongs .product x) : product.gather xs ≠ num 0 := by
  match xs with
  | []          => simp [Operation.gather, identity]
  | [x]         => exact (h x (by simp)).ne_zero
  | x :: y :: xs => simp [Operation.gather, Operation.node]

-- A form of nodes that orders operands by `R`. Of factors it only matters that numbers come first.
structure Form (p : Expr → Prop) (R : Operation → Expr → Expr → Prop) : Prop where
  number {q} : p (num q)
  node {o : Operation} {xs} : p (o.node xs) ↔ 2 ≤ xs.length ∧ Listed (Belongs o) (R o) xs
  leading {q x} : 0 < x.level → R .product (num q) x
  trailing {x y} : 0 < x.level → R .product x y → 0 < y.level

-- An operand whose own nodes have a form.
structure Member (p : Expr → Prop) (o : Operation) (e : Expr) : Prop extends Belongs o e where
  every : e.Every p

namespace Form

variable {p : Expr → Prop} {R : Operation → Expr → Expr → Prop}
variable {o : Operation} {e t : Expr} {c : Rat} {xs : List Expr}

theorem listed (hf : Form p R) :
    (o.node xs).Every p ↔ 2 ≤ xs.length ∧ Listed (Member p o) (R o) xs := by
  rw [every_node, hf.node]
  constructor
  case mp  => exact fun ⟨⟨hl, hb, hs⟩, hx⟩ => ⟨hl, fun x hm => ⟨hb x hm, hx x hm⟩, hs⟩
  case mpr =>
    exact fun ⟨hl, hm, hs⟩ =>
      ⟨⟨hl, fun x hx => (hm x hx).toBelongs, hs⟩, fun x hx => (hm x hx).every⟩

theorem factors (hf : Form p R) :
    (prod xs).Every p ↔ 2 ≤ xs.length ∧ Listed (Member p .product) (R .product) xs :=
  hf.listed (o := .product)

theorem operands (hf : Form p R) (h : e.Every p) (hi : o.isIdentity e = false)
    (ha : o.absorbs e = false) : Listed (Member p o) (R o) (o.operands e) := by
  cases ho : o.owns e
  case false =>
    rw [operands_of_not_owns ho]
    exact .singleton ⟨⟨ho, hi, ha⟩, h⟩
  case true =>
    cases o <;> cases e <;> cases ho
    case sum.sum      => exact (hf.listed (o := .sum).mp h).right
    case product.prod => exact (hf.listed (o := .product).mp h).right

theorem operands_pos (hf : Form p R) (h : e.Every p) : 0 < (o.operands e).length := by
  cases ho : o.owns e
  case false => simp [operands_of_not_owns ho]
  case true  =>
    cases o <;> cases e <;> cases ho
    case sum.sum      => exact Nat.zero_lt_of_lt (hf.listed (o := .sum).mp h).left
    case product.prod => exact Nat.zero_lt_of_lt (hf.factors.mp h).left

theorem gather (hf : Form p R) (h : Listed (Member p o) (R o) xs) : (o.gather xs).Every p := by
  match xs with
  | []          => exact hf.number
  | [x]         => exact (h.mem x (by simp)).every
  | x :: y :: xs => exact hf.listed.mpr ⟨by simp, h⟩

theorem gathered (hf : Form p R) (hx : ∀ x ∈ xs, x.Every p)
    (h : Gathered o (Member p o) (R o) xs e) : e.Every p := by
  cases h
  case absorbing h => exact (absorbs_iff.mp h).right ▸ hf.number
  case one h _ _   => exact hx e h
  case list h      => exact hf.gather h

theorem split?_ne_error (hf : Form p R) (h : e.Every p) (f) : e.split? ≠ .error f := by
  intro hs
  obtain ⟨rfl, -⟩ := split?_eq_error hs
  exact absurd (hf.factors.mp h).left (by simp)

theorem symbolic (hf : Form p R) (h : e.Every p) (hs : e.split? = .ok (some (c, t))) :
    t.Every p ∧ t ≠ Expr.num 0 := by
  obtain rfl | ⟨xs, hl, rfl, rfl⟩ | ⟨-, rfl, -⟩ := split?_eq_some hs
  case inr.inr => exact ⟨h, by rintro rfl; cases hs⟩
  case inl =>
    have ht := (hf.factors.mp h).right.mem t (by simp)
    exact ⟨ht.every, ht.ne_zero⟩
  case inr.inl =>
    have ⟨hn, hx⟩ := hf.factors.mp h
    rw [List.length_cons] at hn
    exact ⟨hf.factors.mpr ⟨by omega, hx.tail⟩, by simp⟩

-- Where the first factor is no number, none is.
theorem level_pos (hf : Form p R) (h : Listed (Member p .product) (R .product) xs)
    (hn : ∀ q ys, xs = Expr.num q :: ys → False) : ∀ x ∈ xs, 0 < x.level := by
  cases xs with
  | nil => simp
  | cons x xs =>
    have hx : 0 < x.level := by
      cases x
      case num q => exact (hn q xs rfl).elim
      all_goals simp [level]
    have hxs := (List.pairwise_cons.mp h.sorted).left
    exact List.forall_mem_cons.mpr ⟨hx, fun y hy => hf.trailing hx (hxs y hy)⟩

theorem prepend (hf : Form p R) (h₀ : c ≠ 0) (h₁ : c ≠ 1) (hne : xs ≠ [])
    (h : Listed (Member p .product) (R .product) xs) (hx : ∀ x ∈ xs, 0 < x.level) :
    (prod (Expr.num c :: xs)).Every p := by
  have hc : Member p .product (Expr.num c) :=
    ⟨⟨rfl, by simpa [isIdentity, identity], by simpa [absorbs, absorbing?]⟩, hf.number⟩
  refine hf.factors.mpr ⟨?_, List.forall_mem_cons.mpr ⟨hc, h.mem⟩, ?_⟩
  · exact Nat.succ_le_succ (List.length_pos_iff.mpr hne)
  · exact List.pairwise_cons.mpr ⟨fun x hm => hf.leading (hx x hm), h.sorted⟩

-- A number that becomes 1 drops out, and any other stays in front.
theorem scaleFactors (hf : Form p R) (h₀ : c ≠ 0) (h₁ : c ≠ 1)
    (h : Listed (Member p .product) (R .product) xs) :
    (scaleFactors c xs).Every p ∧ scaleFactors c xs ≠ Expr.num 0 := by
  fun_induction Expr.scaleFactors c xs
  case case1 => exact ⟨hf.number, by simpa⟩
  case case2 => exact ⟨hf.gather h.tail, gather_ne_zero fun x hx => (h.tail.mem x hx).toBelongs⟩
  case case3 c q xs _ hc =>
    have hq : q ≠ 0 := by simpa using (h.mem (Expr.num q) (by simp)).ne_zero
    exact absurd (Rat.mul_eq_zero.mp hc) (not_or.mpr ⟨h₀, hq⟩)
  case case4 hc₁ hc₀ hi => exact hi hc₀ hc₁ h.tail
  case case5 hne hn     => exact ⟨hf.prepend h₀ h₁ hne h (hf.level_pos h hn), by simp⟩

theorem scale (hf : Form p R) (h : e.Every p) : (scale c e).Every p := by
  fun_cases Expr.scale c e
  case case1 | case2    => exact hf.number
  case case3            => exact h
  case case4 h₀ h₁ _ _  => exact (hf.scaleFactors h₀ h₁ (hf.factors.mp h).right).left
  case case5 h₀ h₁ hp hn =>
    have ho : Operation.product.owns e = false := by cases e <;> first | rfl | exact (hp _ rfl).elim
    have hl : 0 < e.level := by cases e <;> first | exact (hn _ rfl).elim | simp [level]
    exact hf.prepend h₀ h₁ (by simp) (.singleton ⟨.of_level_pos ho hl, h⟩) (by simpa)

theorem scale_ne_zero (hf : Form p R) (h : e.Every p) (hc : c ≠ 0) (he : e ≠ Expr.num 0) :
    Expr.scale c e ≠ Expr.num 0 := by
  fun_cases Expr.scale c e
  case case1 q         => simpa [Rat.mul_eq_zero, hc] using he
  case case2 hc' _   => exact absurd hc' hc
  case case3         => exact he
  case case4 h₀ h₁ _ _ => exact (hf.scaleFactors h₀ h₁ (hf.factors.mp h).right).right
  case case5         => simp

end Form

end ExactAlgebra
