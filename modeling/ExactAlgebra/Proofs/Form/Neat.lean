import ExactAlgebra.Proofs.Form.Closure
import Mathlib

-- What simplifying makes of any tree: sorted operands that fit their node, no power with a trivial
-- exponent or base, and no factorial that could have been evaluated.

namespace ExactAlgebra

open ExactAlgebra.Expr ExactAlgebra.Operation

namespace Expr

def Neat (limit : Nat) : Expr → Prop
  | sum xs  => 2 ≤ xs.length ∧ Listed (Belongs .sum) Precedes xs
  | prod xs => 2 ≤ xs.length ∧ Listed (Belongs .product) Precedes xs
  | pow b e => b ≠ num 1 ∧ e ≠ num 0 ∧ e ≠ num 1 ∧ ∀ n : Int, e = num n → b.Atomic
  | fact e  => ∀ n : Nat, n ≤ limit → e ≠ num n
  | _       => True

variable {limit : Nat} {a b c e : Expr} {o : Operation}

theorem Neat.proper (h : e.Neat limit) : e.Proper := by
  cases e
  case pow b e          => exact h.right.right.left
  case sum xs | prod xs =>
    match xs, h.left with
    | x :: y :: xs, _ => exact trivial
  all_goals exact trivial

theorem integer?_eq_none (h : e.integer? = none) (n : Int) : e ≠ num n :=
  fun he => by simp [integer?_eq_some_iff.mpr he] at h

theorem neat_form : Form (Neat limit) fun _ => Precedes where
  number      := trivial
  node {o _}  := by cases o <;> exact Iff.rfl
  leading     := compare_num_left
  trailing {x y} hx h := by
    cases y
    case num q =>
      rw [Precedes, compare_num_right hx] at h
      cases h
    all_goals simp [level]

-- Comparing puts members of a node in their order, unless they are equal.
theorem neat_keeps {collect}
    (ha : ∀ {a}, Member (Neat limit) o a → o.collectPair collect a a ≠ .ok .apart)
    (hc : ∀ {a b c}, Member (Neat limit) o a → Member (Neat limit) o b →
      o.collectPair collect a b = .ok (.one c) → o.absorbs c = false →
      Listed (Member (Neat limit) o) Precedes (o.operands c)) :
    Keeps o collect (Member (Neat limit) o) Precedes fun _ => True where
  trans ha hb hc hab hbc :=
    compare_trans (ha.every.mono fun _ => Neat.proper) (hb.every.mono fun _ => Neat.proper)
      (hc.every.mono fun _ => Neat.proper) hab hbc
  right _ _ _ h          := h
  left {a b} hka hkb h hlt := by
    refine compare_lt_of_not_lt (hka.every.mono fun _ => Neat.proper)
      (hkb.every.mono fun _ => Neat.proper) ?_ hlt
    rintro rfl
    exact ha hka h
  collected              := hc
  after _ _ _ _ _ _ h    := h
  before _ _ _ _ _ _ h   := h
  fault _ _ _            := trivial

theorem neat_keeps_sum :
    Keeps .sum collectTerms (Member (Neat limit) .sum) Precedes fun _ => True := by
  refine neat_keeps ?_ fun ha _ h _ => neat_form.sum_collected ha h
  intro a ha h
  have hs := neat_form.split?_ne_error ha.every
  exact (sum_apart_iff hs hs).mp h rfl

theorem neat_pow (hb : b ≠ num 1) (he : e.integer? = none) : (pow b e).Neat limit := by
  have hn := integer?_eq_none he
  exact ⟨hb, hn 0, hn 1, fun n h => absurd h (hn n)⟩

theorem neat_admits : Admits (Neat limit) b :=
  fun _ hb he _ => neat_pow hb he

theorem neat_kept : Kept limit (Neat limit) fun _ => Precedes where
  toForm        := neat_form
  sym           := trivial
  app           := trivial
  fact          := id
  keeps_sum     := neat_keeps_sum
  again h _ he  := neat_pow h.left he
  atom hb h₀ h₁ :=
    ⟨by rintro rfl; simp [level] at hb, by simpa, by simpa, fun _ _ => atomic_iff.mpr hb⟩
  keeps_product hr := by
    refine neat_keeps ?_ fun ha hb h hc =>
      neat_form.product_collected hr (fun _ => neat_admits) neat_keeps_sum ha hb h hc
    exact fun _ h => product_apart_iff.mp h rfl

theorem yields_neat {c : Config} {e : Expr} : Yields (Neat c.factorialLimit) (e.simplify c) := by
  apply neat_kept.simplify
  apply Every.of_forall
  rintro ⟨⟩
  case pow => exact fun _ _ _ _ => .inl neat_admits
  all_goals exact trivial

theorem simplify_neat {c : Config} {e r : Expr} (h : e.simplify c = .ok r) :
    r.Every (Neat c.factorialLimit) :=
  yields_neat.ok h

theorem simplify_neat_terms :
    let e := sum [sym "x", fact (num 3), prod [], sym "x"]
    let r := sum [num 1, fact (num 3), prod [num 2, sym "x"]]
    e.simplify ⟨2⟩ = .ok r ∧ r.Every (Neat 2) := by
  intro e r
  have h : e.simplify ⟨2⟩ = .ok r := by cbv
  exact ⟨h, simplify_neat h⟩

end Expr

end ExactAlgebra
