import ExactAlgebra.Proofs.Coefficient.Power
import ExactAlgebra.Proofs.Operation.Load
import ExactAlgebra.Simplify
import Mathlib.Data.List.Forall2

-- Every tree simplifies to a result or turns out to be undefined: no budget runs out, and no empty
-- product gets to where its leading factor is read.

namespace ExactAlgebra

open ExactAlgebra.Expr ExactAlgebra.Operation

namespace Expr

namespace Hereditary

variable {P : Expr → Prop} {o : Operation} {b e : Expr} {xs : List Expr} {d : Nat} {n : Int}

theorem gathered (hp : Hereditary P) {K R} (hx : ∀ x ∈ xs, P x) (hk : ∀ x, K x → P x)
    (h : Gathered o K R xs e) : P e := by
  cases h
  case absorbing h => exact (absorbs_iff.mp h).right ▸ hp.num
  case one h _ _   => exact hx e h
  case list h      => exact hp.gather fun x hm => hk x (h.mem x hm)

theorem sum_keeps (hp : Hereditary P) :
    Keeps .sum collectTerms P (fun _ _ => True) (fun _ => False) := by
  apply Keeps.unordered (fun _ _ => hp.num)
  intro a b ha hb
  have m := collectTerms_collects a b
  generalize collectTerms a b = r at m
  cases m
  case fault h                    => exact h.elim (hp.split? ha) (hp.split? hb)
  case number | apart | cancelled => exact trivial
  case one ht _ _                 => exact hp.operands <| hp.scale <| hp.symbolic ha ht

theorem sumOf (hp : Hereditary P) (hx : ∀ x ∈ xs, P x) : Settles P (fun _ => False) (sumOf xs) := by
  have m : Combines .sum collectTerms xs _ := sum_shrinks.combineWith_combines
  refine (m.settles hp.sum_keeps ?_).mono (fun e => hp.gathered hx fun _ => id) (fun _ => id)
  exact fun x hm _ _ => .of_mem (hp.operands (hx x hm))

theorem powers (hp : Hereditary P) {raise'} (hb : P b) (he : P e)
    (hr : ∀ n, Settles P Fault.HasCause (raise' b n)) {r} (m : Powers raise' b e r) :
    Settles P Fault.HasCause r := by
  cases m
  case zero | one       => exact hp.num
  case undefined        => exact trivial
  case symbolic | apart => exact hp.pow.mpr ⟨hb, he⟩
  case whole            => exact hr _

-- What raises a base of up to a depth.
def Raising (P : Expr → Prop) (d : Nat) (raise' : Expr → Int → Except Fault Expr) : Prop :=
  Bounded raise' ∧ ∀ ⦃b n⦄, P b → b.weight ≤ d → Settles P Fault.HasCause (raise' b n)

theorem product_keeps (hp : Hereditary P) {raise'} (hr : Raising P d raise') :
    Keeps .product (collectPowersWith raise') (fun x => P x ∧ product.labelWeight x ≤ d)
      (fun _ _ => True) Fault.HasCause := by
  apply Keeps.unordered (fun {p q} ⟨_, hd⟩ _ => ⟨hp.num, by simpa using hd⟩)
  rintro a b ⟨ha, hd⟩ ⟨hb, -⟩
  have hs {s} (hs : a.base? = some s) : P s ∧ s.weight ≤ d :=
    ⟨hp.base ha hs, by simpa [labelWeight, label?, hs] using hd⟩
  have hg {e f} (he : a.exponent? = some e) (hf : b.exponent? = some f) :
      Settles P (fun _ => False) (Expr.sumOf [e, f]) :=
    hp.sumOf <| by simp [hp.exponent ha he, hp.exponent hb hf]
  have m := collectPowersWith_collects raise' a b
  generalize collectPowersWith raise' a b = r at m
  cases m
  case apart => exact trivial
  case sum_fault he hf h => exact ((hg he hf).error h).elim
  case power_fault hbs _ he hf hs' h =>
    obtain ⟨hPs, hds⟩ := hs hbs
    have hPg := (hg he hf).ok hs'
    exact (hp.powers hPs hPg (fun n => hr.right hPs hds) (powerWith_powers ..)).error h
  case power s _ _ _ r hbs _ he hf hs' h =>
    obtain ⟨hPs, hds⟩ := hs hbs
    have hPg := (hg he hf).ok hs'
    have hPr := (hp.powers hPs hPg (fun n => hr.right hPs hds) (powerWith_powers ..)).ok h
    split
    case isTrue  => exact trivial
    case isFalse =>
      intro x hx
      have := hr.left.powerWith h
      have := product.labelWeight_le_load hx
      exact ⟨hp.operands hPr x hx, by omega⟩

theorem combineWith (hp : Hereditary P) {raise'} (hr : Raising P d raise') (hx : ∀ x ∈ xs, P x)
    (hd : ∀ x ∈ xs, product.load (product.operands x) ≤ d) :
    Settles P Fault.HasCause (product.combineWith (collectPowersWith raise') xs) := by
  have m : Combines .product (collectPowersWith raise') xs _ := hr.left.shrinks.combineWith_combines
  refine (m.settles (hp.product_keeps hr) fun x hm _ _ => .of_mem fun y hy => ⟨?_, ?_⟩).mono
    (fun e => hp.gathered hx fun _ => And.left) (fun _ => id)
  · exact hp.operands (hx x hm) y hy
  · exact Nat.le_trans (product.labelWeight_le_load hy) (hd x hm)

-- Raising goes down to factors and to bases, which are less deep.
theorem raising (hp : Hereditary P) : Raising P d (raise d) := by
  refine ⟨raise_bounded, ?_⟩
  induction d with
  | zero => exact fun b _ _ hd => absurd b.weight_pos (Nat.not_lt.mpr hd)
  | succ d hi =>
    intro b n hb hd
    have hlt {s : Expr} (h : s.weight < b.weight) : s.weight ≤ d :=
      Nat.le_of_lt_succ (Nat.lt_of_lt_of_le h hd)
    have m := raise_raises d b n
    generalize raise (d + 1) b n = r at m
    cases m
    case zero => exact hp.num
    case one  => exact hb
    case num q _ _ _ =>
      rw [Coefficient.power_eq]
      split
      case isTrue  => exact trivial
      case isFalse => exact hp.num
    case whole s e k _ _ hs _ =>
      subst hs
      have ⟨hs, _⟩ := hp.pow.mp hb
      exact hp.powers hs hp.num (fun n => hi hs (hlt weight_base_lt)) (powerWith_powers ..)
    case pow s e _ _ hs _ =>
      subst hs
      have ⟨hs, he⟩ := hp.pow.mp hb
      exact hp.pow.mpr ⟨hs, hp.scale he⟩
    case fault xs f _ _ hs m =>
      subst hs
      have ⟨_, hx⟩ := hp.factors.mp hb
      exact m.settles (P := P) fun x hm => hi (hx x hm) (hlt (weight_factor_lt hm))
    case prod xs ys _ _ hs m =>
      subst hs
      have ⟨_, hx⟩ := hp.factors.mp hb
      have hy := m.settles fun x hm => (hi (hx x hm) (hlt (weight_factor_lt hm))).and fun y h =>
        Nat.le_trans (raise_bounded h) (hlt (weight_factor_lt hm))
      exact hp.combineWith ⟨raise_bounded, hi⟩ (fun y hm => (hy y hm).left)
        fun y hm => (hy y hm).right
    case atom => exact hp.pow.mpr ⟨hb, hp.num⟩

theorem powerOf (hp : Hereditary P) (hb : P b) (he : P e) :
    Settles P Fault.HasCause (powerOf b e) :=
  hp.powers hb he (fun _ => hp.raising.right hb (Nat.le_refl _)) (powerWith_powers ..)

theorem productOf (hp : Hereditary P) (hx : ∀ x ∈ xs, P x) :
    Settles P Fault.HasCause (productOf xs) :=
  hp.combineWith hp.raising hx fun _ hm =>
    Nat.le_trans load_operands_le_weight (weight_le_weights hm)

end Hereditary

theorem simplifyAll_eq_mapM {c xs} : simplifyAll c xs = xs.mapM (simplify c) := by
  induction xs with
  | nil => rfl
  | cons _ _ hi => simp only [simplifyAll, List.mapM_cons, hi]

theorem simplifyAll_settles {P F c xs} (h : ∀ x ∈ xs, Settles P F (simplify c x)) :
    Settles (∀ y ∈ ·, P y) F (simplifyAll c xs) :=
  simplifyAll_eq_mapM ▸ mapM_maps.settles h

theorem simplifyAll_eq_ok {c xs ys} :
    simplifyAll c xs = .ok ys ↔ List.Forall₂ (·.simplify c = .ok ·) xs ys := by
  induction xs generalizing ys with
  | nil => simp [simplifyAll, eq_comm]
  | cons x xs hi =>
    simp only [simplifyAll, List.forall₂_cons_left_iff, ←hi, bind, Except.bind]
    cases x.simplify c <;> cases simplifyAll c xs <;> simp [pure, Except.pure, eq_comm]

theorem factorialOf_cases {P : Expr → Prop} {limit e} (hn : ∀ {q}, P (num q)) (hf : P (fact e)) :
    P (factorialOf limit e) := by
  unfold factorialOf
  split <;> try split
  case h_1.isTrue => exact hn
  all_goals exact hf

-- The nodes that simplifying leaves in place, as far as a property allows for them.
def Builds (P : Expr → Prop) : Expr → Prop
  | sym s   => P (sym s)
  | fact _  => ∀ e, P e → P (fact e)
  | app s _ => ∀ xs, (∀ x ∈ xs, P x) → P (app s xs)
  | _       => True

theorem Hereditary.simplify {P} (hp : Hereditary P) {c} {e : Expr} (h : e.Every (Builds P)) :
    Settles P Fault.HasCause (simplify c e) := by
  induction e <;> simp only [Expr.simplify]
  case num => exact hp.num
  case sym => exact h
  case sum xs hi =>
    have hx := (every_sum.mp h).right
    have hs := simplifyAll_settles fun x hm => hi x hm (hx x hm)
    exact hs.bind fun ys hy => (hp.sumOf hy).mono (fun _ => id) (fun _ => False.elim)
  case prod xs hi =>
    have hx := (every_prod.mp h).right
    have hs := simplifyAll_settles fun x hm => hi x hm (hx x hm)
    exact hs.bind fun ys hy => hp.productOf hy
  case pow b e hb he =>
    have ⟨_, hb', he'⟩ := every_pow.mp h
    exact (hb hb').bind fun _ hb => (he he').bind fun _ he => hp.powerOf hb he
  case fact e hi =>
    have ⟨hf, he⟩ := every_fact.mp h
    exact (hi he).bind fun r hr => factorialOf_cases hp.num (hf r hr)
  case app s xs hi =>
    have ⟨ha, hx⟩ := every_app.mp h
    have hs := simplifyAll_settles fun x hm => hi x hm (hx x hm)
    exact hs.bind fun ys hy => ha ys hy

-- Sums and products of at least two operands.
def Solid : Expr → Prop
  | sum xs | prod xs => 2 ≤ xs.length
  | _                => True

theorem solid_hereditary : Hereditary (Every Solid) where
  num      := trivial
  node {o} := by cases o <;> simp [Operation.node, Solid]
  pow      := by simp [Solid]

theorem simplify_settles {c : Config} {e : Expr} :
    Settles (Every Solid) Fault.HasCause (e.simplify c) := by
  apply solid_hereditary.simplify
  apply Every.of_forall
  rintro ⟨⟩ <;> simp +contextual [Builds, Solid]

theorem simplify_terminates (c : Config) (e : Expr) :
    (∃ r, e.simplify c = .ok r) ∨ ∃ u, e.simplify c = .error (.undefined u) := by
  have hs := simplify_settles (c := c) (e := e)
  match h : e.simplify c with
  | .ok r                                       => exact .inl ⟨r, rfl⟩
  | .error (.undefined u)                       => exact .inr ⟨u, rfl⟩
  | .error .noLeadingFactor | .error .exhausted => exact (hs.error h).elim

end Expr

end ExactAlgebra
