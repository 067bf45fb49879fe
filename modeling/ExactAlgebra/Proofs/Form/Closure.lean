import ExactAlgebra.Proofs.Form.Basic
import ExactAlgebra.Proofs.Simplify.Termination

-- Combining, raising and simplifying keep a form whose order collecting keeps.

namespace ExactAlgebra

open ExactAlgebra.Expr ExactAlgebra.Operation

-- A computation that ends in a tree of a form, if at all.
abbrev Yields (p : Expr → Prop) : Except Fault Expr → Prop :=
  Settles (Every p) fun _ => True

def Preserves (p : Expr → Prop) (raise' : Expr → Int → Except Fault Expr) : Prop :=
  ∀ ⦃b⦄, b.Every p → ∀ n, Yields p (raise' b n)

-- A base that may keep every exponent that does not tell how to raise it.
def Admits (p : Expr → Prop) (b : Expr) : Prop :=
  ∀ ⦃e⦄, b ≠ num 1 → e.integer? = none → (b = num 0 → 0 < e.level) → p (pow b e)

-- A form that all the steps keep up to the factorials of numbers beyond a limit.
structure Kept (limit : Nat) (p : Expr → Prop) (R : Operation → Expr → Expr → Prop) : Prop
    extends Form p R where
  sym {s} : p (sym s)
  app {s xs} : p (app s xs)
  fact {e} : (∀ n : Nat, n ≤ limit → e ≠ num n) → p (fact e)
  atom {b} {n : Int} : 2 < b.level → n ≠ 0 → n ≠ 1 → p (pow b (num n))
  again {b e} {n : Int} : p (pow b e) → n ≠ 0 → (scale n e).integer? = none → p (pow b (scale n e))
  keeps_sum : Keeps .sum collectTerms (Member p .sum) (R .sum) fun _ => True
  keeps_product {d} : Preserves p (raise d) →
    Keeps .product (collectPowersWith (raise d)) (Member p .product) (R .product) fun _ => True

namespace Form

variable {p : Expr → Prop} {R : Operation → Expr → Expr → Prop}
variable {o : Operation} {collect : Expr → Expr → Except Fault Collected}
variable {a b c e : Expr} {xs : List Expr}

theorem combined (hf : Form p R) (hk : Keeps o collect (Member p o) (R o) fun _ => True)
    (hx : ∀ x ∈ xs, x.Every p) {r} (m : Combines o collect xs r) : Yields p r :=
  (m.settles hk fun x hm ha hi => hf.operands (hx x hm) hi ha).mono
    (fun _ => hf.gathered hx) (fun _ => id)

theorem sumOf (hf : Form p R) (hk : Keeps .sum collectTerms (Member p .sum) (R .sum) fun _ => True)
    (hx : ∀ x ∈ xs, x.Every p) : Yields p (sumOf xs) :=
  hf.combined hk hx sum_shrinks.combineWith_combines

theorem solid (hf : Form p R) (h : e.Every p) : e.Every Solid := by
  refine h.mono fun e he => ?_
  cases e
  case sum  => exact (hf.node (o := .sum).mp he).left
  case prod => exact (hf.node (o := .product).mp he).left
  all_goals exact trivial

-- No sum of trees of a form is at fault.
theorem sumOf_ok (hf : Form p R)
    (hk : Keeps .sum collectTerms (Member p .sum) (R .sum) fun _ => True)
    (hx : ∀ x ∈ xs, x.Every p) : ∃ r, Expr.sumOf xs = .ok r ∧ r.Every p := by
  have hy := hf.sumOf hk hx
  have hs := solid_hereditary.sumOf fun x hm => hf.solid (hx x hm)
  match h : Expr.sumOf xs with
  | .ok r    => exact ⟨r, rfl, hy.ok h⟩
  | .error f => exact (hs.error h).elim

theorem exponent (hf : Form p R) (h : a.Every p) {f} (hf' : a.exponent? = some f) : f.Every p :=
  h.exponent hf.number hf'

-- Two terms collect to a term that is not 0.
theorem sum_collected (hf : Form p R) (ha : Member p .sum a)
    (h : Operation.sum.collectPair collectTerms a b = .ok (.one c)) :
    Listed (Member p .sum) (R .sum) (Operation.sum.operands c) := by
  obtain ⟨_, _, _, _, rfl, hc⟩ | h := collectPair_eq_one h
  case inl => exact hf.operands hf.number (isIdentity_eq_false.mpr (by simpa using hc)) rfl
  case inr =>
    have ⟨_, _, t, ht, _, hc, hs⟩ := collectTerms_eq_one h
    have ⟨htp, ht₀⟩ := hf.symbolic ha.every ht
    rw [hs]
    exact hf.operands (hf.scale htp) (isIdentity_eq_false.mpr (hf.scale_ne_zero htp hc ht₀)) rfl

theorem powers (hf : Form p R) {raise'} (hr : Preserves p raise') (hb : b.Every p) (he : e.Every p)
    (ha : Admits p b ∨ ∃ n : Int, e = num n) {r} (m : Powers raise' b e r) : Yields p r := by
  have hpow (h₁ : b ≠ num 1) (hi : e.integer? = none) (h₀ : b = num 0 → 0 < e.level) :
      (pow b e).Every p := by
    refine ⟨?_, hb, he⟩
    obtain ha | ⟨n, rfl⟩ := ha
    case inl => exact ha h₁ hi h₀
    case inr => simp [integer?] at hi
  cases m
  case zero | one       => exact hf.number
  case undefined        => exact trivial
  case whole            => exact hr hb _
  case symbolic hb he   =>
    have hi : e.integer? = none := by cases e <;> simp_all [integer?, level]
    exact hpow (by simp [hb]) hi fun _ => he
  case apart h₀ h₁ he   => exact hpow h₁ he fun h => absurd h h₀

-- Two factors collect to a power of their base.
theorem product_collected (hf : Form p R) {raise'} (hr : Preserves p raise')
    (hs : ∀ {s}, a.base? = some s → Admits p s)
    (hk : Keeps .sum collectTerms (Member p .sum) (R .sum) fun _ => True)
    (ha : Member p .product a) (hb : Member p .product b)
    (h : product.collectPair (collectPowersWith raise') a b = .ok (.one c))
    (hc : product.absorbs c = false) :
    Listed (Member p .product) (R .product) (product.operands c) := by
  obtain ⟨_, _, _, _, rfl, h₁⟩ | h := collectPair_eq_one h
  case inl => exact hf.operands hf.number (isIdentity_eq_false.mpr (by simpa using h₁)) hc
  case inr =>
    have ⟨s, e, f, g, has, hbs, hae, hbf, hg, hr', h₁⟩ := collectPowersWith_eq_one h
    have hsum : Yields p (Expr.sumOf [e, f]) :=
      hf.sumOf hk <| by simp [hf.exponent ha.every hae, hf.exponent hb.every hbf]
    have hce :=
      (hf.powers hr (ha.every.base has) (hsum.ok hg) (.inl (hs has)) (powerWith_powers ..)).ok hr'
    exact hf.operands hce (isIdentity_eq_false.mpr h₁) hc

end Form

namespace Kept

variable {limit : Nat} {p : Expr → Prop} {R : Operation → Expr → Expr → Prop}
variable {b e : Expr} {xs : List Expr} {d : Nat} {n : Int}

theorem raise (hp : Kept limit p R) : Preserves p (raise d) := by
  induction d with
  | zero => exact fun _ _ _ => trivial
  | succ d hi =>
    intro b hb n
    have m := raise_raises d b n
    generalize Expr.raise (d + 1) b n = r at m
    cases m
    case zero => exact hp.number
    case one  => exact hb
    case num q _ _ _ =>
      cases Coefficient.power q n
      case error => exact trivial
      case ok    => exact hp.number
    case whole s e k _ _ hs _ =>
      subst hs
      exact hp.powers (e := num k) hi hb.right.left hp.number (.inr ⟨k, rfl⟩) (powerWith_powers ..)
    case pow s e h₀ _ hs hk =>
      subst hs
      exact ⟨hp.again hb.here h₀ hk, hb.right.left, hp.scale hb.right.right⟩
    case fault => exact trivial
    case prod xs ys _ _ hs m =>
      subst hs
      have hy := m.settles fun x hx => hi (hb.operands .product x hx) n
      exact hp.combined (hp.keeps_product hi) hy raise_bounded.shrinks.combineWith_combines
    case atom h₀ h₁ hl => exact ⟨hp.atom hl h₀ h₁, hb, hp.number⟩

theorem productOf (hp : Kept limit p R) (hx : ∀ x ∈ xs, x.Every p) : Yields p (productOf xs) :=
  hp.combined (hp.keeps_product hp.raise) hx product_shrinks.combineWith_combines

theorem powerOf (hp : Kept limit p R) (hb : b.Every p) (he : e.Every p)
    (ha : Admits p b ∨ ∃ n : Int, e = num n) : Yields p (powerOf b e) :=
  hp.powers hp.raise hb he ha (powerWith_powers ..)

theorem factorialOf (hp : Kept limit p R) (he : e.Every p) : (factorialOf limit e).Every p := by
  have hk {k : Nat} : (num k).integer? = some (k : Int) := integer?_eq_some_iff.mpr rfl
  unfold Expr.factorialOf
  split
  case h_2 hn =>
    refine ⟨hp.fact ?_, he⟩
    rintro k - rfl
    cases hk.symm.trans hn
  case h_1 n hn =>
    split
    case isTrue    => exact hp.number
    case isFalse h =>
      refine ⟨hp.fact ?_, he⟩
      rintro k hl rfl
      cases hk.symm.trans hn
      omega

-- Powers whose simplified base and exponent leave a power of the form.
def Tractable (c : Config) (p : Expr → Prop) : Expr → Prop
  | pow b e => ∀ b' e', b.simplify c = .ok b' → e.simplify c = .ok e' →
    Admits p b' ∨ ∃ n : Int, e' = num n
  | _       => True

theorem simplify {c : Config} (hp : Kept c.factorialLimit p R) (h : e.Every (Tractable c p)) :
    Yields p (e.simplify c) := by
  induction e <;> simp only [Expr.simplify]
  case num => exact hp.number
  case sym => exact hp.sym
  case sum xs hi =>
    have hx := (every_sum.mp h).right
    have hs := simplifyAll_settles fun x hm => hi x hm (hx x hm)
    exact hs.bind fun ys hy => hp.sumOf hp.keeps_sum hy
  case prod xs hi =>
    have hx := (every_prod.mp h).right
    have hs := simplifyAll_settles fun x hm => hi x hm (hx x hm)
    exact hs.bind fun ys hy => hp.productOf hy
  case pow b e hb he =>
    obtain ⟨ht, hb', he'⟩ := every_pow.mp h
    refine ((hb hb').and fun _ => id).bind fun b' hb => ?_
    refine ((he he').and fun _ => id).bind fun e' he => ?_
    exact hp.powerOf hb.left he.left (ht b' e' hb.right he.right)
  case fact e hi =>
    have he := (every_fact.mp h).right
    exact (hi he).bind fun r hr => hp.factorialOf hr
  case app s xs hi =>
    have hx := (every_app.mp h).right
    have hs := simplifyAll_settles fun x hm => hi x hm (hx x hm)
    exact hs.bind fun ys hy => every_app.mpr ⟨hp.app, hy⟩

end Kept

end ExactAlgebra
