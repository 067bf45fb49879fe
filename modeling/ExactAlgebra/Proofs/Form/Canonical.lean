import ExactAlgebra.Proofs.Form.Apart
import ExactAlgebra.Proofs.Form.Neat

-- In canonical trees nothing is left to collect. As long as bases are not opened up, collecting
-- powers never changes a base, and so simplifying gets everything collected.

namespace ExactAlgebra

open ExactAlgebra.Expr ExactAlgebra.Operation

namespace Expr

-- At most one operand is a number, and no two others have a symbolic part or a base in common.
def FullyCollected : Expr → Prop
  | sum xs  => (xs.map Operation.sum.label?).Nodup
  | prod xs => (xs.map product.label?).Nodup
  | _       => True

structure Canonical (limit : Nat) (e : Expr) : Prop where
  neat           : e.Neat limit
  collected      : e.FullyCollected
  no_zero_powers : ∀ q, e ≠ pow (num 0) (num q)

-- Canonical nodes whose powers keep their bases.
structure Plain (limit : Nat) (e : Expr) : Prop extends Canonical limit e where
  atomic : ∀ b f, e = pow b f → b.Atomic

variable {limit : Nat} {b e s : Expr} {o : Operation} {xs : List Expr}

theorem canonical_node : (o.node xs).Canonical limit ↔
    2 ≤ xs.length ∧ Listed (Belongs o) o.Apart xs := by
  have hcollected : (o.node xs).FullyCollected ↔ xs.Pairwise (o.label? · ≠ o.label? ·) := by
    cases o <;> simp only [node, FullyCollected, List.Nodup, List.pairwise_map]
  have hpower q : o.node xs ≠ pow (num 0) (num q) := by cases o <;> simp [node]
  constructor
  case mp =>
    rintro ⟨hn, hc, -⟩
    obtain ⟨hl, hb, hs⟩ := neat_form.node.mp hn
    exact ⟨hl, hb, hs.and (hcollected.mp hc)⟩
  case mpr =>
    rintro ⟨hl, hb, hs⟩
    refine ⟨neat_form.node.mpr ⟨hl, hb, hs.imp And.left⟩, ?_, hpower⟩
    exact hcollected.mpr (hs.imp And.right)

theorem canonical_form : Form (Canonical limit) Apart where
  number          := ⟨trivial, trivial, by simp⟩
  node            := canonical_node
  trailing hx h   := (@neat_form limit).trailing hx h.left
  leading {q x} h := by
    refine ⟨compare_num_left h, ?_⟩
    cases x <;> simp_all [level, label?, base?]

theorem plain_form : Form (Plain limit) Apart where
  number   := ⟨canonical_form.number, by simp⟩
  leading  := (@canonical_form limit).leading
  trailing := (@canonical_form limit).trailing
  node {o xs} := by
    rw [←@canonical_node limit]
    refine ⟨Plain.toCanonical, fun h => ⟨h, fun b f hn => ?_⟩⟩
    cases o <;> cases hn

-- A base that cannot be opened up stays the base of all its powers, or is gone.

theorem raise_atomic (hs : s.Atomic) {d} {n : Int} {r} (h : raise d s n = .ok r) :
    r = num 1 ∨ r.base? = some s := by
  cases d with
  | zero   => cases h
  | succ d =>
    have m := raise_raises d s n
    generalize raise (d + 1) s n = r' at h m
    cases m
    case zero => cases h; exact .inl rfl
    case one  => cases h; cases s <;> first | exact False.elim hs | exact .inr rfl
    case atom => cases h; exact .inr rfl
    case num hb | pow hb _ | whole hb _ | fault hb _ | prod hb _ =>
      subst hb
      exact False.elim hs

theorem powerWith_atomic (hs : s.Atomic) {d r} (h : powerWith (raise d) s e = .ok r) :
    r = num 1 ∨ r.base? = some s := by
  have m := powerWith_powers (raise d) s e
  generalize powerWith (raise d) s e = r' at h m
  cases m
  case whole => exact raise_atomic hs h
  case apart => cases h; exact .inr rfl
  case zero hb _ _ | undefined hb _ _ | symbolic hb _ | one hb =>
    subst hb
    exact False.elim hs

theorem collectPair_base {a b c : Expr} {d} (ha : ∀ s, a.base? = some s → s.Atomic)
    (h : product.collectPair (collectPowersWith (raise d)) a b = .ok (.one c)) :
    c.base? = a.base? := by
  obtain ⟨_, _, rfl, -, rfl, -⟩ | h := collectPair_eq_one h
  case inl => rfl
  case inr =>
    have ⟨s, _, _, _, has, _, _, _, _, hr, h₁⟩ := collectPowersWith_eq_one h
    have hc := (powerWith_atomic (ha s has) hr).resolve_left h₁
    exact hc.trans has.symm

theorem plain_base (h : e.Every (Plain limit)) (he : Belongs .product e) (hs : e.base? = some s) :
    s.Atomic := by
  cases e <;> cases hs
  case prod => cases he.not_owns
  case pow  => exact h.here.atomic _ _ rfl
  all_goals exact trivial

theorem plain_proper (h : e.Plain limit) : e.Proper :=
  h.neat.proper

theorem plain_pow (hb : b.Atomic) (h₀ : e ≠ num 0) (h₁ : e ≠ num 1) : (pow b e).Plain limit where
  neat           := ⟨by rintro rfl; exact hb, h₀, h₁, fun _ _ => hb⟩
  collected      := trivial
  no_zero_powers := by rintro q ⟨⟩; exact hb
  atomic         := by rintro _ _ ⟨⟩; exact hb

theorem plain_admits (hb : b.Atomic) : Admits (Plain limit) b :=
  fun _ _ he _ => plain_pow hb (integer?_eq_none he 0) (integer?_eq_none he 1)

theorem plain_keeps_product {d} (hr : Preserves (Plain limit) (raise d)) :
    Keeps .product (collectPowersWith (raise d)) (Member (Plain limit) .product) product.Apart
      fun _ => True := by
  have hsum := plain_form.apart_keeps_sum fun _ => @plain_proper limit _
  refine plain_form.apart_keeps (fun _ => plain_proper) id ?_ ?_ ?_
  · exact fun _ _ h => product_apart_iff.mp h
  · intro a b c ha hb h hc
    refine plain_form.product_collected hr (fun hs => ?_) hsum ha hb h hc
    exact plain_admits (plain_base ha.every ha.toBelongs hs)
  · exact fun ha _ h _ => collectPair_base (fun _ => plain_base ha.every ha.toBelongs) h

theorem plain_kept : Kept limit (Plain limit) Apart where
  toForm        := plain_form
  sym           := ⟨⟨trivial, trivial, by simp⟩, by simp⟩
  app           := ⟨⟨trivial, trivial, by simp⟩, by simp⟩
  fact h        := ⟨⟨h, trivial, by simp⟩, by simp⟩
  keeps_sum     := plain_form.apart_keeps_sum fun _ => plain_proper
  keeps_product := plain_keeps_product
  atom hb h₀ h₁ := plain_pow (atomic_iff.mpr hb) (by simpa) (by simpa)
  again h _ he  := plain_pow (h.atomic _ _ rfl) (integer?_eq_none he 0) (integer?_eq_none he 1)

-- Trees that do not ask for the power of a sum, a product or a power, other than a whole one.
def Tame : Expr → Prop
  | pow b e => (∃ n : Int, e = num n) ∨ (∃ s, b = sym s) ∨ ∃ s xs, b = app s xs
  | _       => True

theorem tractable_of_tame {c : Config} (h : e.Tame) :
    Kept.Tractable c (Plain c.factorialLimit) e := by
  cases e <;> try exact trivial
  case pow b e =>
    intro b' e' hb he
    obtain ⟨n, rfl⟩ | ⟨s, rfl⟩ | ⟨s, xs, rfl⟩ := h
    case inl     => exact .inr ⟨n, by cases he; rfl⟩
    case inr.inl => exact .inl <| plain_admits <| by cases hb; exact trivial
    case inr.inr =>
      rw [simplify] at hb
      cases hx : simplifyAll c xs <;> rw [hx] at hb <;> cases hb
      exact .inl <| plain_admits trivial

theorem yields_plain {c : Config} (h : e.Every Tame) :
    Yields (Plain c.factorialLimit) (e.simplify c) :=
  plain_kept.simplify <| h.mono fun _ => tractable_of_tame

end Expr

end ExactAlgebra
