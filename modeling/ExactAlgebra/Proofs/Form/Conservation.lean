import ExactAlgebra.Proofs.Form.Basic
import ExactAlgebra.Proofs.Operation.Combines
import ExactAlgebra.Proofs.Outcome
import Mathlib.Algebra.Order.Group.Multiset

-- What collecting conserves of all operands taken together, a merge conserves in whichever order
-- the operands meet.

namespace ExactAlgebra

open ExactAlgebra.Expr ExactAlgebra.Operation

variable {o : Operation} {collect : Expr → Expr → Except Fault Collected}
variable {I : Multiset Expr → Prop} {F : Fault → Prop}

-- A property of all the operands at hand that outlives the collecting of any two of them, with
-- faults `F` only.
structure Conserved (o : Operation) (collect : Expr → Expr → Except Fault Collected)
    (I : Multiset Expr → Prop) (F : Fault → Prop) : Prop where
  belongs {s} : I s → ∀ x ∈ s, Belongs o x
  cancelled {a b s} : I (a ::ₘ b ::ₘ s) → o.collectPair collect a b = .ok .cancelled → I s
  one {a b c s} : I (a ::ₘ b ::ₘ s) → o.collectPair collect a b = .ok (.one c) →
    I (o.operands c + s)
  fault {a b s f} : I (a ::ₘ b ::ₘ s) → o.collectPair collect a b = .error f → F f

-- What may end a merge early.
def Breaks (F : Fault → Prop) : Halt → Prop
  | .absorbed _ => False
  | .fault f    => F f

-- How a merge may end next to other operands.
def Remains (I : Multiset Expr → Prop) (F : Fault → Prop) (s : Multiset Expr) :
    Except Halt (List Expr) → Prop
  | .ok xs   => I (xs + s)
  | .error t => Breaks F t

theorem Remains.elsewhere {s s' t} (h : Remains I F s (.error t)) : Remains I F s' (.error t) :=
  h

-- The operands that an expression adds to those of others, which are none if it is the identity.
def Operation.parts (o : Operation) (e : Expr) : List Expr :=
  if o.isIdentity e then [] else o.operands e

theorem Operation.parts_eq {e} (h : o.isIdentity e = false) : o.parts e = o.operands e := by
  simp [parts, h]

theorem Operation.parts_gather {xs} (h : ∀ x ∈ xs, Belongs o x) : o.parts (o.gather xs) = xs := by
  match xs with
  | []          => simp [parts, gather, isIdentity]
  | [x]         =>
    have hx := h x (by simp)
    simp [parts, gather, hx.not_identity, operands_of_not_owns hx.not_owns]
  | x :: y :: xs => cases o <;> simp [parts, gather, node, isIdentity, Operation.operands]

theorem Operation.flatMap_parts {xs : List Expr} :
    xs.flatMap o.parts = (xs.filter (!o.isIdentity ·)).flatMap o.operands := by
  induction xs with
  | nil => rfl
  | cons x xs hi => cases hx : o.isIdentity x <;> simp [parts, hx, hi]

theorem Merges.conserves (hc : Conserved o collect I F) {out left right r s}
    (m : Merges o collect out left right r) (h : I (out + left + right + s)) :
    Remains I F s r := by
  have move {s t} (h : I s) (he : s = t) : I t := he ▸ h
  -- The two operands that a merge looks at, in front of all others.
  have heads {out left right : List Expr} {a b s} (h : I (out + ↑(a :: left) + ↑(b :: right) + s)) :
      I (a ::ₘ b ::ₘ (out + left + right + s)) := by
    refine move h ?_
    simp only [←Multiset.cons_coe, ←Multiset.singleton_add]
    ac_rfl
  -- A misfit and the output wait for the pending operands, which then wait for them.
  have wait {out left right cs : List Expr} {s} (h : I (cs + (out + left + right + s))) :
      I (([] : List Expr) + left + right + (cs + out + s)) := by
    refine move h ?_
    rw [Multiset.coe_nil, zero_add]
    ac_rfl
  have turn {out rest cs : List Expr} {s} (h : I (rest + (cs + out + s))) :
      I (([] : List Expr) + out.reverse + cs + (rest + s)) := by
    refine move h ?_
    rw [Multiset.coe_nil, zero_add, Multiset.coe_reverse]
    ac_rfl
  induction m generalizing s
  case left_done | right_done =>
    refine move h ?_
    rw [←Multiset.coe_add, Multiset.coe_reverse, Multiset.coe_nil, add_zero]
  case right hi | left hi =>
    refine hi (move h ?_)
    simp only [←Multiset.cons_coe, ←Multiset.singleton_add]
    ac_rfl
  case fault hf       => exact hc.fault (heads h) hf
  case cancel hp _ hi => exact hi (hc.cancelled (heads h) hp)
  all_goals replace h := hc.one (heads h) ‹_›
  case absorb ha =>
    obtain ⟨rfl, rfl⟩ := absorbs_iff.mp ha
    exact (hc.belongs h (num 0) (by simp [Operation.operands])).ne_zero rfl
  case requeue hf _ hi =>
    rw [operands_of_not_owns (fits_not_owns hf), Multiset.coe_singleton] at h
    refine hi (move h ?_)
    simp only [←Multiset.cons_coe, ←Multiset.singleton_add]
    ac_rfl
  case remerge front rest _ _ _ _ _ _ _ hi₁ hi₂ hi₃ =>
    have hrest  := hi₁ (wait h)
    have hfront := hi₂ (turn hrest)
    refine hi₃ (move hfront ?_)
    rw [Multiset.coe_nil, zero_add]
    ac_rfl
  case rest_halts hi       => exact (hi (wait h)).elsewhere
  case front_halts hi₁ hi₂ => exact (hi₂ (turn (hi₁ (wait h)))).elsewhere

-- Where nothing on one side collects with anything on the other, a merge keeps all operands.
theorem Merges.keeps {out left right r} (m : Merges o collect out left right r)
    (h : ∀ a ∈ left, ∀ b ∈ right, o.collectPair collect a b = .ok .apart) :
    ∃ ys : List Expr, r = .ok ys ∧ (ys : Multiset Expr) = out + left + right := by
  induction m
  case left_done | right_done =>
    refine ⟨_, rfl, ?_⟩
    rw [←Multiset.coe_add, Multiset.coe_reverse, Multiset.coe_nil, add_zero]
  case right hi =>
    have ⟨ys, hr, hy⟩ := hi fun a ha b hb => h a ha b (by simp [hb])
    refine ⟨ys, hr, hy.trans ?_⟩
    simp only [←Multiset.cons_coe, ←Multiset.singleton_add]
    ac_rfl
  case left hi =>
    have ⟨ys, hr, hy⟩ := hi fun a ha b hb => h a (by simp [ha]) b hb
    refine ⟨ys, hr, hy.trans ?_⟩
    simp only [←Multiset.cons_coe, ←Multiset.singleton_add]
    ac_rfl
  all_goals cases (h _ List.mem_cons_self _ List.mem_cons_self).symm.trans ‹_›

theorem MergesAll.conserves (hc : Conserved o collect I F) {out xs r s}
    (m : MergesAll o collect out xs r) (h : I (out + xs.flatMap o.operands + s)) :
    Remains I F s r := by
  have next {out xs : List Expr} {x s} (h : I (out + (x :: xs).flatMap o.operands + s)) :
      I (([] : List Expr) + out + o.operands x + (xs.flatMap o.operands + s)) := by
    simpa only [List.flatMap_cons, ←Multiset.coe_add, Multiset.coe_nil, zero_add, add_assoc] using h
  induction m generalizing s
  case nil         => simpa [Remains] using h
  case halts m     => exact (m.conserves hc (next h)).elsewhere
  case cons m _ hi =>
    have hout := m.conserves hc (next h)
    rw [Remains, ←add_assoc] at hout
    exact hi hout

theorem Conserved.not_absorbs (hc : Conserved o collect I F) {xs : List Expr} {s x}
    (h : I (xs.flatMap o.parts + s)) (hx : x ∈ xs) : o.absorbs x = false := by
  by_contra ha
  obtain ⟨rfl, rfl⟩ := absorbs_iff.mp (eq_true_of_ne_false ha)
  have hm : num 0 ∈ xs.flatMap product.parts := List.mem_flatMap.mpr ⟨_, hx, by decide⟩
  exact (hc.belongs h (num 0) (by simp [hm])).ne_zero rfl

theorem Combines.conserves (hc : Conserved o collect I F) {xs r s} (m : Combines o collect xs r)
    (h : I (xs.flatMap o.parts + s)) : Settles (fun e => I (o.parts e + s)) F r := by
  have ha {x} (hx : x ∈ xs) : o.absorbs x = false := hc.not_absorbs h hx
  rw [flatMap_parts] at h
  have hs : I (([] : List Expr) + (sort (xs.filter (!o.isIdentity ·))).flatMap o.operands + s) := by
    rw [Multiset.coe_nil, zero_add, Multiset.coe_eq_coe.mpr (sort_perm.flatMap_right _)]
    exact h
  cases m
  case absorbing he ha' => simp [ha he] at ha'
  case none hi =>
    rw [List.filter_eq_nil_iff.mpr (by simpa using hi)] at h
    simpa [Settles, parts, isIdentity] using h
  case one x _ hi =>
    have hx : x ∈ xs.filter (!o.isIdentity ·) := by simp [hi]
    have hn : o.isIdentity x = false := by simpa using (List.mem_filter.mp hx).right
    simpa [Settles, parts, hn, hi] using h
  case merged ys _ m =>
    have hy : I (ys + s) := m.conserves hc hs
    have hb : ∀ y ∈ ys, Belongs o y := fun y hm => hc.belongs hy y (by simp [hm])
    rwa [Settles, parts_gather hb]
  case absorbed m => exact (m.conserves hc hs).elim
  case fault m    => exact m.conserves hc hs

theorem Combines.conserves_alone (hc : Conserved o collect I F) {xs r} (m : Combines o collect xs r)
    (h : I (xs.flatMap o.parts)) : Settles (fun e => I (o.parts e)) F r := by
  simpa only [add_zero] using m.conserves hc (s := 0) (by rwa [add_zero])

end ExactAlgebra
