import ExactAlgebra.Proofs.Expr.Sort
import ExactAlgebra.Proofs.Form.Neat
import ExactAlgebra.Proofs.Operation.Budget
import ExactAlgebra.Proofs.Operation.Scale

-- The order of operands does not matter to simplification, and neither do operands that are the
-- identity of their operation.

namespace ExactAlgebra

open ExactAlgebra.Expr ExactAlgebra.Operation

-- What can be done to a tree in any number of places: operands change their order, and literals
-- that are the identity of their operation join them.
inductive Expr.Rearranges : Expr → Expr → Prop
  | refl {e} : Rearranges e e
  | trans {a b c} (h₁ : Rearranges a b) (h₂ : Rearranges b c) : Rearranges a c
  | perm {o : Operation} {xs ys} (h : xs.Perm ys) : Rearranges (o.node xs) (o.node ys)
  | identity {o : Operation} {xs} : Rearranges (o.node xs) (o.node (num o.identity :: xs))
  | operand {o : Operation} {x y xs ys} (h : Rearranges x y) :
      Rearranges (o.node (xs ++ x :: ys)) (o.node (xs ++ y :: ys))
  | base {b c e} (h : Rearranges b c) : Rearranges (pow b e) (pow c e)
  | exponent {b e f} (h : Rearranges e f) : Rearranges (pow b e) (pow b f)
  | fact {e f} (h : Rearranges e f) : Rearranges (fact e) (fact f)
  | arg {s x y xs ys} (h : Rearranges x y) :
      Rearranges (app s (xs ++ x :: ys)) (app s (xs ++ y :: ys))

theorem Fault.hasCause_iff {f : Fault} : f.HasCause ↔ ∃ u, f = .undefined u := by
  cases f <;> simp [Fault.HasCause]

namespace Operation

variable {o : Operation} {collect : Expr → Expr → Except Fault Collected} {xs ys : List Expr}

-- Operands are combined by way of the sorted list of those that are not the identity.
theorem combineWith_eq_of_perm (hx : ∀ x ∈ xs, x.Every Proper)
    (h : (xs.filter (!o.isIdentity ·)).Perm (ys.filter (!o.isIdentity ·))) :
    o.combineWith collect xs = o.combineWith collect ys := by
  have hmem {x} (hi : o.isIdentity x = false) : x ∈ xs ↔ x ∈ ys := by
    simpa [hi] using h.mem_iff (a := x)
  by_cases ha : ∃ x ∈ xs, o.absorbs x
  case pos =>
    obtain ⟨x, hx, ha⟩ := ha
    obtain ⟨rfl, rfl⟩ := absorbs_iff.mp ha
    rw [combineWith_absorbed hx, combineWith_absorbed ((hmem rfl).mp hx)]
  case neg =>
    have hnone {zs : List Expr} (hz : ∀ x ∈ zs, o.isIdentity x = false → x ∈ xs) :
        zs.find? o.absorbs = none := by
      refine List.find?_eq_none.mpr fun x hm hx => ha ⟨x, hz x hm ?_, hx⟩
      obtain ⟨rfl, rfl⟩ := absorbs_iff.mp hx
      rfl
    have hf : ∀ x ∈ xs.filter (!o.isIdentity ·), x.Every Proper :=
      fun x hm => hx x (List.mem_of_mem_filter hm)
    simp only [combineWith, hnone fun _ hm _ => hm, hnone fun x hm hi => (hmem hi).mpr hm]
    generalize xs.filter (!o.isIdentity ·) = us at h hf
    generalize ys.filter (!o.isIdentity ·) = vs at h
    have hl := h.length_eq
    rcases us with _ | ⟨u, _ | ⟨u', us⟩⟩ <;> rcases vs with _ | ⟨v, _ | ⟨v', vs⟩⟩ <;> try cases hl
    case nil.nil             => rfl
    case cons.nil.cons.nil   => simpa using h
    case cons.cons.cons.cons => simp only [sort_eq_of_perm hf h]

-- The canonical sum or product of canonical operands.
def combine : Operation → List Expr → Except Fault Expr
  | sum     => sumOf
  | product => productOf

theorem combine_eq_of_perm (hp : ∀ x ∈ xs, x.Every Proper) (hx : ∀ x ∈ xs, x.Every Solid)
    (hy : ∀ y ∈ ys, y.Every Solid)
    (h : (xs.filter (!o.isIdentity ·)).Perm (ys.filter (!o.isIdentity ·))) :
    o.combine xs = o.combine ys := by
  cases o
  case sum     => exact combineWith_eq_of_perm hp h
  case product =>
    -- The two bounds on the depth differ, since identities add to the weight.
    rw [combine, productOf_eq hx (Nat.le_add_right _ (weights ys)),
      productOf_eq hy (Nat.le_add_left _ (weights xs))]
    exact combineWith_eq_of_perm hp h

end Operation

namespace Expr

variable {c : Config} {o : Operation} {b e f r x y : Expr} {xs ys zs : List Expr}

theorem simplify_node : (o.node xs).simplify c = simplifyAll c xs >>= o.combine := by
  cases o <;> rfl

theorem simplifyAll_results (h : simplifyAll c xs = .ok ys) :
    ∀ y ∈ ys, y.Every Proper ∧ y.Every Solid := by
  have hs (x : Expr) := (simplify_settles (c := c) (e := x)).and fun r hr =>
    (yields_neat.ok hr).mono fun _ => Neat.proper
  exact fun y hy => ((simplifyAll_settles fun x _ => hs x).ok h y hy).symm

theorem simplify_node_perm (hp : xs.Perm ys) (h : (o.node xs).simplify c = .ok r) :
    (o.node ys).simplify c = .ok r := by
  rw [simplify_node, bind_eq_ok] at h ⊢
  have ⟨us, hu, hr⟩ := h
  have ⟨vs, hv, hvu⟩ := List.perm_comp_forall₂ hp.symm (simplifyAll_eq_ok.mp hu)
  replace hv := simplifyAll_eq_ok.mpr hv
  refine ⟨vs, hv, ?_⟩
  rw [←hr]
  exact combine_eq_of_perm (fun x hx => (simplifyAll_results hv x hx).left)
    (fun x hx => (simplifyAll_results hv x hx).right)
    (fun x hx => (simplifyAll_results hu x hx).right) (hvu.filter _)

theorem simplify_node_identity :
    (o.node (num o.identity :: xs)).simplify c = (o.node xs).simplify c := by
  simp only [simplify_node, simplifyAll, simplify]
  cases h : simplifyAll c xs <;> simp only [bind, Except.bind]
  case ok ys =>
    have hy := simplifyAll_results h
    have h₁ : ∀ y ∈ num o.identity :: ys, y.Every Proper ∧ y.Every Solid :=
      List.forall_mem_cons.mpr ⟨⟨trivial, trivial⟩, hy⟩
    refine combine_eq_of_perm (fun y hm => (h₁ y hm).left) (fun y hm => (h₁ y hm).right)
      (fun y hm => (hy y hm).right) ?_
    simp [isIdentity]

-- Of two trees, either has the results of the other.
def Alike (c : Config) (e f : Expr) : Prop :=
  ∀ r, e.simplify c = .ok r ↔ f.simplify c = .ok r

theorem Alike.operand (h : Alike c x y) :
    simplifyAll c (xs ++ x :: ys) = .ok zs ↔ simplifyAll c (xs ++ y :: ys) = .ok zs := by
  simp only [simplifyAll_eq_ok]
  induction xs generalizing zs with
  | nil => simp only [List.nil_append, List.forall₂_cons_left_iff, h _]
  | cons _ _ hi => simp only [List.cons_append, List.forall₂_cons_left_iff, hi]

theorem Rearranges.alike (h : Rearranges e f) : Alike c e f := by
  induction h with
  | refl           => exact fun _ => Iff.rfl
  | trans _ _ h h' => exact fun r => (h r).trans (h' r)
  | perm h         => exact fun _ => ⟨simplify_node_perm h, simplify_node_perm h.symm⟩
  | identity       => exact fun _ => by rw [simplify_node_identity]
  | operand _ hi   => exact fun _ => by simp only [simplify_node, bind_eq_ok, hi.operand]
  | base _ hi      => exact fun _ => by simp only [simplify, bind_eq_ok, hi _]
  | exponent _ hi  => exact fun _ => by simp only [simplify, bind_eq_ok, hi _]
  | fact _ hi      => exact fun _ => by simp only [simplify, bind_eq_ok, hi _]
  | arg _ hi       => exact fun _ => by simp only [simplify, bind_eq_ok, hi.operand]

theorem simplify_rearranged (c : Config) {e f : Expr} (h : Rearranges e f) :
    (∃ u v, e.simplify c = .error (.undefined u) ∧ f.simplify c = .error (.undefined v)) ∨
      ∃ r, e.simplify c = .ok r ∧ f.simplify c = .ok r := by
  have ha : Alike c e f := h.alike
  have hs {e : Expr} {t} (h : e.simplify c = .error t) : ∃ u, t = .undefined u :=
    Fault.hasCause_iff.mp <| simplify_settles.error h
  match he : e.simplify c, hf : f.simplify c with
  | .ok r, _              => exact .inr ⟨r, rfl, hf.symm.trans <| (ha r).mp he⟩
  | .error _, .ok r       => cases he.symm.trans <| (ha r).mpr hf
  | .error _, .error _    =>
    obtain ⟨u, rfl⟩ := hs he
    obtain ⟨v, rfl⟩ := hs hf
    exact .inl ⟨u, v, rfl, rfl⟩

-- A quotient whose operands change places and are joined by zeros and ones.
theorem simplify_rearranged_quotient :
    let e := prod [sum [prod [sym "z", sym "x"], sym "y"], pow (sum [num 2, sym "x"]) (num (-1))]
    let f := prod [pow (sum [num 0, sym "x", num 2]) (num (-1)),
      sum [sym "y", prod [num 1, sym "x", sym "z"]]]
    let r := prod [pow (sum [num 2, sym "x"]) (num (-1)), sum [sym "y", prod [sym "x", sym "z"]]]
    Rearranges e f ∧ e.simplify {} = .ok r ∧ f.simplify {} = .ok r := by
  intro e f r
  have hb : Rearranges (sum [num 2, sym "x"]) (sum [num 0, sym "x", num 2]) :=
    .trans (.perm (o := .sum) (.swap ..)) (.identity (o := .sum))
  have hp : Rearranges (prod [sym "z", sym "x"]) (prod [num 1, sym "x", sym "z"]) :=
    .trans (.perm (o := .product) (.swap ..)) (.identity (o := .product))
  have ht : Rearranges (sum [prod [sym "z", sym "x"], sym "y"])
      (sum [sym "y", prod [num 1, sym "x", sym "z"]]) :=
    .trans (.perm (o := .sum) (.swap ..)) (@Rearranges.operand .sum _ _ [sym "y"] [] hp)
  have h : Rearranges e f :=
    .trans (.perm (o := .product) (.swap ..)) <|
      .trans (@Rearranges.operand .product _ _ [] [_] hb.base)
        (@Rearranges.operand .product _ _ [_] [] ht)
  have he : e.simplify {} = .ok r := by cbv
  refine ⟨h, he, ?_⟩
  obtain ⟨u, _, hu, _⟩ | ⟨r', hr, hf⟩ := simplify_rearranged {} h
  case inl => cases he.symm.trans hu
  case inr =>
    cases he.symm.trans hr
    exact hf

end Expr

end ExactAlgebra
