import ExactAlgebra.Proofs.Form.Canonical

-- Canonical trees are the fixed points of simplification.

namespace ExactAlgebra

open ExactAlgebra.Expr ExactAlgebra.Operation

variable {o : Operation} {collect : Expr → Expr → Except Fault Collected}

theorem Expr.sort_of_sorted {xs} (h : xs.Pairwise Precedes) : sort xs = xs := by
  induction xs with
  | nil => rfl
  | cons x xs hi =>
    have ⟨hx, hxs⟩ := List.pairwise_cons.mp h
    rw [sort, hi hxs]
    cases xs with
    | nil       => rfl
    | cons y ys => rw [Expr.insert, if_neg (by rw [hx y (by simp)]; simp)]

-- Operands that neither collect with nor come after another one.
def Operation.Passes (o : Operation) (collect : Expr → Expr → Except Fault Collected) (a b : Expr) :
    Prop :=
  o.collectPair collect a b = .ok .apart ∧ Precedes a b

theorem Merges.appends {out left x r} (h : ∀ a ∈ left, o.Passes collect a x)
    (m : Merges o collect out left [x] r) : r = .ok (out.reverse ++ left ++ [x]) := by
  induction left generalizing out with
  | nil =>
    cases m
    simp
  | cons a left hi =>
    have ⟨⟨hp, hlt⟩, hx⟩ := List.forall_mem_cons.mp h
    have hgt : compare x a = .gt := compare_eq_gt_iff.mpr hlt
    cases m
    case left m     => simpa using hi hx m
    case right hc _ => cases hgt.symm.trans hc
    all_goals cases hp.symm.trans ‹o.collectPair collect a x = _›

theorem MergesAll.appends {out xs r} (hx : ∀ x ∈ xs, o.owns x = false)
    (h : (out ++ xs).Pairwise (o.Passes collect)) (m : MergesAll o collect out xs r) :
    r = .ok (out ++ xs) := by
  induction m
  case nil => simp
  case cons out x _ xs r m ms hi =>
    have ⟨hxo, hxs⟩ := List.forall_mem_cons.mp hx
    have ⟨_, _, hlast⟩ := List.pairwise_append.mp h
    rw [operands_of_not_owns hxo] at m
    cases m.appends fun a ha => hlast a ha x (by simp)
    simpa using hi hxs (by simpa using h)
  case halts out x t xs m =>
    have ⟨hxo, _⟩ := List.forall_mem_cons.mp hx
    have ⟨_, _, hlast⟩ := List.pairwise_append.mp h
    rw [operands_of_not_owns hxo] at m
    cases m.appends fun a ha => hlast a ha x (by simp)

-- Operands that come back as they were carry what they carried, and so none of them has collected.

theorem Merges.passes (hs : o.Shrinks collect) {out left x r ys}
    (m : Merges o collect out left [x] r) (hr : r = .ok ys)
    (hl : o.load out + o.load left + o.labelWeight x ≤ o.load ys)
    (hx : ∀ a ∈ left, Precedes a x) : ∀ a ∈ left, o.Passes collect a x := by
  induction left generalizing out with
  | nil => simp
  | cons a left hi =>
    have ⟨hax, hleft⟩ := List.forall_mem_cons.mp hx
    have hp : o.collectPair collect a x = .ok .apart := by
      by_contra hp
      have := hs.load_lt_of_collected hp m hr
      simp at this hl
      omega
    have hgt : compare x a = .gt := compare_eq_gt_iff.mpr hax
    refine List.forall_mem_cons.mpr ⟨⟨hp, hax⟩, ?_⟩
    cases m
    case left m     =>
      refine hi m ?_ hleft
      simp at hl ⊢
      omega
    case right hc _ => cases hgt.symm.trans hc
    all_goals cases hp.symm.trans ‹o.collectPair collect a x = _›

theorem MergesAll.passes (hs : o.Shrinks collect) {out xs r ys} (m : MergesAll o collect out xs r)
    (hr : r = .ok ys) (hl : o.load out + o.load xs ≤ o.load ys) (hx : ∀ x ∈ xs, o.owns x = false)
    (hlt : (out ++ xs).Pairwise Precedes) (hp : out.Pairwise (o.Passes collect)) :
    (out ++ xs).Pairwise (o.Passes collect) := by
  induction m
  case nil   => simpa using hp
  case halts => cases hr
  case cons out x out' xs r m ms hi =>
    have ⟨hxo, hxs⟩ := List.forall_mem_cons.mp hx
    have ⟨_, _, hlast⟩ := List.pairwise_append.mp hlt
    have hle := hs.load_le_of_mergesAll ms hr
    rw [loads_eq_load hxs] at hle
    rw [operands_of_not_owns hxo] at m
    have hout : ∀ a ∈ out, o.Passes collect a x := by
      refine m.passes hs rfl ?_ fun a ha => hlast a ha x (by simp)
      simp at hl ⊢
      omega
    cases m.appends hout
    have hsnoc : (out ++ [x]).Pairwise (o.Passes collect) :=
      List.pairwise_append.mpr ⟨hp, List.pairwise_singleton .., by simpa using hout⟩
    simp only [List.reverse_nil, List.nil_append, load_append, load_cons, load_nil] at hi hl
    simpa using hi hr (by omega) hxs (by simpa using hlt) hsnoc

theorem Combines.gathers_sorted {xs r} (hl : 2 ≤ xs.length) (hb : ∀ x ∈ xs, Belongs o x)
    (h : xs.Pairwise Precedes) (m : Combines o collect xs r) : Gathers o collect xs r := by
  have hg := m.gathers hl (fun x hx => (hb x hx).not_absorbs) fun x hx => (hb x hx).not_identity
  rwa [sort_of_sorted h] at hg

theorem Combines.fixed {xs r} (hl : 2 ≤ xs.length) (hb : ∀ x ∈ xs, Belongs o x)
    (h : xs.Pairwise (o.Passes collect)) (m : Combines o collect xs r) : r = .ok (o.node xs) := by
  have hm {r} (m : MergesAll o collect [] xs r) : r = .ok xs :=
    m.appends (fun x hx => (hb x hx).not_owns) h
  replace m := m.gathers_sorted hl hb (h.imp And.right)
  cases m
  case absorbed m => cases hm m
  case fault m    => cases hm m
  case merged m   =>
    cases hm m
    rw [gather_eq_node hl]

theorem Combines.passes (hs : o.Shrinks collect) {xs r} (hl : 2 ≤ xs.length)
    (hb : ∀ x ∈ xs, Belongs o x) (h : xs.Pairwise Precedes) (m : Combines o collect xs r)
    (hr : r = .ok (o.node xs)) : xs.Pairwise (o.Passes collect) := by
  replace m := m.gathers_sorted hl hb h
  cases m
  case fault      => cases hr
  case absorbed m =>
    obtain ⟨rfl, rfl⟩ := absorbs_iff.mp m.absorbs
    cases hr
  case merged ys m =>
    have hg : o.gather ys = o.node xs := Except.ok.inj hr
    have hn : ys ≠ [] := by
      rintro rfl
      cases o <;> cases hg
    have hle := o.load_gather_le_of_ne_nil hn
    rw [hg, operands_node] at hle
    exact m.passes hs rfl (by simpa using hle) (fun x hx => (hb x hx).not_owns) h .nil

namespace Expr

variable {limit : Nat} {b e : Expr} {xs : List Expr}

theorem mapM_fixed {f : Expr → Except Fault Expr} (h : ∀ x ∈ xs, f x = .ok x) :
    xs.mapM f = .ok xs := by
  induction xs with
  | nil => rfl
  | cons x xs hi =>
    have ⟨hx, hxs⟩ := List.forall_mem_cons.mp h
    rw [List.mapM_cons, hx, hi hxs]
    rfl

theorem sumOf_canonical (h : (sum xs).Every (Canonical limit)) : sumOf xs = .ok (sum xs) := by
  have ⟨hl, hm, hs⟩ := canonical_form.listed (o := .sum).mp h
  apply sum_shrinks.combineWith_combines.fixed hl fun x hx => (hm x hx).toBelongs
  refine hs.imp_of_mem fun hx hy h => ⟨?_, h.left⟩
  have hx := canonical_form.split?_ne_error (hm _ hx).every
  have hy := canonical_form.split?_ne_error (hm _ hy).every
  exact (sum_apart_iff hx hy).mpr h.right

theorem combineWith_canonical {d} (h : (prod xs).Every (Canonical limit)) :
    product.combineWith (collectPowersWith (raise d)) xs = .ok (prod xs) := by
  have ⟨hl, hm, hs⟩ := canonical_form.listed (o := .product).mp h
  apply product_shrinks.combineWith_combines.fixed hl fun x hx => (hm x hx).toBelongs
  exact hs.imp fun h => ⟨product_apart_iff.mpr h.right, h.left⟩

theorem raise_fixed (hb : b.Atomic) {n : Int} (h₀ : n ≠ 0) (h₁ : n ≠ 1) :
    raise b.weight b n = .ok (pow b (num n)) := by
  obtain ⟨d, hd⟩ := Nat.exists_eq_succ_of_ne_zero b.weight_pos.ne'
  have m := raise_raises d b n
  rw [hd]
  generalize raise (d + 1) b n = r at m
  cases m
  case zero h => exact absurd h h₀
  case one h  => exact absurd h h₁
  case atom   => rfl
  case num h | pow h _ | whole h _ | fault h _ | prod h _ =>
    subst h
    exact False.elim hb

theorem powerOf_canonical (h : (pow b e).Canonical limit) : powerOf b e = .ok (pow b e) := by
  have ⟨hb, h₀, h₁, hn⟩ := h.neat
  unfold powerOf
  have m := powerWith_powers (raise b.weight) b e
  generalize powerWith (raise b.weight) b e = r at m
  cases m
  case symbolic | apart => rfl
  case one h            => exact absurd h hb
  case zero hz he _ | undefined hz he _ => exact absurd (by rw [hz, he]) (h.no_zero_powers _)
  case whole n _ _ he   =>
    subst he
    exact raise_fixed (hn n rfl) (by rintro rfl; exact h₀ rfl) (by rintro rfl; exact h₁ rfl)

theorem factorialOf_canonical (h : (fact e).Canonical limit) : factorialOf limit e = fact e := by
  unfold factorialOf
  split
  case h_2 => rfl
  case h_1 n hn =>
    split
    case isFalse   => rfl
    case isTrue hl =>
      obtain ⟨k, rfl⟩ := Int.eq_ofNat_of_zero_le hl.left
      exact absurd (integer?_eq_some_iff.mp hn) (h.neat k (by omega))

theorem simplify_canonical {c : Config} (h : e.Every (Canonical c.factorialLimit)) :
    e.simplify c = .ok e := by
  induction e <;> simp only [simplify, simplifyAll_eq_mapM]
  case sum xs hi =>
    have hx := (every_sum.mp h).right
    rw [mapM_fixed fun x hm => hi x hm (hx x hm)]
    exact sumOf_canonical h
  case prod xs hi =>
    have hx := (every_prod.mp h).right
    rw [mapM_fixed fun x hm => hi x hm (hx x hm)]
    exact combineWith_canonical h
  case pow b e hb he =>
    obtain ⟨hp, hcb, hce⟩ := every_pow.mp h
    rw [hb hcb, he hce]
    exact powerOf_canonical hp
  case fact e hi =>
    obtain ⟨hf, he⟩ := every_fact.mp h
    rw [hi he]
    exact congrArg Except.ok (factorialOf_canonical hf)
  case app s xs hi =>
    have hx := (every_app.mp h).right
    rw [mapM_fixed fun x hm => hi x hm (hx x hm)]
    rfl

-- A node whose operands come back as they were is canonical, and so is a power or a factorial that
-- is left as it is.

theorem canonical_of_combined (hs : o.Shrinks collect)
    (ha : ∀ {a b}, a.Every (Neat limit) → b.Every (Neat limit) →
      o.collectPair collect a b = .ok .apart → o.label? a ≠ o.label? b)
    (hn : (o.node xs).Every (Neat limit)) (h : o.combineWith collect xs = .ok (o.node xs)) :
    (o.node xs).Canonical limit := by
  have ⟨hl, hm, hlt⟩ := neat_form.listed.mp hn
  have hb : ∀ x ∈ xs, Belongs o x := fun x hx => (hm x hx).toBelongs
  have hp := hs.combineWith_combines.passes hs hl hb hlt h
  refine canonical_node.mpr ⟨hl, hb, hp.imp_of_mem fun hx hy h => ⟨h.right, ?_⟩⟩
  exact ha (hm _ hx).every (hm _ hy).every h.left

theorem canonical_of_sumOf (hn : (sum xs).Every (Neat limit)) (h : sumOf xs = .ok (sum xs)) :
    (sum xs).Canonical limit := by
  refine canonical_of_combined (o := .sum) sum_shrinks (fun ha hb => ?_) hn h
  exact (sum_apart_iff (neat_form.split?_ne_error ha) (neat_form.split?_ne_error hb)).mp

theorem canonical_of_productOf (hn : (prod xs).Every (Neat limit))
    (h : productOf xs = .ok (prod xs)) : (prod xs).Canonical limit :=
  canonical_of_combined (o := .product) product_shrinks (fun _ _ => product_apart_iff.mp) hn h

theorem canonical_of_powerOf (hb : b.Every (Neat limit)) (he : e.Every (Neat limit))
    (h : powerOf b e = .ok (pow b e)) : (pow b e).Canonical limit where
  neat           := ((neat_kept.powerOf hb he (.inl neat_admits)).ok h).here
  collected      := trivial
  no_zero_powers := by
    rintro q ⟨⟩
    simp only [powerOf, powerWith, isZero, decide_true, if_true] at h
    split at h <;> cases h

theorem canonical_of_factorialOf (h : factorialOf limit e = fact e) :
    (fact e).Canonical limit where
  collected      := trivial
  no_zero_powers := by simp
  neat n hl he   := by
    subst he
    have hn : (num n).integer? = some (n : Int) := integer?_eq_some_iff.mpr rfl
    simp [factorialOf, hn, hl] at h

theorem canonical_of_fixed_nodes {c : Config} (h : e.Every fun t => t.simplify c = .ok t) :
    e.Every (Canonical c.factorialLimit) := by
  have hn : e.Every (Neat c.factorialLimit) := yields_neat.ok h.here
  have hfix {xs : List Expr} (hx : ∀ x ∈ xs, x.Every fun t => t.simplify c = .ok t) :
      xs.mapM (simplify c) = .ok xs := mapM_fixed fun x hm => (hx x hm).here
  induction e
  case num => exact canonical_form.number
  case sym => exact plain_kept.sym.toCanonical
  case sum xs hi =>
    obtain ⟨hs, hx⟩ := every_sum.mp h
    have hnx := (every_sum.mp hn).right
    rw [simplify, simplifyAll_eq_mapM, hfix hx] at hs
    exact every_sum.mpr ⟨canonical_of_sumOf hn hs, fun x hm => hi x hm (hx x hm) (hnx x hm)⟩
  case prod xs hi =>
    obtain ⟨hs, hx⟩ := every_prod.mp h
    have hnx := (every_prod.mp hn).right
    rw [simplify, simplifyAll_eq_mapM, hfix hx] at hs
    exact every_prod.mpr ⟨canonical_of_productOf hn hs, fun x hm => hi x hm (hx x hm) (hnx x hm)⟩
  case pow b e hb he =>
    obtain ⟨hs, hfb, hfe⟩ := every_pow.mp h
    obtain ⟨-, hnb, hne⟩ := every_pow.mp hn
    rw [simplify, hfb.here, hfe.here] at hs
    exact every_pow.mpr ⟨canonical_of_powerOf hnb hne hs, hb hfb hnb, he hfe hne⟩
  case fact e hi =>
    obtain ⟨hs, hfe⟩ := every_fact.mp h
    rw [simplify, hfe.here] at hs
    exact every_fact.mpr
      ⟨canonical_of_factorialOf (Except.ok.inj hs), hi hfe (every_fact.mp hn).right⟩
  case app s xs hi =>
    have hx := (every_app.mp h).right
    have hnx := (every_app.mp hn).right
    exact every_app.mpr ⟨plain_kept.app.toCanonical, fun x hm => hi x hm (hx x hm) (hnx x hm)⟩

-- Canonical trees are the ones that simplifying gives back, all of their subtrees included.
theorem canonical_iff_fixed_nodes {c : Config} {e : Expr} :
    e.Every (Canonical c.factorialLimit) ↔ e.Every fun t => t.simplify c = .ok t :=
  ⟨fun h => h.every.mono fun _ => simplify_canonical, canonical_of_fixed_nodes⟩

theorem simplify_tame {c : Config} {e r : Expr} (ht : e.Every Tame) (h : e.simplify c = .ok r) :
    r.Every FullyCollected ∧ r.simplify c = .ok r := by
  have hr := (yields_plain ht).ok h
  constructor
  case left  => exact hr.mono fun _ h => h.collected
  case right => exact simplify_canonical <| hr.mono fun _ h => h.toCanonical

theorem simplify_tame_powers :
    let e := prod [sum [sym "x", num 1],
      pow (prod [pow (sym "x") (sym "y"), sum [num 1, sym "x"]]) (num 2)]
    let r := prod [pow (sym "x") (prod [num 2, sym "y"]), pow (sum [num 1, sym "x"]) (num 3)]
    e.Every Tame ∧ e.simplify {} = .ok r ∧ r.Every FullyCollected ∧ r.simplify {} = .ok r := by
  intro e r
  have ht : e.Every Tame := by
    have h2 : ∃ n : Int, (2 : Rat) = n := ⟨2, rfl⟩
    simpa [e, Tame] using h2
  have h : e.simplify {} = .ok r := by cbv
  exact ⟨ht, h, simplify_tame ht h⟩

end Expr

end ExactAlgebra
