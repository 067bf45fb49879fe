import ExactAlgebra.Proofs.Form.PowerProduct
import ExactAlgebra.Proofs.Simplify.Cancellation
import ExactAlgebra.Proofs.Simplify.Rearrangement

-- The inverse of a canonical tree is raised factor by factor. In a product with the tree, each
-- factor meets its inverse at the heads of the merge and cancels.

namespace ExactAlgebra

open ExactAlgebra.Expr ExactAlgebra.Operation

variable {limit d : Nat} {a b e s t x : Expr} {xs ys : List Expr}

theorem Maps.forall₂ {Q : Expr → Expr → Prop} {F f r} (h : ∀ x ∈ xs, Settles (Q x) F (f x))
    (m : Maps f xs r) : Settles (List.Forall₂ Q xs ·) F r := by
  induction m
  case nil => exact .nil
  case cons x y xs ys hf _ hi =>
    have ⟨hx, hxs⟩ := List.forall_mem_cons.mp h
    exact .cons (hx.ok hf) (hi hxs)
  case head x xs t hf =>
    have ⟨hx, _⟩ := List.forall_mem_cons.mp h
    exact hx.error hf
  case tail hi => exact hi (List.forall_mem_cons.mp h).right

-- Operands that cancel in pairs leave the output behind.
theorem Merges.cancels {o : Operation} {collect : Expr → Expr → Except Fault Collected}
    {out left right r} (h : List.Forall₂ (o.collectPair collect · · = .ok .cancelled) left right)
    (m : Merges o collect out left right r) : r = .ok out.reverse := by
  induction h
  case nil => cases m <;> simp
  case cons hp _ hi =>
    cases m
    case cancel m => exact hi m
    all_goals cases hp.symm.trans ‹_›

namespace Expr

-- A factor with a base other than 0 whose exponent is no multiple of a sum.
structure Cancellable (x : Expr) : Prop where
  base     : x.base? ≠ some (num 0)
  exponent : ∀ e, x.exponent? = some e → ∀ q ts, e.split? ≠ .ok (some (q, sum ts))

-- Reciprocal numbers, and powers of one base with opposite exponents.
inductive Inverts : Expr → Expr → Prop
  | number {q} (h₀ : q ≠ 0) : Inverts (num q) (num q⁻¹)
  | power {a b s e : Expr} (ha : a.base? = some s) (he : a.exponent? = some e)
      (hb : b.base? = some s) (hf : b.exponent? = some (scale (-1) e)) : Inverts a b

theorem Inverts.base_eq (h : Inverts a b) : b.base? = a.base? := by
  cases h
  case number           => rfl
  case power ha _ hb _  => rw [ha, hb]

theorem not_lopsided (h : e.Every (Canonical limit))
    (hs : ∀ q ts, e.split? ≠ .ok (some (q, sum ts))) : ¬e.Lopsided := by
  intro hl
  cases hl
  case sum     => exact hs _ _ rfl
  case neg     => exact hs _ _ rfl
  case numbers =>
    have ⟨hlt, _⟩ := List.pairwise_cons.mp (canonical_form.factors.mp h).right.sorted
    exact (hlt _ (List.mem_cons_self ..)).right rfl

theorem powerWith_zero (h₀ : s ≠ num 0) : powerWith (raise (d + 1)) s (num 0) = .ok (num 1) := by
  have m := powerWith_powers (raise (d + 1)) s (num 0)
  generalize powerWith (raise (d + 1)) s (num 0) = r at m
  cases m
  case one => rfl
  case whole n _ _ he =>
    obtain rfl : n = 0 := by simpa using he.symm
    exact raise_zero
  case apart he => exact absurd rfl (integer?_eq_none he 0)
  case zero hs _ _ | undefined hs _ _ | symbolic hs _ => exact absurd hs h₀

-- Powers of one base cancel if their exponents do.
theorem collectPair_powers {e f} (ha : a.base? = some s) (hb : b.base? = some s)
    (he : a.exponent? = some e) (hf : b.exponent? = some f) (hs : sumOf [e, f] = .ok (num 0))
    (h₀ : s ≠ num 0) :
    product.collectPair (collectPowersWith (raise (d + 1))) a b = .ok .cancelled := by
  cases a
  case num => cases ha
  all_goals
    simp [collectPair, collectPowersWith, ha, hb, he, hf, hs, powerWith_zero h₀, isOne, bind,
      Except.bind, pure, Except.pure]

-- A factor and its inverse cancel, whichever comes first.
theorem Inverts.cancels (h : Inverts a b) (ha : a.Every (Canonical limit)) (hc : a.Cancellable) :
    product.collectPair (collectPowersWith (raise (d + 1))) a b = .ok .cancelled ∧
      product.collectPair (collectPowersWith (raise (d + 1))) b a = .ok .cancelled := by
  cases h
  case number q h₀ => simp [collectPair, fold, identity, h₀]
  case power s e hb he hb' he' =>
    have hce : e.Every (Canonical limit) := ha.exponent canonical_form.number he
    have hproper {t : Expr} (ht : t.Every (Canonical limit)) : t.Every Proper :=
      ht.mono fun _ h => h.neat.proper
    have h₀ : s ≠ num 0 := by
      rintro rfl
      exact hc.base hb
    have hs : sumOf [e, scale (-1) e] = .ok (num 0) :=
      sumOf_neg (hce.mono fun _ h => h.neat) (not_lopsided hce (hc.exponent e he))
    have hs' : sumOf [scale (-1) e, e] = .ok (num 0) := by
      rw [←hs]
      refine combineWith_eq_of_perm ?_ ((List.Perm.swap ..).filter _)
      simpa using ⟨hproper (canonical_form.scale hce), hproper hce⟩
    exact ⟨collectPair_powers hb hb' he he' hs h₀, collectPair_powers hb' hb he' he hs' h₀⟩

-- A literal exponent can become whole. Then a base that cannot be opened up is raised again.
theorem powerWith_inverts {k : Int} (hx : (pow s e).Every (Canonical limit))
    (hk : scale (-1) e = num k) :
    Settles (fun y => Member (Canonical limit) .product y ∧ Inverts (pow s e) y) (· = .exhausted)
      (powerWith (raise d) s (num k)) := by
  obtain ⟨hn, hs, he⟩ := every_pow.mp hx
  obtain ⟨-, h₀, -, ha⟩ := hn.neat
  obtain ⟨c, rfl⟩ := canonical_form.eq_num_of_scale he (by simp) hk
  obtain rfl : c = (-k : Int) := by
    have hk : -c = k := by simpa [scale] using hk
    rw [Int.cast_neg, ←hk, neg_neg]
  have hk₀ : (k : Rat) ≠ 0 := by simpa using h₀
  have hp := literalPower_isPower (ha _ rfl) hk₀
  refine (powerWith_literal (ha _ rfl)).mono ?_ fun _ => id
  rintro _ rfl
  refine ⟨(Factor.power ⟨ha _ rfl, hs⟩ hk₀).member, .power rfl rfl hp.base ?_⟩
  rw [hp.literal, hk]

theorem raise_inverts (hx : Member (Canonical limit) .product x) (h₀ : x.base? ≠ some (num 0)) :
    Settles (fun y => Member (Canonical limit) .product y ∧ Inverts x y) (· = .exhausted)
      (raise d x (-1)) := by
  cases d with
  | zero   => exact rfl
  | succ d =>
    have m := raise_raises d x (-1)
    generalize hr : raise (d + 1) x (-1) = r at m
    cases m
    case zero h => cases h
    case one h  => cases h
    case num q _ _ hb =>
      subst hb
      have hq₀ : q ≠ 0 := by simpa using hx.ne_zero
      have hq₁ : q ≠ 1 := by simpa [identity] using isIdentity_eq_false.mp hx.not_identity
      rw [←hr, raise_number hq₀, zpow_neg_one]
      have hy : Factor (Generator limit) (num q⁻¹) := .number (inv_ne_zero hq₀) (by simpa)
      exact ⟨hy.member, .number hq₀⟩
    case whole s e k _ _ hb hk =>
      subst hb
      exact powerWith_inverts hx.every hk
    case pow s e _ _ hb hk =>
      subst hb
      obtain ⟨hn, hs, he⟩ := every_pow.mp hx.every
      have hk := integer?_eq_none hk
      have hc : (pow s (scale (-1) e)).Canonical limit := by
        refine ⟨⟨hn.neat.left, hk 0, hk 1, fun n h => absurd h (hk n)⟩, trivial, fun q h => ?_⟩
        obtain ⟨rfl, -⟩ := Expr.pow.inj h
        exact h₀ rfl
      have hy : (pow s (scale (-1) e)).Every (Canonical limit) :=
        every_pow.mpr ⟨hc, hs, canonical_form.scale he⟩
      exact ⟨⟨.of_level_pos rfl (by simp [level]), hy⟩, .power rfl rfl rfl rfl⟩
    case atom hl =>
      have ha : x.Atomic := atomic_iff.mpr hl
      have hy : Factor (Generator limit) (pow x (num (-1))) :=
        literalPower_apart (b := x) (q := -1) (by simp) (by decide) ▸
          .power ⟨ha, hx.every⟩ (by simp)
      refine ⟨hy.member, .power ha.isPower.base ha.isPower.literal rfl ?_⟩
      simp [scale, exponent?]
    case fault hb _ | prod hb _ =>
      subst hb
      cases hx.not_owns

theorem Inverts.labels_eq (h : List.Forall₂ Inverts xs ys) :
    ys.map product.label? = xs.map product.label? := by
  induction h
  case nil         => rfl
  case cons h _ hi => simp [label?, h.base_eq, hi]

-- Inverse factors have the bases of the factors, and so they stand in the same order.
theorem Inverts.canonical (hx : (prod xs).Every (Canonical limit))
    (hy : ∀ y ∈ ys, Member (Canonical limit) .product y) (h : List.Forall₂ Inverts xs ys) :
    (prod ys).Every (Canonical limit) := by
  have ⟨hl, hm, hs⟩ := canonical_form.factors.mp hx
  refine canonical_form.factors.mpr ⟨h.length_eq ▸ hl, hy, ?_⟩
  exact canonical_form.pairwise_apart_of_labels (fun _ h => h.neat.proper) hm hy (labels_eq h) hs

-- What has the inverses of the factors of a tree as its factors.
structure InverseOf (s t : Expr) : Prop where
  ne_zero : t ≠ num 0
  ne_one  : t ≠ num 1
  factors : List.Forall₂ Inverts (product.operands s) (product.operands t)

theorem raise_inverse (hs : s.Every (Canonical limit)) (h₀ : s ≠ num 0) (h₁ : s ≠ num 1)
    (hb : ∀ x ∈ product.operands s, x.base? ≠ some (num 0)) :
    Settles (InverseOf s) (· = .exhausted) (raise d s (-1)) := by
  have hi : product.isIdentity s = false := isIdentity_eq_false.mpr h₁
  have ha : product.absorbs s = false := absorbs_eq_false h₀
  have hx := canonical_form.operands hs hi ha
  have hr x (hm : x ∈ product.operands s) d := raise_inverts (d := d) (hx.mem x hm) (hb x hm)
  cases ho : product.owns s
  case false =>
    refine (hr s (by simp [operands_of_not_owns ho]) d).mono (fun t ⟨ht, hst⟩ => ?_) fun _ => id
    refine ⟨ht.ne_zero, isIdentity_eq_false.mp ht.not_identity, ?_⟩
    rw [operands_of_not_owns ho, operands_of_not_owns ht.not_owns]
    exact .cons hst .nil
  case true =>
    cases s <;> cases ho
    case prod xs =>
      cases d with
      | zero   => exact rfl
      | succ d =>
        rw [raise_prod (by decide) (by decide)]
        refine (mapM_maps.forall₂ fun x hm => hr x hm d).bind fun ys hm => ?_
        have ⟨hy, hxy⟩ := (List.forall₂_and_left ys xs).mp hm.flip
        rw [combineWith_canonical (Inverts.canonical hs hy hxy.flip)]
        exact ⟨by simp, by simp, hxy.flip⟩

-- Each factor cancels with the inverse of it, and nothing is left.
theorem InverseOf.combineWith (hs : s.Every (Canonical limit)) (h₀ : s ≠ num 0) (h₁ : s ≠ num 1)
    (hc : ∀ x ∈ product.operands s, x.Cancellable) (h : InverseOf s t) :
    product.combineWith (collectPowersWith (raise (d + 1))) [s, t] = .ok (num 1) := by
  have hi : product.isIdentity s = false := isIdentity_eq_false.mpr h₁
  have ha : product.absorbs s = false := absorbs_eq_false h₀
  have hx := canonical_form.operands hs hi ha
  have hst : List.Forall₂ (fun x y => (x.Every (Canonical limit) ∧ x.Cancellable) ∧ Inverts x y)
      (product.operands s) (product.operands t) :=
    (List.forall₂_and_left ..).mpr ⟨fun x hm => ⟨(hx.mem x hm).every, hc x hm⟩, h.factors⟩
  have hcancel := hst.imp fun _ _ ⟨⟨he, hc⟩, hxy⟩ => hxy.cancels (d := d) he hc
  obtain ⟨u, v, r, huv, m, hr⟩ := (product_shrinks (d := d + 1)).combineWith_merges ha
    (absorbs_eq_false h.ne_zero) hi (isIdentity_eq_false.mpr h.ne_one)
  apply hr []
  obtain ⟨rfl, rfl⟩ | ⟨rfl, rfl⟩ := sort_pair_eq huv
  case inl => exact m.cancels (hcancel.imp fun _ _ => And.left)
  case inr => exact m.cancels (List.Forall₂.flip (hcancel.imp fun _ _ => And.right))

-- A canonical tree and its inverse multiply to 1, number bases and nested powers included.
theorem productOf_inverse (hs : s.Every (Canonical limit)) (h₀ : s ≠ num 0)
    (hc : ∀ x ∈ product.operands s, x.Cancellable) :
    ∃ t, powerOf s (num (-1)) = .ok t ∧ productOf [s, t] = .ok (num 1) := by
  by_cases h₁ : s = num 1
  case pos =>
    subst h₁
    refine ⟨num 1, by simp [powerOf, powerWith, isZero, isOne], ?_⟩
    rw [productOf_pair (.inl rfl), scale_one]
  case neg =>
    have hr := raise_inverse (d := s.weight) hs h₀ h₁ fun x hx => (hc x hx).base
    rw [←powerOf_whole h₀] at hr
    have hsolid := solid_hereditary.powerOf (e := num (-1 : Int)) (canonical_form.solid hs) trivial
    obtain ⟨t, ht, hst, _⟩ := hr.exists_ok hsolid Fault.exhausted_no_cause
    obtain ⟨d, hd⟩ : ∃ d, weights [s, t] = d + 1 :=
      Nat.exists_eq_add_one.mpr (Nat.add_pos_left s.weight_pos _)
    refine ⟨t, by simpa using ht, ?_⟩
    rw [productOf, hd]
    exact hst.combineWith hs h₀ h₁ hc

-- A root of a number, a power of a power and a root of a product.
theorem productOf_inverse_powers :
    let u := pow (sym "x") (sym "n")
    let v := prod [num 2, sym "y"]
    let s := prod [num 3, pow (num 2) (num (1 / 2)), pow u (prod [num (-1), sym "m"]),
      pow v (num (1 / 2))]
    let t := prod [num (1 / 3), pow (num 2) (num (-1 / 2)), pow u (sym "m"), pow v (num (-1 / 2))]
    s.Every (Canonical 0) ∧ s ≠ num 0 ∧ (∀ x ∈ product.operands s, x.Cancellable) ∧
      powerOf s (num (-1)) = .ok t ∧ productOf [s, t] = .ok (num 1) := by
  intro u v s t
  have hs : s.Every (Canonical 0) := by
    refine canonical_of_fixed_nodes (c := ⟨0⟩) ?_
    repeat' apply And.intro
    all_goals cbv
  have h₀ : s ≠ num 0 := by simp [s]
  have hc : ∀ x ∈ product.operands s, x.Cancellable := by
    simp only [s, Operation.operands, List.forall_mem_cons]
    refine ⟨?_, ?_, ?_, ?_, by simp⟩
    all_goals constructor <;> simp [base?, exponent?, split?, u, v]
  have ht : powerOf s (num (-1)) = .ok t := by
    unfold t
    cbv
  obtain ⟨t', ht', hst⟩ := productOf_inverse hs h₀ hc
  cases ht.symm.trans ht'
  exact ⟨hs, h₀, hc, ht, hst⟩

end Expr

end ExactAlgebra
