import ExactAlgebra.Product
import ExactAlgebra.Proofs.Operation.Label
import ExactAlgebra.Proofs.Outcome

namespace ExactAlgebra

open ExactAlgebra.Expr

-- What can become of two operands side by side: literals fold, and others are left to `collect`.
inductive CollectsPair (o : Operation) (collect : Expr → Expr → Except Fault Collected)
    (a b : Expr) : Except Fault Collected → Prop
  | unit {p q} (ha : a = num p) (hb : b = num q) (h : o.fold p q = o.identity) :
      CollectsPair o collect a b (.ok .cancelled)
  | fold {p q} (ha : a = num p) (hb : b = num q) (h : o.fold p q ≠ o.identity) :
      CollectsPair o collect a b (.ok (.one (num (o.fold p q))))
  | collect (h : a.isConstant = false ∨ b.isConstant = false) :
      CollectsPair o collect a b (collect a b)

-- What can become of two terms.
inductive CollectsTerms (a b : Expr) : Except Fault Collected → Prop
  | fault {f} (h : a.split? = .error f ∨ b.split? = .error f) : CollectsTerms a b (.error f)
  | number {s t} (ha : a.split? = .ok s) (hb : b.split? = .ok t) (h : s = none ∨ t = none) :
      CollectsTerms a b (.ok .apart)
  | apart {p q s t} (ha : a.split? = .ok (some (p, s))) (hb : b.split? = .ok (some (q, t)))
      (h : s ≠ t) : CollectsTerms a b (.ok .apart)
  | cancelled {p q t} (ha : a.split? = .ok (some (p, t))) (hb : b.split? = .ok (some (q, t)))
      (h : p + q = 0) : CollectsTerms a b (.ok .cancelled)
  | one {p q t} (ha : a.split? = .ok (some (p, t))) (hb : b.split? = .ok (some (q, t)))
      (h : p + q ≠ 0) : CollectsTerms a b (.ok (.one (scale (p + q) t)))

-- What can become of two factors.
inductive CollectsPowers (raise : Expr → Int → Except Fault Expr) (a b : Expr) :
    Except Fault Collected → Prop
  | apart (h : a.base? ≠ b.base? ∨ a.base? = none) : CollectsPowers raise a b (.ok .apart)
  | sum_fault {s e f t} (ha : a.base? = some s) (hb : b.base? = some s)
      (he : a.exponent? = some e) (hf : b.exponent? = some f) (h : sumOf [e, f] = .error t) :
      CollectsPowers raise a b (.error t)
  | power_fault {s e f g t} (ha : a.base? = some s) (hb : b.base? = some s)
      (he : a.exponent? = some e) (hf : b.exponent? = some f) (hs : sumOf [e, f] = .ok g)
      (h : powerWith raise s g = .error t) : CollectsPowers raise a b (.error t)
  | power {s e f g r} (ha : a.base? = some s) (hb : b.base? = some s)
      (he : a.exponent? = some e) (hf : b.exponent? = some f) (hs : sumOf [e, f] = .ok g)
      (h : powerWith raise s g = .ok r) :
      CollectsPowers raise a b (.ok (if r.isOne then .cancelled else .one r))

namespace Operation

variable {o : Operation} {collect : Expr → Expr → Except Fault Collected}
variable {raise : Expr → Int → Except Fault Expr}

theorem collectPair_collects (o : Operation) (collect) (a b) :
    CollectsPair o collect a b (o.collectPair collect a b) := by
  unfold collectPair
  split
  case h_1 p q =>
    simp only
    split
    case isTrue h  => exact .unit rfl rfl h
    case isFalse h => exact .fold rfl rfl h
  case h_2 h =>
    apply CollectsPair.collect
    cases a <;> cases b <;> simp_all [isConstant]

theorem collectPair_settles {a b} {P : Collected → Prop} {F : Fault → Prop}
    (hu : ∀ {p q}, a = num p → b = num q → o.fold p q = o.identity → P .cancelled)
    (hn : ∀ {p q}, a = num p → b = num q → o.fold p q ≠ o.identity → P (.one (num (o.fold p q))))
    (hc : Settles P F (collect a b)) : Settles P F (o.collectPair collect a b) := by
  have m := o.collectPair_collects collect a b
  generalize o.collectPair collect a b = r at m
  cases m
  case unit ha hb h => exact hu ha hb h
  case fold ha hb h => exact hn ha hb h
  case collect      => exact hc

theorem collectPair_eq_one {a b c} (h : o.collectPair collect a b = .ok (.one c)) :
    (∃ p q, a = num p ∧ b = num q ∧ c = num (o.fold p q) ∧ o.fold p q ≠ o.identity) ∨
      collect a b = .ok (.one c) := by
  have m := o.collectPair_collects collect a b
  generalize o.collectPair collect a b = r at h m
  cases m
  case unit              => cases h
  case collect           => exact .inr h
  case fold p q ha hb hf =>
    cases h
    exact .inl ⟨p, q, ha, hb, rfl, hf⟩

theorem collectPair_eq_error {a b f} (h : o.collectPair collect a b = .error f) :
    collect a b = .error f := by
  have m := o.collectPair_collects collect a b
  generalize o.collectPair collect a b = r at h m
  cases m
  case unit | fold => cases h
  case collect     => exact h

theorem collectTerms_collects (a b) : CollectsTerms a b (collectTerms a b) := by
  unfold collectTerms
  cases ha : a.split? <;> cases hb : b.split? <;> simp only [bind, Except.bind]
  case ok.ok s t =>
    split
    case h_1 =>
      split
      case isTrue h =>
        subst h
        simp only [pure, Except.pure]
        split
        case isTrue h  => exact .cancelled ha hb h
        case isFalse h => exact .one ha hb h
      case isFalse h => exact .apart ha hb h
    case h_2 h =>
      match s, t with
      | none, _                => exact .number ha hb <| .inl rfl
      | some _, none           => exact .number ha hb <| .inr rfl
      | some (p, s), some (q, t) => exact absurd rfl (h p s q t rfl)
  case error.error => exact .fault <| .inl ha
  case error.ok    => exact .fault <| .inl ha
  case ok.error    => exact .fault <| .inr hb

theorem collectTerms_eq_one {a b c} (h : collectTerms a b = .ok (.one c)) :
    ∃ p q t, a.split? = .ok (some (p, t)) ∧ b.split? = .ok (some (q, t)) ∧ p + q ≠ 0 ∧
      c = scale (p + q) t := by
  have m := collectTerms_collects a b
  rw [h] at m
  cases m
  case one p q t ha hb hc => exact ⟨p, q, t, ha, hb, hc, rfl⟩

theorem collectPowersWith_collects (raise a b) :
    CollectsPowers raise a b (collectPowersWith raise a b) := by
  unfold collectPowersWith
  split
  case h_1 s e t f ha he hb hf =>
    split
    case isTrue h =>
      subst h
      cases hs : sumOf [e, f] <;> simp only [bind, Except.bind]
      case error => exact .sum_fault ha hb he hf hs
      case ok g =>
        cases h : powerWith raise s g <;> simp only
        case error => exact .power_fault ha hb he hf hs h
        case ok    => exact .power ha hb he hf hs h
    case isFalse h => exact .apart <| .inl <| by simpa [ha, hb]
  case h_2 h =>
    apply CollectsPowers.apart
    cases ha : a.base? <;> cases hb : b.base? <;> simp
    case some.some s t =>
      have ⟨e, he⟩ := exists_exponent ha
      have ⟨f, hf⟩ := exists_exponent hb
      exact absurd hf (h s e t f ha he hb)

theorem collectPowersWith_eq_one {a b c} (h : collectPowersWith raise a b = .ok (.one c)) :
    ∃ s e f g, a.base? = some s ∧ b.base? = some s ∧ a.exponent? = some e ∧ b.exponent? = some f ∧
      sumOf [e, f] = .ok g ∧ powerWith raise s g = .ok c ∧ c ≠ num 1 := by
  have m := collectPowersWith_collects raise a b
  generalize collectPowersWith raise a b = r at h m
  cases m <;> try cases h
  case power s e f g r ha hb he hf hs hr =>
    split at h <;> cases h
    case isFalse hc => exact ⟨s, e, f, g, ha, hb, he, hf, hs, hr, by simpa [isOne] using hc⟩

-- Operands stay apart exactly if their labels differ. Two numbers have no labels and never do.

theorem label?_num {q} : o.label? (num q) = none := by
  cases o <;> rfl

theorem sum_label? {a s} (h : a.split? = .ok s) : sum.label? a = s.map Prod.snd := by
  cases s <;> simp [label?, h]

theorem sum_label?_eq_none {a} (ha : ∀ f, a.split? ≠ .error f) (h : sum.label? a = none) :
    a.isConstant := by
  cases hs : a.split?
  case error f => exact absurd hs (ha f)
  case ok s    =>
    rw [sum_label? hs, Option.map_eq_none_iff] at h
    exact split?_eq_none (h ▸ hs)

theorem label?_ne_of_apart {a b} (ha : o.label? a = none → a.isConstant)
    (hb : o.label? b = none → b.isConstant) (h : o.collectPair collect a b = .ok .apart)
    (hc : collect a b = .ok .apart →
      o.label? a ≠ o.label? b ∨ o.label? a = none ∨ o.label? b = none) :
    o.label? a ≠ o.label? b := by
  have m := o.collectPair_collects collect a b
  generalize o.collectPair collect a b = r at h m
  intro hl
  cases m
  case unit | fold  => cases h
  case collect hnum =>
    obtain hne | hn | hn := hc h
    case inl => exact hne hl
    all_goals simp_all

theorem apart_of_label?_ne {a b} (hl : o.label? a ≠ o.label? b)
    (hc : collect a b = .ok .apart) : o.collectPair collect a b = .ok .apart := by
  have m := o.collectPair_collects collect a b
  generalize o.collectPair collect a b = r at m
  cases m
  case collect => exact hc
  case unit p q ha hb _ | fold p q ha hb _ =>
    exact absurd (by rw [ha, hb, label?_num, label?_num]) hl

theorem sum_apart_iff {a b} (ha : ∀ f, a.split? ≠ .error f) (hb : ∀ f, b.split? ≠ .error f) :
    sum.collectPair collectTerms a b = .ok .apart ↔ sum.label? a ≠ sum.label? b := by
  have m := collectTerms_collects a b
  constructor
  case mp =>
    intro h
    apply label?_ne_of_apart (sum_label?_eq_none ha) (sum_label?_eq_none hb) h
    intro h
    rw [h] at m
    cases m
    case apart ha hb h  => simpa [sum_label? ha, sum_label? hb] using h
    case number ha hb h => simp [sum_label? ha, sum_label? hb, h]
  case mpr =>
    intro hl
    apply apart_of_label?_ne hl
    generalize collectTerms a b = r at m
    cases m
    case number | apart => rfl
    case fault h        => exact h.elim (absurd · (ha _)) (absurd · (hb _))
    all_goals exact absurd (by simp [sum_label?, *]) hl

theorem product_apart_iff {a b} :
    product.collectPair (collectPowersWith raise) a b = .ok .apart ↔
      product.label? a ≠ product.label? b := by
  have m := collectPowersWith_collects raise a b
  constructor
  case mp =>
    intro h
    apply @label?_ne_of_apart product _ _ _ base?_eq_none base?_eq_none h
    intro h
    generalize collectPowersWith raise a b = r at h m
    cases m
    case apart hb              => exact hb.imp_right .inl
    case sum_fault | power_fault => cases h
    case power                 => split at h <;> cases h
  case mpr =>
    intro hl
    apply apart_of_label?_ne hl
    generalize collectPowersWith raise a b = r at m
    cases m
    case apart => rfl
    all_goals exact absurd (by simp [label?, *]) hl

end Operation

end ExactAlgebra
