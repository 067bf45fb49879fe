import ExactAlgebra.Proofs.Simplify.Termination

-- A budget that is large enough has no influence: what a computation ends in, it ends in with every
-- larger budget as well.

namespace ExactAlgebra

open ExactAlgebra.Expr ExactAlgebra.Operation

-- How a computation ends with less and with more of a budget: alike, unless the smaller one runs
-- out.
def Outlasts {ε α} (spent : ε) (r r' : Except ε α) : Prop :=
  r = .error spent ∨ r = r'

namespace Outlasts

variable {ε α β : Type} {spent : ε} {r r' r'' : Except ε α} {k k' : α → Except ε β}

theorem refl : Outlasts spent r r :=
  .inr rfl

theorem trans (h : Outlasts spent r r') (h' : Outlasts spent r' r'') : Outlasts spent r r'' := by
  cases h
  case inl h => exact .inl h
  case inr h => exact h ▸ h'

theorem bind (h : Outlasts spent r r') (hk : ∀ a, Outlasts spent (k a) (k' a)) :
    Outlasts spent (r >>= k) (r' >>= k') := by
  obtain rfl | rfl := h
  case inl => exact .inl rfl
  case inr =>
    cases r
    case error => exact .refl
    case ok a  => exact hk a

theorem mapM {f g : α → Except ε β} (h : ∀ x, Outlasts spent (f x) (g x)) {xs : List α} :
    Outlasts spent (xs.mapM f) (xs.mapM g) := by
  induction xs with
  | nil => exact .refl
  | cons x xs hi =>
    simp only [List.mapM_cons]
    exact (h x).bind fun _ => hi.bind fun _ => .refl

end Outlasts

section

variable {o : Operation} {collect collect' : Expr → Expr → Except Fault Collected}

theorem Operation.collectPair_outlasts
    (h : ∀ a b, Outlasts .exhausted (collect a b) (collect' a b)) {a b} :
    Outlasts .exhausted (o.collectPair collect a b) (o.collectPair collect' a b) := by
  unfold collectPair
  split
  case h_1 => exact .refl
  case h_2 => exact h a b

theorem Operation.mergeLoop_outlasts
    (h : ∀ a b, Outlasts .exhausted (collect a b) (collect' a b)) {n out left right} :
    Outlasts (.fault .exhausted) (o.mergeLoop collect n out left right)
      (o.mergeLoop collect' n out left right) := by
  induction n generalizing out left right with
  | zero      => exact .inl <| by rw [mergeLoop]
  | succ n hi =>
    rcases left with _ | ⟨a, left⟩ <;> rcases right with _ | ⟨b, right⟩
    case nil.nil | nil.cons | cons.nil => simpa only [mergeLoop] using .refl
    case cons.cons                     =>
      simp only [mergeLoop_cons]
      obtain hp | hp := o.collectPair_outlasts h (a := a) (b := b)
      case inl => exact .inl <| by rw [hp]
      case inr =>
        rw [←hp]
        rcases o.collectPair collect a b with _ | _ | _ | c
        case error        => exact .refl
        case ok.cancelled => exact hi
        case ok.apart     =>
          simp only
          split <;> exact hi
        case ok.one       =>
          simp only
          split
          case isTrue  => exact .refl
          case isFalse =>
            split
            case isTrue  => exact hi
            case isFalse => exact hi.bind fun _ => hi.bind fun _ => hi

theorem Operation.combineWith_outlasts
    (h : ∀ a b, Outlasts .exhausted (collect a b) (collect' a b)) {xs} :
    Outlasts .exhausted (o.combineWith collect xs) (o.combineWith collect' xs) := by
  have hfold {out ys} : Outlasts (.fault .exhausted)
      (List.foldlM (fun out x => o.merge collect out (o.operands x)) out ys)
      (List.foldlM (fun out x => o.merge collect' out (o.operands x)) out ys) := by
    induction ys generalizing out with
    | nil => exact .refl
    | cons y ys hi =>
      simp only [List.foldlM_cons]
      exact (mergeLoop_outlasts h).bind fun _ => hi
  unfold combineWith
  split
  case h_1 => exact .refl
  case h_2 =>
    split
    case h_1 | h_2 => exact .refl
    case h_3       =>
      obtain hf | hf := @hfold [] (sort (xs.filter (!o.isIdentity ·)))
      case inl => exact .inl <| by simp only [hf]
      case inr => exact hf ▸ .refl

end

namespace Expr

variable {raise' raise'' : Expr → Int → Except Fault Expr} {xs : List Expr} {d d' : Nat}

theorem powerWith_outlasts (h : ∀ b n, Outlasts .exhausted (raise' b n) (raise'' b n)) {b e} :
    Outlasts .exhausted (powerWith raise' b e) (powerWith raise'' b e) := by
  unfold powerWith
  split
  case isTrue  => exact .refl
  case isFalse =>
    split
    case isTrue  => exact .refl
    case isFalse =>
      split
      case h_1 n _ => exact h b n
      case h_2     => exact .refl

theorem collectPowersWith_outlasts (h : ∀ b n, Outlasts .exhausted (raise' b n) (raise'' b n))
    (a b) : Outlasts .exhausted (collectPowersWith raise' a b) (collectPowersWith raise'' a b) := by
  unfold collectPowersWith
  split
  case h_2 => exact .refl
  case h_1 =>
    split
    case isFalse => exact .refl
    case isTrue  =>
      exact Outlasts.bind .refl fun _ => (powerWith_outlasts h).bind fun _ => .refl

theorem raise_outlasts_succ {b n} : Outlasts .exhausted (raise d b n) (raise (d + 1) b n) := by
  induction d generalizing b n with
  | zero      => exact .inl rfl
  | succ d hi =>
    unfold raise
    split
    case isTrue  => exact .refl
    case isFalse =>
      split
      case isTrue  => exact .refl
      case isFalse =>
        split
        case h_1 | h_4 => exact .refl
        case h_2       =>
          simp only
          split
          case h_1 => exact powerWith_outlasts fun _ _ => hi
          case h_2 => exact .refl
        case h_3       =>
          refine (Outlasts.mapM fun _ => hi).bind fun _ => combineWith_outlasts ?_
          exact collectPowersWith_outlasts fun _ _ => hi

theorem raise_outlasts (hd : d ≤ d') {b n} :
    Outlasts .exhausted (raise d b n) (raise d' b n) := by
  induction hd with
  | refl        => exact .refl
  | step _ hi   => exact hi.trans raise_outlasts_succ

-- The product has one and the same result for all bounds on the depth that the factors stay within.
theorem productOf_eq (hx : ∀ x ∈ xs, x.Every Solid) (hd : weights xs ≤ d) :
    productOf xs = Operation.product.combineWith (collectPowersWith (raise d)) xs := by
  have hs := solid_hereditary.productOf hx
  obtain h | h := @combineWith_outlasts .product _ _
    (collectPowersWith_outlasts fun _ _ => raise_outlasts hd) xs
  case inl => exact (hs.error h).elim
  case inr => exact h

end Expr

end ExactAlgebra
