import ExactAlgebra.Product
import ExactAlgebra.Proofs.Expr.Order
import ExactAlgebra.Proofs.Outcome

namespace ExactAlgebra.Expr

variable {raise' : Expr → Int → Except Fault Expr} {b e : Expr} {n : Int}

-- What the power of two operands can be.
inductive Powers (raise' : Expr → Int → Except Fault Expr) (b e : Expr) : Except Fault Expr → Prop
  | zero {q} (hb : b = num 0) (he : e = num q) (h : 0 < q) : Powers raise' b e (.ok (num 0))
  | undefined {q} (hb : b = num 0) (he : e = num q) (h : ¬0 < q) :
      Powers raise' b e (.error (.undefined (.zeroPower q)))
  | symbolic (hb : b = num 0) (he : 0 < e.level) : Powers raise' b e (.ok (pow b e))
  | one (hb : b = num 1) : Powers raise' b e (.ok (num 1))
  | whole {n : Int} (h₀ : b ≠ num 0) (h₁ : b ≠ num 1) (he : e = num n) :
      Powers raise' b e (raise' b n)
  | apart (h₀ : b ≠ num 0) (h₁ : b ≠ num 1) (he : e.integer? = none) :
      Powers raise' b e (.ok (pow b e))

theorem integer?_eq_some_iff : e.integer? = some n ↔ e = num n := by
  cases e <;> simp [integer?, Coefficient.integer?_eq_some_iff]

theorem powerWith_powers (raise' b e) : Powers raise' b e (powerWith raise' b e) := by
  unfold powerWith
  split
  case isTrue hb =>
    replace hb : b = num 0 := by simpa [isZero] using hb
    split
    case h_1 q =>
      split
      case isTrue h  => exact .zero hb rfl h
      case isFalse h => exact .undefined hb rfl h
    case h_2 h =>
      apply Powers.symbolic hb
      cases e <;> simp_all [level]
  case isFalse h₀ =>
    replace h₀ : b ≠ num 0 := by simpa [isZero] using h₀
    split
    case isTrue hb => exact .one <| by simpa [isOne] using hb
    case isFalse h₁ =>
      replace h₁ : b ≠ num 1 := by simpa [isOne] using h₁
      split
      case h_1 n h => exact .whole h₀ h₁ <| integer?_eq_some_iff.mp h
      case h_2 h   => exact .apart h₀ h₁ h

-- What a base raised to a whole power can be.
inductive Raises (d : Nat) (b : Expr) (n : Int) : Except Fault Expr → Prop
  | zero (h : n = 0) : Raises d b n (.ok (num 1))
  | one (h : n = 1) : Raises d b n (.ok b)
  | num {q} (h₀ : n ≠ 0) (h₁ : n ≠ 1) (hb : b = num q) :
      Raises d b n (num <$> Coefficient.power q n)
  | whole {s e} {k : Int} (h₀ : n ≠ 0) (h₁ : n ≠ 1) (hb : b = pow s e)
      (he : scale n e = Expr.num k) :
      Raises d b n (powerWith (raise d) s (Expr.num k))
  | pow {s e} (h₀ : n ≠ 0) (h₁ : n ≠ 1) (hb : b = pow s e) (he : (scale n e).integer? = none) :
      Raises d b n (.ok (pow s (scale n e)))
  | fault {xs f} (h₀ : n ≠ 0) (h₁ : n ≠ 1) (hb : b = prod xs)
      (m : Maps (raise d · n) xs (.error f)) : Raises d b n (.error f)
  | prod {xs ys} (h₀ : n ≠ 0) (h₁ : n ≠ 1) (hb : b = prod xs)
      (m : Maps (raise d · n) xs (.ok ys)) :
      Raises d b n (Operation.product.combineWith (Operation.collectPowersWith (raise d)) ys)
  | atom (h₀ : n ≠ 0) (h₁ : n ≠ 1) (hb : 2 < b.level) : Raises d b n (.ok (Expr.pow b (Expr.num n)))

theorem raise_raises (d b n) : Raises d b n (raise (d + 1) b n) := by
  unfold raise
  split
  case isTrue h => exact .zero h
  split
  case isTrue h => exact .one h
  case isFalse h₀ h₁ =>
    split
    case h_1 => exact .num h₀ h₁ rfl
    case h_2 s e =>
      simp only
      split
      case h_1 k h =>
        rw [integer?_eq_some_iff.mp h]
        exact .whole h₀ h₁ rfl <| integer?_eq_some_iff.mp h
      case h_2 h => exact .pow h₀ h₁ rfl h
    case h_3 xs =>
      have m : Maps (raise d · n) xs _ := mapM_maps
      cases h : xs.mapM (raise d · n) <;> simp only [bind, Except.bind] <;> rw [h] at m
      case error => exact .fault h₀ h₁ rfl m
      case ok    => exact .prod h₀ h₁ rfl m
    case h_4 => exact .atom h₀ h₁ <| by cases b <;> simp_all [level]

theorem raise_zero {d} : raise (d + 1) b 0 = .ok (num 1) := by
  simp [raise]

theorem raise_one {d} : raise (d + 1) b 1 = .ok b := by
  simp [raise]

-- The power of a product is the product of the powers of its factors.
theorem raise_prod {d xs} (h₀ : n ≠ 0) (h₁ : n ≠ 1) :
    raise (d + 1) (prod xs) n =
      xs.mapM (raise d · n) >>=
        Operation.product.combineWith (Operation.collectPowersWith (raise d)) := by
  rw [raise, if_neg h₀, if_neg h₁]

end ExactAlgebra.Expr
