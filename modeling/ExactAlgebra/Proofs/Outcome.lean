import ExactAlgebra.Expr.Basic
import ExactAlgebra.Fault

namespace ExactAlgebra

-- The fault of an expression that has no value, as opposed to one of the computation.
def Fault.HasCause : Fault → Prop
  | .undefined _ => True
  | _            => False

-- How a computation may end: with a result of a kind or with a fault of a kind.
def Settles {α} (P : α → Prop) (F : Fault → Prop) : Except Fault α → Prop
  | .ok a    => P a
  | .error f => F f

namespace Settles

variable {α β : Type} {P Q : α → Prop} {F G : Fault → Prop} {r : Except Fault α}

theorem ok (h : Settles P F r) {a} (hr : r = .ok a) : P a := by
  rwa [hr] at h

theorem error (h : Settles P F r) {f} (hr : r = .error f) : F f := by
  rwa [hr] at h

theorem and (h : Settles P F r) (hq : ∀ a, r = .ok a → Q a) : Settles (fun a => P a ∧ Q a) F r := by
  cases r
  case ok    => exact ⟨h, hq _ rfl⟩
  case error => exact h

theorem mono (hp : ∀ a, P a → Q a) (hf : ∀ f, F f → G f) (h : Settles P F r) : Settles Q G r := by
  cases r
  case ok    => exact hp _ h
  case error => exact hf _ h

theorem bind {Q : β → Prop} {k : α → Except Fault β} (h : Settles P F r)
    (hk : ∀ a, P a → Settles Q F (k a)) : Settles Q F (r >>= k) := by
  cases r
  case ok    => exact hk _ h
  case error => exact h

-- Where no fault is of both kinds, there is a result.
theorem exists_ok (hp : Settles P F r) (hq : Settles Q G r) (hfg : ∀ f, F f → ¬G f) :
    ∃ a, r = .ok a ∧ P a ∧ Q a := by
  cases r
  case ok a    => exact ⟨a, rfl, hp, hq⟩
  case error f => exact absurd hq (hfg f hp)

end Settles

theorem Fault.exhausted_no_cause (f : Fault) (h : f = .exhausted) : ¬f.HasCause := by
  rw [h]
  exact id

theorem bind_eq_ok {α β : Type} {r : Except Fault α} {k : α → Except Fault β} {b : β} :
    (r >>= k) = .ok b ↔ ∃ a, r = .ok a ∧ k a = .ok b := by
  cases r <;> simp [bind, Except.bind]

-- A computation that replaces each operand in turn, until the first fault.
inductive Maps (f : Expr → Except Fault Expr) : List Expr → Except Fault (List Expr) → Prop
  | nil : Maps f [] (.ok [])
  | cons {x y xs ys} (h : f x = .ok y) (m : Maps f xs (.ok ys)) : Maps f (x :: xs) (.ok (y :: ys))
  | head {x xs t} (h : f x = .error t) : Maps f (x :: xs) (.error t)
  | tail {x y xs t} (h : f x = .ok y) (m : Maps f xs (.error t)) : Maps f (x :: xs) (.error t)

theorem mapM_maps {f : Expr → Except Fault Expr} {xs} : Maps f xs (xs.mapM f) := by
  induction xs with
  | nil => exact .nil
  | cons x xs hi =>
    simp only [List.mapM_cons, bind, Except.bind]
    cases h : f x <;> simp only
    case error => exact .head h
    case ok =>
      cases hr : xs.mapM f <;> rw [hr] at hi
      case error => exact .tail h hi
      case ok    => exact .cons h hi

theorem Maps.settles {P : Expr → Prop} {F f xs r} (h : ∀ x ∈ xs, Settles P F (f x))
    (m : Maps f xs r) : Settles (∀ y ∈ ·, P y) F r := by
  induction m
  case nil => exact fun _ hy => nomatch hy
  case cons x y xs ys hf _ hi =>
    have ⟨hx, hxs⟩ := List.forall_mem_cons.mp h
    exact List.forall_mem_cons.mpr ⟨hx.ok hf, hi hxs⟩
  case head x xs t hf =>
    have ⟨hx, _⟩ := List.forall_mem_cons.mp h
    exact hx.error hf
  case tail hi => exact hi (List.forall_mem_cons.mp h).right

end ExactAlgebra
