import ExactAlgebra.Operation.Merge
import ExactAlgebra.Proofs.Operation.Label

namespace ExactAlgebra

open ExactAlgebra.Expr

-- The runs of a merge, from an output in reverse and two pending lists to an end, with no budget
-- in sight.
inductive Merges (o : Operation) (collect : Expr → Expr → Except Fault Collected) :
    List Expr → List Expr → List Expr → Except Halt (List Expr) → Prop
  | left_done {out right} : Merges o collect out [] right (.ok (out.reverse ++ right))
  | right_done {out left} : Merges o collect out left [] (.ok (out.reverse ++ left))
  | fault {out a left b right f} (h : o.collectPair collect a b = .error f) :
      Merges o collect out (a :: left) (b :: right) (.error (.fault f))
  | right {out a left b right r} (h : o.collectPair collect a b = .ok .apart)
      (hc : compare b a = .lt) (m : Merges o collect (b :: out) (a :: left) right r) :
      Merges o collect out (a :: left) (b :: right) r
  | left {out a left b right r} (h : o.collectPair collect a b = .ok .apart)
      (hc : compare b a ≠ .lt) (m : Merges o collect (a :: out) left (b :: right) r) :
      Merges o collect out (a :: left) (b :: right) r
  | cancel {out a left b right r} (h : o.collectPair collect a b = .ok .cancelled)
      (m : Merges o collect out left right r) :
      Merges o collect out (a :: left) (b :: right) r
  | absorb {out a left b right c} (h : o.collectPair collect a b = .ok (.one c))
      (hc : o.absorbs c = true) :
      Merges o collect out (a :: left) (b :: right) (.error (.absorbed c))
  | requeue {out a left b right c r} (h : o.collectPair collect a b = .ok (.one c))
      (hc : o.absorbs c = false) (hf : o.fits c out.head? left.head? = true)
      (m : Merges o collect out (c :: left) right r) :
      Merges o collect out (a :: left) (b :: right) r
  | remerge {out a left b right c rest front r} (h : o.collectPair collect a b = .ok (.one c))
      (hc : o.absorbs c = false) (hf : o.fits c out.head? left.head? = false)
      (m₁ : Merges o collect [] left right (.ok rest))
      (m₂ : Merges o collect [] out.reverse (o.operands c) (.ok front))
      (m₃ : Merges o collect [] front rest r) :
      Merges o collect out (a :: left) (b :: right) r
  | rest_halts {out a left b right c t} (h : o.collectPair collect a b = .ok (.one c))
      (hc : o.absorbs c = false) (hf : o.fits c out.head? left.head? = false)
      (m : Merges o collect [] left right (.error t)) :
      Merges o collect out (a :: left) (b :: right) (.error t)
  | front_halts {out a left b right c rest t} (h : o.collectPair collect a b = .ok (.one c))
      (hc : o.absorbs c = false) (hf : o.fits c out.head? left.head? = false)
      (m₁ : Merges o collect [] left right (.ok rest))
      (m₂ : Merges o collect [] out.reverse (o.operands c) (.error t)) :
      Merges o collect out (a :: left) (b :: right) (.error t)

namespace Operation

variable {o : Operation} {collect : Expr → Expr → Except Fault Collected}

-- What takes the place of two alike operands carries less than both of their labels.
def Shrinks (o : Operation) (collect : Expr → Expr → Except Fault Collected) : Prop :=
  ∀ ⦃a b c⦄, o.collectPair collect a b = .ok (.one c) →
    o.load (o.operands c) < o.labelWeight a + o.labelWeight b

theorem fits_iff {c last? next?} :
    o.fits c last? next? ↔ o.owns c = false ∧ (∀ x ∈ last?, compare x c = .lt) ∧
      ∀ x ∈ next?, compare c x = .lt := by
  simp [fits, and_assoc, Option.all_eq_true]

theorem fits_not_owns {c last? next?} (h : o.fits c last? next?) : o.owns c = false :=
  (fits_iff.mp h).left

theorem operands_of_not_owns {c} (h : o.owns c = false) : o.operands c = [c] := by
  cases o <;> cases c <;> simp_all [owns, operands]

theorem operands_node {xs} : o.operands (o.node xs) = xs := by
  cases o <;> rfl

theorem gather_eq_node {xs} (h : 2 ≤ xs.length) : o.gather xs = o.node xs := by
  match xs, h with
  | x :: y :: xs, _ => rfl

theorem Shrinks.load_le (hs : Shrinks o collect) {out left right r xs}
    (m : Merges o collect out left right r) (hr : r = .ok xs) :
    o.load xs ≤ o.load out + o.load left + o.load right := by
  induction m generalizing xs <;> cases hr
  case left_done | right_done => simp
  case right hi | left hi =>
    have := hi rfl
    simp at this ⊢
    omega
  case cancel hi =>
    have := hi rfl
    simp at this ⊢
    omega
  case requeue h _ hf _ hi =>
    have := operands_of_not_owns (fits_not_owns hf) ▸ hs h
    have := hi rfl
    simp at *
    omega
  case remerge h _ _ _ _ hi₁ hi₂ _ hi₃ =>
    have := hs h
    have := hi₁ rfl
    have := hi₂ rfl
    have := hi₃ rfl
    simp at *
    omega

-- Heads that collect take load away for good.
theorem Shrinks.load_lt_of_collected (hs : Shrinks o collect) {out a left b right r xs}
    (h : o.collectPair collect a b ≠ .ok .apart)
    (m : Merges o collect out (a :: left) (b :: right) r) (hr : r = .ok xs) :
    o.load xs < o.load out + o.load (a :: left) + o.load (b :: right) := by
  cases m <;> cases hr
  case right hp _ _ | left hp _ _ => exact absurd hp h
  case cancel m =>
    have := hs.load_le m rfl
    have := o.labelWeight_pos (e := a)
    simp
    omega
  case requeue hf hp m =>
    have := operands_of_not_owns (fits_not_owns hf) ▸ hs hp
    have := hs.load_le m rfl
    simp at *
    omega
  case remerge m₂ _ hp m₁ m₃ =>
    have := hs hp
    have := hs.load_le m₁ rfl
    have := hs.load_le m₂ rfl
    have := hs.load_le m₃ rfl
    simp at *
    omega

-- A budget for a load and a number of pending operands. A smaller load has a smaller budget, with
-- however many operands.
def budget (load pending : Nat) : Nat :=
  load * (load + 1) + pending

theorem budget_lt_of_load_lt {s t m n} (hst : s < t) (hm : m ≤ s) : budget s m < budget t n := by
  have : (s + 1) * (s + 1) ≤ t * t := Nat.mul_self_le_mul_self hst
  simp only [budget, Nat.mul_add, Nat.add_mul] at this ⊢
  omega

theorem budget_lt_of_load_eq {s t m n} (hst : s = t) (hmn : m < n) : budget s m < budget t n :=
  hst ▸ Nat.add_lt_add_left hmn _

theorem budget_lt_mergeBudget {left right : List Expr} :
    budget (o.load left + o.load right) (left.length + right.length) < mergeBudget left right := by
  have := o.length_le_load left
  have := o.length_le_load right
  have := o.load_le_weights left
  have := o.load_le_weights right
  calc
    budget (o.load left + o.load right) (left.length + right.length)
    _ < (o.load left + o.load right + 1) * (o.load left + o.load right + 1) := by
      simp only [budget, Nat.add_mul]
      omega
    _ ≤ mergeBudget left right := Nat.mul_le_mul (by omega) (by omega)

-- The merge of a state whose budget is below that of a given one.
def MergesBelow (o : Operation) (collect : Expr → Expr → Except Fault Collected) (n : Nat)
    (out left right : List Expr) : Prop :=
  ∀ {out' left' right'},
    budget (o.load out' + o.load left' + o.load right') (left'.length + right'.length) <
      budget (o.load out + o.load left + o.load right) (left.length + right.length) →
    Merges o collect out' left' right' (o.mergeLoop collect n out' left' right')

theorem mergeLoop_cons {n out a left b right} :
    o.mergeLoop collect (n + 1) out (a :: left) (b :: right) =
      match o.collectPair collect a b with
      | .error f       => .error (.fault f)
      | .ok .cancelled => o.mergeLoop collect n out left right
      | .ok .apart     =>
        if compare b a = .lt then o.mergeLoop collect n (b :: out) (a :: left) right
        else o.mergeLoop collect n (a :: out) left (b :: right)
      | .ok (.one c)   =>
        if o.absorbs c then .error (.absorbed c)
        else if o.fits c out.head? left.head? then o.mergeLoop collect n out (c :: left) right
        else
          o.mergeLoop collect n [] left right >>= fun rest =>
            o.mergeLoop collect n [] out.reverse (o.operands c) >>= fun front =>
              o.mergeLoop collect n [] front rest := by
  rw [mergeLoop]
  cases o.collectPair collect a b
  case error => rfl
  case ok r  => cases r <;> rfl

-- Two collected operands take load away, also from each of the three merges that a misfit leads to.
theorem Shrinks.collected_merges (hs : Shrinks o collect) {n out a left b right c}
    (hi : MergesBelow o collect n out (a :: left) (b :: right))
    (h : o.collectPair collect a b = .ok (.one c)) :
    Merges o collect out (a :: left) (b :: right)
      (o.mergeLoop collect (n + 1) out (a :: left) (b :: right)) := by
  have hl := hs h
  have := o.length_le_load out
  have := o.length_le_load left
  have := o.length_le_load right
  have := o.length_le_load (o.operands c)
  simp only [mergeLoop_cons, h]
  cases hc : o.absorbs c <;> simp only [if_true, Bool.false_eq_true, if_false]
  case true => exact .absorb h hc
  cases hf : o.fits c out.head? left.head? <;> simp only [if_true, Bool.false_eq_true, if_false]
  case true =>
    rw [operands_of_not_owns (fits_not_owns hf)] at hl
    have := o.labelWeight_pos (e := c)
    refine .requeue h hc hf <| hi <| budget_lt_of_load_lt ?_ ?_
    all_goals
      simp at hl ⊢
      omega
  case false =>
    have m₁ : Merges o collect [] left right (o.mergeLoop collect n [] left right) := by
      refine hi <| budget_lt_of_load_lt ?_ ?_ <;> simp <;> omega
    have m₂ : Merges o collect [] out.reverse (o.operands c)
        (o.mergeLoop collect n [] out.reverse (o.operands c)) := by
      refine hi <| budget_lt_of_load_lt ?_ ?_ <;> simp <;> omega
    cases h₁ : o.mergeLoop collect n [] left right
    case error => exact .rest_halts h hc hf (h₁ ▸ m₁)
    case ok rest =>
      cases h₂ : o.mergeLoop collect n [] out.reverse (o.operands c)
      case error => exact .front_halts h hc hf (h₁ ▸ m₁) (h₂ ▸ m₂)
      case ok front =>
        have := o.length_le_load front
        have := o.length_le_load rest
        have := hs.load_le m₁ h₁
        have := hs.load_le m₂ h₂
        refine .remerge h hc hf (h₁ ▸ m₁) (h₂ ▸ m₂) <| hi <| budget_lt_of_load_lt ?_ ?_
        all_goals
          simp at *
          omega

-- Emitting an operand keeps the load and shortens the pending lists.
theorem Shrinks.mergeLoop_merges (hs : Shrinks o collect) {n out left right}
    (hn : budget (o.load out + o.load left + o.load right) (left.length + right.length) < n) :
    Merges o collect out left right (o.mergeLoop collect n out left right) := by
  induction n generalizing out left right <;> cases left <;> cases right
  case succ.nil.nil | succ.nil.cons => exact .left_done
  case succ.cons.nil                => exact .right_done
  case succ.cons.cons n hi a left b right =>
    replace hi : MergesBelow o collect n out (a :: left) (b :: right) :=
      fun h => hi <| Nat.lt_of_lt_of_le h (Nat.le_of_lt_succ hn)
    match h : o.collectPair collect a b with
    | .ok (.one c) => exact hs.collected_merges hi h
    | .error f     =>
      simp only [mergeLoop_cons, h]
      exact .fault h
    | .ok .cancelled =>
      have := o.length_le_load left
      have := o.length_le_load right
      have := o.labelWeight_pos (e := a)
      simp only [mergeLoop_cons, h]
      refine .cancel h <| hi <| budget_lt_of_load_lt ?_ (by omega)
      simp
      omega
    | .ok .apart =>
      simp only [mergeLoop_cons, h]
      split
      case isTrue hc =>
        refine .right h hc <| hi <| budget_lt_of_load_eq ?_ (by simp)
        simp
        omega
      case isFalse hc =>
        refine .left h hc <| hi <| budget_lt_of_load_eq ?_ (by simp)
        simp
        omega
  all_goals exact absurd hn (Nat.not_lt_zero _)

theorem Shrinks.merge_merges (hs : Shrinks o collect) (left right) :
    Merges o collect [] left right (o.merge collect left right) :=
  hs.mergeLoop_merges <| by simpa using budget_lt_mergeBudget

end Operation

end ExactAlgebra
