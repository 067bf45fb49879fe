import ExactAlgebra.Proofs.Operation.Collect
import ExactAlgebra.Proofs.Operation.Combines
import ExactAlgebra.Proofs.Outcome

namespace ExactAlgebra

open ExactAlgebra.Expr ExactAlgebra.Operation

variable {o : Operation} {collect : Expr → Expr → Except Fault Collected}
variable {K : Expr → Prop} {R : Expr → Expr → Prop} {F : Fault → Prop}

-- Operands of a class, each related to all later ones.
structure Listed (K : Expr → Prop) (R : Expr → Expr → Prop) (xs : List Expr) : Prop where
  mem    : ∀ x ∈ xs, K x
  sorted : xs.Pairwise R

theorem Listed.nil : Listed K R [] where
  mem    := by simp
  sorted := .nil

theorem Listed.singleton {x} (h : K x) : Listed K R [x] where
  mem    := by simpa
  sorted := List.pairwise_singleton ..

theorem Listed.tail {x xs} (h : Listed K R (x :: xs)) : Listed K R xs where
  mem    := (List.forall_mem_cons.mp h.mem).right
  sorted := (List.pairwise_cons.mp h.sorted).right

theorem Listed.of_mem {xs} (h : ∀ x ∈ xs, K x) : Listed K (fun _ _ => True) xs where
  mem    := h
  sorted := List.pairwise_of_forall fun _ _ => trivial

-- A class of operands `K` and a relation `R` between earlier and later ones that collecting keeps,
-- with faults `F` only. A collected operand that goes back to the pending ones has to stand where
-- its parts stood.
structure Keeps (o : Operation) (collect : Expr → Expr → Except Fault Collected)
    (K : Expr → Prop) (R : Expr → Expr → Prop) (F : Fault → Prop) : Prop where
  trans {a b c} : K a → K b → K c → R a b → R b c → R a c
  right {a b} : K a → K b → o.collectPair collect a b = .ok .apart → compare b a = .lt → R b a
  left {a b} : K a → K b → o.collectPair collect a b = .ok .apart → compare b a ≠ .lt → R a b
  collected {a b c} : K a → K b → o.collectPair collect a b = .ok (.one c) → o.absorbs c = false →
    Listed K R (o.operands c)
  after {a b c x} : K a → K b → K x → o.collectPair collect a b = .ok (.one c) →
    o.owns c = false → R x a → compare x c = .lt → R x c
  before {a b c x} : K a → K b → K x → o.collectPair collect a b = .ok (.one c) →
    o.owns c = false → R a x → compare c x = .lt → R c x
  fault {a b f} : K a → K b → o.collectPair collect a b = .error f → F f

-- What two operands collect to, if it is an operand at all, consists of operands of a class.
def Stays (o : Operation) (K : Expr → Prop) : Collected → Prop
  | .one c => ∀ x ∈ o.operands c, K x
  | _      => True

-- Where order does not matter, it is enough that collecting stays within the class.
theorem Keeps.unordered (hn : ∀ {p q}, K (num p) → K (num q) → K (num (o.fold p q)))
    (hc : ∀ {a b}, K a → K b → Settles (Stays o K) F (collect a b)) :
    Keeps o collect K (fun _ _ => True) F where
  trans _ _ _ _ _     := trivial
  right _ _ _ _       := trivial
  left _ _ _ _        := trivial
  after _ _ _ _ _ _ _  := trivial
  before _ _ _ _ _ _ _ := trivial
  fault ha hb h       := (hc ha hb).error (collectPair_eq_error h)
  collected ha hb h _ := by
    apply Listed.of_mem
    obtain ⟨p, q, rfl, rfl, rfl, -⟩ | h := collectPair_eq_one h
    case inl =>
      rw [operands_of_not_owns (by cases o <;> rfl)]
      simpa using hn ha hb
    case inr => exact (hc ha hb).ok h

-- How a merge may end that keeps a class and a relation.
def Ends (o : Operation) (K : Expr → Prop) (R : Expr → Expr → Prop) (F : Fault → Prop) :
    Except Halt (List Expr) → Prop
  | .ok xs               => Listed K R xs
  | .error (.absorbed e) => o.absorbs e
  | .error (.fault f)    => F f

-- What holds between the steps of such a merge: the output goes before what is pending on either
-- side.
structure Ordered (K : Expr → Prop) (R : Expr → Expr → Prop) (out left right : List Expr) :
    Prop where
  mem_out      : ∀ x ∈ out, K x
  mem_left     : ∀ x ∈ left, K x
  mem_right    : ∀ x ∈ right, K x
  sorted_left  : (out.reverse ++ left).Pairwise R
  sorted_right : (out.reverse ++ right).Pairwise R

theorem pairwise_reverse_append_cons {out rest : List Expr} {c} :
    (out.reverse ++ c :: rest).Pairwise R ↔
      (out.reverse ++ rest).Pairwise R ∧ (∀ x ∈ out, R x c) ∧ ∀ x ∈ rest, R c x := by
  simp only [List.pairwise_append, List.pairwise_cons, List.mem_reverse, List.mem_cons]
  grind

namespace Ordered

variable {out left right : List Expr} {a b c : Expr}

theorem swap (h : Ordered K R out left right) : Ordered K R out right left where
  mem_out      := h.mem_out
  mem_left     := h.mem_right
  mem_right    := h.mem_left
  sorted_left  := h.sorted_right
  sorted_right := h.sorted_left

theorem pending (hl : Listed K R left) (hr : Listed K R right) : Ordered K R [] left right where
  mem_out      := by simp
  mem_left     := hl.mem
  mem_right    := hr.mem
  sorted_left  := hl.sorted
  sorted_right := hr.sorted

theorem left_done (h : Ordered K R out [] right) : Listed K R (out.reverse ++ right) where
  sorted   := h.sorted_right
  mem x hx := by
    cases List.mem_append.mp hx
    case inl hx => exact h.mem_out x (List.mem_reverse.mp hx)
    case inr hx => exact h.mem_right x hx

theorem emit (hk : Keeps o collect K R F) (h : Ordered K R out (a :: left) (b :: right))
    (hab : R a b) : Ordered K R (a :: out) left (b :: right) where
  mem_out     := List.forall_mem_cons.mpr ⟨h.mem_left a (by simp), h.mem_out⟩
  mem_left    := (List.forall_mem_cons.mp h.mem_left).right
  mem_right   := h.mem_right
  sorted_left := by simpa using h.sorted_left
  sorted_right := by
    have ⟨_, hxa, _⟩ := pairwise_reverse_append_cons.mp h.sorted_left
    have ⟨_, _, hby⟩ := pairwise_reverse_append_cons.mp h.sorted_right
    have ha := h.mem_left a (by simp)
    have hb := h.mem_right b (by simp)
    simp only [List.reverse_cons, List.append_assoc, List.singleton_append]
    refine pairwise_reverse_append_cons.mpr
      ⟨h.sorted_right, hxa, List.forall_mem_cons.mpr ⟨hab, ?_⟩⟩
    exact fun y hy => hk.trans ha hb (h.mem_right y (by simp [hy])) hab (hby y hy)

theorem cancel (h : Ordered K R out (a :: left) (b :: right)) : Ordered K R out left right where
  mem_out      := h.mem_out
  mem_left     := (List.forall_mem_cons.mp h.mem_left).right
  mem_right    := (List.forall_mem_cons.mp h.mem_right).right
  sorted_left  := (pairwise_reverse_append_cons.mp h.sorted_left).left
  sorted_right := (pairwise_reverse_append_cons.mp h.sorted_right).left

-- A collected operand that fits follows the last operand of the output, and by that all others.
theorem fits_after (hk : Keeps o collect K R F) (h : Ordered K R out (a :: left) (b :: right))
    (hc : o.collectPair collect a b = .ok (.one c)) (hK : K c)
    (hf : o.fits c out.head? left.head?) : ∀ x ∈ out, R x c := by
  have ⟨hown, hlast, _⟩ := fits_iff.mp hf
  have ⟨hs, hxa, _⟩ := pairwise_reverse_append_cons.mp h.sorted_left
  cases out with
  | nil => simp
  | cons z zs =>
    rw [List.reverse_cons, List.append_assoc, List.singleton_append] at hs
    have ⟨_, hxz, _⟩ := pairwise_reverse_append_cons.mp hs
    have hz := h.mem_out z (by simp)
    have hzc := hk.after (h.mem_left a (by simp)) (h.mem_right b (by simp)) hz hc hown
      (hxa z (by simp)) (hlast z rfl)
    refine List.forall_mem_cons.mpr ⟨hzc, fun x hx => ?_⟩
    exact hk.trans (h.mem_out x (by simp [hx])) hz hK (hxz x hx) hzc

theorem fits_before (hk : Keeps o collect K R F) (h : Ordered K R out (a :: left) (b :: right))
    (hc : o.collectPair collect a b = .ok (.one c)) (hK : K c)
    (hf : o.fits c out.head? left.head?) : ∀ x ∈ left, R c x := by
  have ⟨hown, _, hnext⟩ := fits_iff.mp hf
  have ⟨hs, _, hax⟩ := pairwise_reverse_append_cons.mp h.sorted_left
  cases left with
  | nil => simp
  | cons z zs =>
    have ⟨_, _, hzx⟩ := pairwise_reverse_append_cons.mp hs
    have hz := h.mem_left z (by simp)
    have hcz := hk.before (h.mem_left a (by simp)) (h.mem_right b (by simp)) hz hc hown
      (hax z (by simp)) (hnext z rfl)
    refine List.forall_mem_cons.mpr ⟨hcz, fun x hx => ?_⟩
    exact hk.trans hK hz (h.mem_left x (by simp [hx])) hcz (hzx x hx)

theorem requeue (hk : Keeps o collect K R F) (h : Ordered K R out (a :: left) (b :: right))
    (hc : o.collectPair collect a b = .ok (.one c)) (ha : o.absorbs c = false)
    (hf : o.fits c out.head? left.head?) : Ordered K R out (c :: left) right := by
  have hK : K c := by
    have := (hk.collected (h.mem_left a (by simp)) (h.mem_right b (by simp)) hc ha).mem
    simpa [operands_of_not_owns (fits_not_owns hf)] using this
  exact { h.cancel with
    mem_left := List.forall_mem_cons.mpr ⟨hK, h.cancel.mem_left⟩
    sorted_left := pairwise_reverse_append_cons.mpr
      ⟨h.cancel.sorted_left, h.fits_after hk hc hK hf, h.fits_before hk hc hK hf⟩
  }

-- A misfit gives rise to a merge of the pending operands and to one of the output with the misfit.

theorem rest (h : Ordered K R out left right) : Ordered K R [] left right where
  mem_out      := by simp
  mem_left     := h.mem_left
  mem_right    := h.mem_right
  sorted_left  := (List.pairwise_append.mp h.sorted_left).right.left
  sorted_right := (List.pairwise_append.mp h.sorted_right).right.left

theorem front (hk : Keeps o collect K R F) (h : Ordered K R out (a :: left) (b :: right))
    (hc : o.collectPair collect a b = .ok (.one c)) (ha : o.absorbs c = false) :
    Ordered K R [] out.reverse (o.operands c) := by
  refine pending ?_ <| hk.collected (h.mem_left a (by simp)) (h.mem_right b (by simp)) hc ha
  exact ⟨by simpa using h.mem_out, (List.pairwise_append.mp h.sorted_left).left⟩

end Ordered

theorem Merges.ends (hk : Keeps o collect K R F) {out left right r}
    (m : Merges o collect out left right r) (h : Ordered K R out left right) : Ends o K R F r := by
  induction m
  case left_done         => exact h.left_done
  case right_done        => exact h.swap.left_done
  case fault hf          => exact hk.fault (h.mem_left _ (by simp)) (h.mem_right _ (by simp)) hf
  case absorb hc         => exact hc
  case cancel hi         => exact hi h.cancel
  case requeue hp hc hf _ hi => exact hi <| h.requeue hk hp hc hf
  case left hp hc _ hi =>
    refine hi <| h.emit hk <| hk.left (h.mem_left _ ?_) (h.mem_right _ ?_) hp hc <;> simp
  case right hp hc _ hi =>
    refine hi (h.swap.emit hk <| hk.right (h.mem_left _ ?_) (h.mem_right _ ?_) hp hc).swap <;> simp
  case remerge hp hc _ _ _ _ hi₁ hi₂ hi₃ =>
    exact hi₃ <| .pending (hi₂ <| h.front hk hp hc) (hi₁ h.cancel.rest)
  case rest_halts hi                => exact hi h.cancel.rest
  case front_halts hp hc _ _ _ _ hi => exact hi <| h.front hk hp hc

theorem MergesAll.ends (hk : Keeps o collect K R F) {out xs r}
    (m : MergesAll o collect out xs r) (h : Listed K R out)
    (hx : ∀ x ∈ xs, Listed K R (o.operands x)) : Ends o K R F r := by
  induction m
  case nil          => exact h
  case cons m _ hi  =>
    exact hi (m.ends hk <| .pending h (hx _ (by simp))) fun x hm => hx x (by simp [hm])
  case halts m      => exact m.ends hk <| .pending h (hx _ (by simp))

-- A merge is only cut short by what absorbs.
theorem MergesAll.absorbs {out xs e} (m : MergesAll o collect out xs (.error (.absorbed e))) :
    o.absorbs e :=
  have hk : Keeps o collect (fun _ => True) (fun _ _ => True) (fun _ => True) :=
    .unordered (fun _ _ => trivial) fun {a b} _ _ => by
      match collect a b with
      | .ok (.one c)                        => exact fun _ _ => trivial
      | .ok .apart | .ok .cancelled | .error _ => exact trivial
  m.ends hk (.of_mem fun _ _ => trivial) fun _ _ => .of_mem fun _ _ => trivial

-- What operands combine to: something that absorbs, one of them, or the gathering of a list.
inductive Gathered (o : Operation) (K : Expr → Prop) (R : Expr → Expr → Prop) (xs : List Expr) :
    Expr → Prop
  | absorbing {e} (h : o.absorbs e) : Gathered o K R xs e
  | one {e} (h : e ∈ xs) (ha : o.absorbs e = false) (hi : o.isIdentity e = false) :
      Gathered o K R xs e
  | list {ys} (h : Listed K R ys) : Gathered o K R xs (o.gather ys)

theorem Combines.settles (hk : Keeps o collect K R F) {xs r}
    (hx : ∀ x ∈ xs, o.absorbs x = false → o.isIdentity x = false → Listed K R (o.operands x))
    (m : Combines o collect xs r) : Settles (Gathered o K R xs) F r := by
  have hs (ha : ∀ x ∈ xs, o.absorbs x = false) :
      ∀ x ∈ sort (xs.filter (!o.isIdentity ·)), Listed K R (o.operands x) := by
    intro x hm
    simp only [sort_perm.mem_iff, List.mem_filter, Bool.not_eq_true'] at hm
    exact hx x hm.left (ha x hm.left) hm.right
  cases m
  case absorbing ha => exact .absorbing ha
  case none => exact (Gathered.list .nil : Gathered o K R xs (o.gather []))
  case one x ha hi =>
    have hm : x ∈ xs.filter (!o.isIdentity ·) := by simp [hi]
    simp only [List.mem_filter, Bool.not_eq_true'] at hm
    exact .one hm.left (ha x hm.left) hm.right
  case merged ha m   => exact .list <| m.ends hk .nil (hs ha)
  case absorbed ha m => exact .absorbing <| m.ends hk .nil (hs ha)
  case fault ha m    => exact m.ends hk .nil (hs ha)

end ExactAlgebra
