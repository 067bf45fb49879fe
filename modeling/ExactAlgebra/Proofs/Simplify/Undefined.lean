import ExactAlgebra.Proofs.Simplify.Termination

-- What is undefined cannot be hidden: a tree with an undefined subtree is undefined, whatever else
-- is in it and whichever rule would drop that subtree. Only products and powers are undefined on
-- their own account, and the first of them is what the whole tree is undefined for.

namespace ExactAlgebra

open ExactAlgebra.Expr

-- What a computation is undefined for.
def cause? {α} : Except Fault α → Option Undefined
  | .error (.undefined u) => u
  | _                     => none

-- A computation that is undefined for a given cause or else has a result.
inductive Blames {α} : Except Fault α → Option Undefined → Prop
  | result {a} : Blames (.ok a) none
  | undefined {u} : Blames (.error (.undefined u)) (some u)

namespace Blames

variable {α β : Type} {r : Except Fault α} {u : Undefined} {o p : Option Undefined}

theorem of_settles {P} (h : Settles P Fault.HasCause r) : Blames r (cause? r) := by
  match r with
  | .ok _                                       => exact .result
  | .error (.undefined _)                       => exact .undefined
  | .error .noLeadingFactor | .error .exhausted => exact False.elim h

theorem of_settles_ok {P} (h : Settles P (fun _ => False) r) : Blames r none := by
  cases r
  case ok    => exact .result
  case error => exact False.elim h

-- The first cause is the one that counts.
theorem bind {k : α → Except Fault β} (h : Blames r o) (hk : ∀ a, r = .ok a → Blames (k a) p) :
    Blames (r >>= k) (o.or p) := by
  cases h
  case result    => exact hk _ rfl
  case undefined => exact .undefined

theorem error_iff (h : Blames r o) : r = .error (.undefined u) ↔ o = some u := by
  cases h <;> simp

end Blames

namespace Expr

-- The subtrees of a tree in the order in which they are simplified, which ends with the whole tree.
mutual
def subtrees : Expr → List Expr
  | num q    => [num q]
  | sym s    => [sym s]
  | sum xs   => subtreesOf xs ++ [sum xs]
  | prod xs  => subtreesOf xs ++ [prod xs]
  | pow b e  => subtrees b ++ subtrees e ++ [pow b e]
  | fact e   => subtrees e ++ [fact e]
  | app s xs => subtreesOf xs ++ [app s xs]

def subtreesOf : List Expr → List Expr
  | []      => []
  | x :: xs => subtrees x ++ subtreesOf xs
end

theorem mem_subtreesOf {s xs} : s ∈ subtreesOf xs ↔ ∃ x ∈ xs, s ∈ subtrees x := by
  induction xs with
  | nil => simp [subtreesOf]
  | cons _ _ hi => simp [subtreesOf, hi]

-- What a product or a power is undefined for although each of its operands has a canonical form.
def origin? (c : Config) : Expr → Option Undefined
  | prod xs => do cause? (productOf (← (simplifyAll c xs).toOption))
  | pow b e => do cause? (powerOf (← (b.simplify c).toOption) (← (e.simplify c).toOption))
  | _       => none

variable {c : Config} {e s : Expr} {xs : List Expr} {u : Undefined}

theorem mem_subtrees_trans {t : Expr} (hs : s ∈ e.subtrees) (ht : t ∈ s.subtrees) :
    t ∈ e.subtrees := by
  induction e <;> simp only [subtrees, List.mem_append, List.mem_singleton, mem_subtreesOf] at hs
  case num | sym =>
    subst hs
    exact ht
  case sum xs hi | prod xs hi | app xs hi =>
    cases hs
    case inl hs =>
      have ⟨x, hx, hs⟩ := hs
      exact List.mem_append_left _ <| mem_subtreesOf.mpr ⟨x, hx, hi x hx hs⟩
    case inr hs => exact hs ▸ ht
  case pow hb he =>
    cases hs
    case inl hs =>
      apply List.mem_append_left
      cases hs
      case inl hs => exact List.mem_append_left _ (hb hs)
      case inr hs => exact List.mem_append_right _ (he hs)
    case inr hs => exact hs ▸ ht
  case fact hi =>
    cases hs
    case inl hs => exact List.mem_append_left _ (hi hs)
    case inr hs => exact hs ▸ ht

theorem simplifyAll_blames (h : ∀ x ∈ xs, Blames (x.simplify c) (x.subtrees.findSome? (origin? c))) :
    Blames (simplifyAll c xs) ((subtreesOf xs).findSome? (origin? c)) := by
  induction xs with
  | nil => exact .result
  | cons x xs hi =>
    have ⟨hx, hxs⟩ := List.forall_mem_cons.mp h
    simp only [simplifyAll, subtreesOf, List.findSome?_append]
    refine hx.bind fun y _ => ?_
    have hr := (hi hxs).bind (k := fun ys => pure (y :: ys)) fun _ _ => .result
    rwa [Option.or_none] at hr

theorem simplify_blames : Blames (e.simplify c) (e.subtrees.findSome? (origin? c)) := by
  have hall {xs ys} (h : simplifyAll c xs = .ok ys) : ∀ y ∈ ys, y.Every Solid :=
    (simplifyAll_settles fun _ _ => simplify_settles).ok h
  induction e <;> simp only [simplify, subtrees, List.findSome?_append, List.findSome?_singleton]
  case num | sym => exact .result
  case sum xs hi =>
    refine (simplifyAll_blames hi).bind fun ys hys => ?_
    exact .of_settles_ok <| solid_hereditary.sumOf (hall hys)
  case prod xs hi =>
    refine (simplifyAll_blames hi).bind fun ys hys => ?_
    have hs := solid_hereditary.productOf (hall hys)
    simpa [origin?, hys, Except.toOption] using Blames.of_settles hs
  case pow b e hb he =>
    rw [Option.or_assoc]
    refine hb.bind fun b' hb' => he.bind fun e' he' => ?_
    have hs := solid_hereditary.powerOf (simplify_settles.ok hb') (simplify_settles.ok he')
    simpa [origin?, hb', he', Except.toOption] using Blames.of_settles hs
  case fact e hi => exact hi.bind fun _ _ => .result
  case app s xs hi => exact (simplifyAll_blames hi).bind fun _ _ => .result

theorem simplify_eq_undefined_iff :
    e.simplify c = .error (.undefined u) ↔ e.subtrees.findSome? (origin? c) = some u :=
  simplify_blames.error_iff

theorem simplify_undefined (hs : s ∈ e.subtrees) (h : s.simplify c = .error (.undefined u)) :
    ∃ v, e.simplify c = .error (.undefined v) ∧ e.subtrees.findSome? (origin? c) = some v := by
  have ⟨t, ht, hu⟩ := List.exists_of_findSome?_eq_some <| simplify_eq_undefined_iff.mp h
  have hsome : (e.subtrees.findSome? (origin? c)).isSome :=
    List.findSome?_isSome_iff.mpr ⟨t, mem_subtrees_trans hs ht, by simp [hu]⟩
  have ⟨v, hv⟩ := Option.isSome_iff_exists.mp hsome
  exact ⟨v, simplify_eq_undefined_iff.mpr hv, hv⟩

-- What is undefined here stands where a rule would drop it: under an exponent 0, as the power of a
-- base 1, next to a factor 0, and in terms that would cancel.
theorem simplify_undefined_dropped :
    let s := pow (num 0) (num (-1))
    let p := pow (fact (pow (num 0) (sum [sym "y", prod [num (-1), sym "y"]]))) (num 0)
    let q := prod [num 0, app "f" [pow (num 1) s]]
    let e := sum [p, q, prod [num (-1), q]]
    s ∈ e.subtrees ∧ s.simplify {} = .error (.undefined (.zeroPower (-1))) ∧
      e.simplify {} = .error (.undefined (.zeroPower 0)) := by
  intro s p q e
  have hs : s ∈ e.subtrees := by decide
  have h : s.simplify {} = .error (.undefined (.zeroPower (-1))) := by cbv
  have ho : e.subtrees.findSome? (origin? {}) = some (.zeroPower 0) := by cbv
  obtain ⟨v, hv, ho'⟩ := simplify_undefined hs h
  cases ho.symm.trans ho'
  exact ⟨hs, h, hv⟩

end Expr

end ExactAlgebra
