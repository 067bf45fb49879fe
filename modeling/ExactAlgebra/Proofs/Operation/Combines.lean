import ExactAlgebra.Proofs.Operation.Merges

namespace ExactAlgebra

open ExactAlgebra.Expr ExactAlgebra.Operation

-- Merges operands one after the other into an output, each with its own operands.
inductive MergesAll (o : Operation) (collect : Expr → Expr → Except Fault Collected) :
    List Expr → List Expr → Except Halt (List Expr) → Prop
  | nil {out} : MergesAll o collect out [] (.ok out)
  | cons {out x out' xs r} (m : Merges o collect [] out (o.operands x) (.ok out'))
      (ms : MergesAll o collect out' xs r) : MergesAll o collect out (x :: xs) r
  | halts {out x t xs} (m : Merges o collect [] out (o.operands x) (.error t)) :
      MergesAll o collect out (x :: xs) (.error t)

-- The ways in which operands combine.
inductive Combines (o : Operation) (collect : Expr → Expr → Except Fault Collected)
    (xs : List Expr) : Except Fault Expr → Prop
  | absorbing {e} (h : e ∈ xs) (ha : o.absorbs e) : Combines o collect xs (.ok e)
  | none (hi : ∀ x ∈ xs, o.isIdentity x) : Combines o collect xs (.ok (num o.identity))
  | one {x} (ha : ∀ x ∈ xs, o.absorbs x = false) (hi : xs.filter (!o.isIdentity ·) = [x]) :
      Combines o collect xs (.ok x)
  | merged {ys} (ha : ∀ x ∈ xs, o.absorbs x = false)
      (m : MergesAll o collect [] (sort <| xs.filter (!o.isIdentity ·)) (.ok ys)) :
      Combines o collect xs (.ok (o.gather ys))
  | absorbed {e} (ha : ∀ x ∈ xs, o.absorbs x = false)
      (m : MergesAll o collect [] (sort <| xs.filter (!o.isIdentity ·)) (.error (.absorbed e))) :
      Combines o collect xs (.ok e)
  | fault {f} (ha : ∀ x ∈ xs, o.absorbs x = false)
      (m : MergesAll o collect [] (sort <| xs.filter (!o.isIdentity ·)) (.error (.fault f))) :
      Combines o collect xs (.error f)

-- What a list of operands is merged to.
inductive Gathers (o : Operation) (collect : Expr → Expr → Except Fault Collected)
    (xs : List Expr) : Except Fault Expr → Prop
  | merged {ys} (m : MergesAll o collect [] xs (.ok ys)) : Gathers o collect xs (.ok (o.gather ys))
  | absorbed {e} (m : MergesAll o collect [] xs (.error (.absorbed e))) :
      Gathers o collect xs (.ok e)
  | fault {f} (m : MergesAll o collect [] xs (.error (.fault f))) : Gathers o collect xs (.error f)

variable {o : Operation} {collect : Expr → Expr → Except Fault Collected}

theorem Combines.gathers {xs r} (hl : 2 ≤ xs.length) (ha : ∀ x ∈ xs, o.absorbs x = false)
    (hi : ∀ x ∈ xs, o.isIdentity x = false) (m : Combines o collect xs r) :
    Gathers o collect (sort xs) r := by
  have hf : xs.filter (!o.isIdentity ·) = xs := by simpa using hi
  match xs, hl with
  | x :: y :: xs, _ =>
    cases m
    case absorbing he h => cases (ha _ he).symm.trans h
    case none h         => cases (hi x (by simp)).symm.trans (h x (by simp))
    case one h          => cases hf.symm.trans h
    case merged m       => exact .merged (hf ▸ m)
    case absorbed m     => exact .absorbed (hf ▸ m)
    case fault m        => exact .fault (hf ▸ m)

theorem MergesAll.pair {a b r} (m : MergesAll o collect [] [a, b] r) :
    Merges o collect [] (o.operands a) (o.operands b) r := by
  have first {r} (m : Merges o collect [] [] (o.operands a) r) : r = .ok (o.operands a) := by
    generalize o.operands a = xs at m
    cases m <;> rfl
  cases m
  case halts m    => cases first m
  case cons m ms  =>
    cases first m
    cases ms
    case halts m   => exact m
    case cons m ms =>
      cases ms
      exact m

theorem Operation.Shrinks.foldlM_mergesAll (hs : Shrinks o collect) (out xs) :
    MergesAll o collect out xs
      (xs.foldlM (fun out x => o.merge collect out (o.operands x)) out) := by
  induction xs generalizing out with
  | nil => exact .nil
  | cons x xs hi =>
    have m := hs.merge_merges out (o.operands x)
    simp only [List.foldlM_cons, bind, Except.bind]
    cases h : o.merge collect out (o.operands x)
    case error => exact .halts (h ▸ m)
    case ok    => exact .cons (h ▸ m) (hi _)

theorem Operation.Shrinks.combineWith_combines (hs : Shrinks o collect) {xs} :
    Combines o collect xs (o.combineWith collect xs) := by
  unfold combineWith
  split
  case h_1 e h => exact .absorbing (List.mem_of_find?_eq_some h) (by simpa using List.find?_some h)
  case h_2 h =>
    have ha : ∀ x ∈ xs, o.absorbs x = false := by simpa using h
    split
    case h_1 h => exact .none (by simpa using h)
    case h_2 h => exact .one ha h
    case h_3 =>
      have m := hs.foldlM_mergesAll [] (sort <| xs.filter (!o.isIdentity ·))
      split
      case h_1 h => exact .merged ha (h ▸ m)
      case h_2 h => exact .absorbed ha (h ▸ m)
      case h_3 h => exact .fault ha (h ▸ m)

-- Two operands are merged with each other, in one order or the other.
theorem Operation.Shrinks.combineWith_merges (hs : Shrinks o collect) {a b}
    (ha : o.absorbs a = false) (hb : o.absorbs b = false) (hia : o.isIdentity a = false)
    (hib : o.isIdentity b = false) :
    ∃ u v r, sort [a, b] = [u, v] ∧ Merges o collect [] (o.operands u) (o.operands v) r ∧
      ∀ ys, r = .ok ys → o.combineWith collect [a, b] = .ok (o.gather ys) := by
  have m : Combines o collect [a, b] (o.combineWith collect [a, b]) := hs.combineWith_combines
  replace m := m.gathers (by simp) (by simpa using ⟨ha, hb⟩) (by simpa using ⟨hia, hib⟩)
  obtain ⟨u, v, hs⟩ : ∃ u v, sort [a, b] = [u, v] := by
    simp only [sort, Expr.insert]
    split <;> exact ⟨_, _, rfl⟩
  rw [hs] at m
  generalize o.combineWith collect [a, b] = r at m
  cases m
  case merged m   => exact ⟨u, v, _, hs, m.pair, fun ys h => by cases h; rfl⟩
  case absorbed m => exact ⟨u, v, _, hs, m.pair, fun ys h => by cases h⟩
  case fault m    => exact ⟨u, v, _, hs, m.pair, fun ys h => by cases h⟩

end ExactAlgebra
