import ExactAlgebra.Proofs.Operation.Combines
import ExactAlgebra.Proofs.Outcome

-- What is worth the same before and after collecting is worth the same before and after a merge, in
-- whichever order its operands meet.

namespace ExactAlgebra

open ExactAlgebra.Expr ExactAlgebra.Operation

variable {α : Type} {m : Expr → α → Prop} {op : α → α → α} {unit : α} {F : Fault → Prop}

-- What the worths of operands come to. The worth of an operand is a relation, since some have none.
def Totals (m : Expr → α → Prop) (op : α → α → α) (unit : α) : List Expr → α → Prop
  | [], u      => u = unit
  | x :: xs, u => ∃ v w, m x v ∧ Totals m op unit xs w ∧ u = op v w

-- What two operands of some worth collect to.
def Weighs (m : Expr → α → Prop) (unit u : α) : Collected → Prop
  | .apart     => True
  | .cancelled => u = unit
  | .one c     => m c u

-- A worth that collecting keeps, with faults `F` only. Nothing adds to the worth of what absorbs.
structure Measure (o : Operation) (collect : Expr → Expr → Except Fault Collected)
    (m : Expr → α → Prop) (op : α → α → α) (unit : α) (F : Fault → Prop) : Prop where
  identity {u} : m (num o.identity) u → u = unit
  operands {x u} : m x u → Totals m op unit (o.operands x) u
  absorbing {x u v} : o.absorbs x → m x u → op u v = u
  pair {a b u v} : m a u → m b v → Settles (Weighs m unit (op u v)) F (o.collectPair collect a b)

-- How a merge may end that keeps a worth.
def Reaches (o : Operation) (m : Expr → α → Prop) (op : α → α → α) (unit : α) (F : Fault → Prop)
    (u : α) : Except Halt (List Expr) → Prop
  | .ok xs               => Totals m op unit xs u
  | .error (.absorbed e) => o.absorbs e ∧ m e u
  | .error (.fault f)    => F f

namespace Totals

variable {o : Operation} {collect : Expr → Expr → Except Fault Collected}
variable {x e : Expr} {xs ys out left right : List Expr} {u v w : α}

theorem singleton [Std.LawfulRightIdentity op unit] : Totals m op unit [x] u ↔ m x u := by
  have hr (x : α) : op x unit = x := Std.LawfulRightIdentity.right_id x
  simp [Totals, hr]

variable [Std.Associative op] [Std.Commutative op]

theorem append [Std.LawfulLeftIdentity op unit] : Totals m op unit (xs ++ ys) u ↔
    ∃ v w, Totals m op unit xs v ∧ Totals m op unit ys w ∧ u = op v w := by
  have hl (x : α) : op unit x = x := Std.LawfulLeftIdentity.left_id x
  induction xs generalizing u with
  | nil => simp [Totals, hl]
  | cons x xs hi =>
    simp only [List.cons_append, Totals, hi]
    constructor
    · rintro ⟨a, _, hx, ⟨b, c, hxs, hys, rfl⟩, rfl⟩
      exact ⟨op a b, c, ⟨a, b, hx, hxs, rfl⟩, hys, by ac_rfl⟩
    · rintro ⟨_, c, ⟨a, b, hx, hxs, rfl⟩, hys, rfl⟩
      exact ⟨a, op b c, hx, ⟨b, c, hxs, hys, rfl⟩, by ac_rfl⟩

theorem perm (hp : xs.Perm ys) (h : Totals m op unit xs u) : Totals m op unit ys u := by
  induction hp generalizing u with
  | nil             => exact h
  | trans _ _ h₁ h₂ => exact h₂ (h₁ h)
  | cons x _ hi     =>
    have ⟨v, w, hx, hw, hu⟩ := h
    exact ⟨v, w, hx, hi hw, hu⟩
  | swap x y zs     =>
    have ⟨a, _, hy, ⟨b, c, hx, hz, hw⟩, hu⟩ := h
    exact ⟨b, op a c, hx, ⟨a, c, hy, hz, rfl⟩, by rw [hu, hw]; ac_rfl⟩

theorem reverse (h : Totals m op unit xs u) : Totals m op unit xs.reverse u :=
  h.perm (List.reverse_perm xs).symm

theorem exists_of_mem (hx : x ∈ xs) (h : Totals m op unit xs u) : ∃ v w, m x v ∧ u = op v w := by
  have ⟨v, w, hv, _, hu⟩ := h.perm (List.perm_cons_erase hx)
  exact ⟨v, w, hv, hu⟩

end Totals

section

variable {o : Operation} {collect : Expr → Expr → Except Fault Collected}

theorem Reaches.congr {u v r} (h : Reaches o m op unit F u r) (he : u = v) :
    Reaches o m op unit F v r :=
  he ▸ h

variable [Std.Commutative op]

-- Nothing adds to the worth of what absorbs, wherever it turns up.
theorem Reaches.more (hm : Measure o collect m op unit F) {u v t}
    (h : Reaches o m op unit F u (.error t)) : Reaches o m op unit F (op v u) (.error t) := by
  cases t
  case fault => exact h
  case absorbed e =>
    have ⟨ha, he⟩ := h
    rw [show op v u = op u v from Std.Commutative.comm v u, hm.absorbing ha he]
    exact ⟨ha, he⟩

variable [Std.Associative op] [Std.LawfulIdentity op unit]

theorem Merges.reaches (hm : Measure o collect m op unit F) {out left right r u v w}
    (s : Merges o collect out left right r) (hu : Totals m op unit out u)
    (hv : Totals m op unit left v) (hw : Totals m op unit right w) :
    Reaches o m op unit F (op u (op v w)) r := by
  have hl (x : α) : op unit x = x := Std.LawfulLeftIdentity.left_id x
  have hr (x : α) : op x unit = x := Std.LawfulRightIdentity.right_id x
  induction s generalizing u v w
  case left_done  => exact Totals.append.mpr ⟨u, w, hu.reverse, hw, by rw [show v = _ from hv, hl]⟩
  case right_done => exact Totals.append.mpr ⟨u, v, hu.reverse, hv, by rw [show w = _ from hw, hr]⟩
  all_goals
    have ⟨a, v', ha, hv', hva⟩ := hv
    have ⟨b, w', hb, hw', hwb⟩ := hw
    subst hva hwb
  case fault h       => exact (hm.pair ha hb).error h
  case right hi      => exact (hi ⟨b, u, hb, hu, rfl⟩ hv hw').congr (by ac_rfl)
  case left hi       => exact (hi ⟨a, u, ha, hu, rfl⟩ hv' hw).congr (by ac_rfl)
  case cancel h _ hi =>
    have hab := (hm.pair ha hb).ok h
    have he : op (op a v') (op b w') = op (op a b) (op v' w') := by ac_rfl
    exact (hi hu hv' hw').congr (by rw [he, hab, hl])
  case absorb h hc =>
    have he : Reaches o m op unit F (op a b) (.error (.absorbed _)) := ⟨hc, (hm.pair ha hb).ok h⟩
    exact (he.more hm (v := op u (op v' w'))).congr (by ac_rfl)
  case requeue h _ _ _ hi =>
    have hc := (hm.pair ha hb).ok h
    exact (hi hu ⟨_, v', hc, hv', rfl⟩ hw').congr (by ac_rfl)
  case remerge h _ _ _ _ _ hi₁ hi₂ hi₃ =>
    have hc := (hm.pair ha hb).ok h
    have hrest  := hi₁ rfl hv' hw'
    have hfront := hi₂ rfl hu.reverse (hm.operands hc)
    exact (hi₃ rfl hfront hrest).congr (by rw [hl, hl, hl]; ac_rfl)
  case rest_halts hi =>
    have hrest := (hi rfl hv' hw').congr (hl _)
    exact (hrest.more hm (v := op u (op a b))).congr (by ac_rfl)
  case front_halts h _ _ _ _ _ hi =>
    have hfront := (hi rfl hu.reverse (hm.operands ((hm.pair ha hb).ok h))).congr (hl _)
    exact (hfront.more hm (v := op v' w')).congr (by ac_rfl)

theorem MergesAll.reaches (hm : Measure o collect m op unit F) {out xs r u v}
    (s : MergesAll o collect out xs r) (hu : Totals m op unit out u)
    (hv : Totals m op unit xs v) : Reaches o m op unit F (op u v) r := by
  have hl (x : α) : op unit x = x := Std.LawfulLeftIdentity.left_id x
  induction s generalizing u v
  case nil =>
    rw [show v = unit from hv, show op u unit = u from Std.LawfulRightIdentity.right_id u]
    exact hu
  case cons s _ hi =>
    have ⟨a, w, ha, hw, hv⟩ := hv
    have hout := (s.reaches hm rfl hu (hm.operands ha)).congr (hl _)
    exact (hi hout hw).congr (by rw [hv]; ac_rfl)
  case halts s =>
    have ⟨a, w, ha, hw, hv⟩ := hv
    have hout := (s.reaches hm rfl hu (hm.operands ha)).congr (hl _)
    exact (hout.more hm (v := w)).congr (by rw [hv]; ac_rfl)

omit [Std.Commutative op] [Std.Associative op] in
theorem Totals.filter (hm : Measure o collect m op unit F) {xs u} (h : Totals m op unit xs u) :
    Totals m op unit (xs.filter (!o.isIdentity ·)) u := by
  have hl (x : α) : op unit x = x := Std.LawfulLeftIdentity.left_id x
  induction xs generalizing u with
  | nil => exact h
  | cons x xs hi =>
    have ⟨v, w, hv, hw, hu⟩ := h
    simp only [List.filter_cons]
    split
    case isTrue        => exact ⟨v, w, hv, hi hw, hu⟩
    case isFalse hx =>
      have hx : x = num o.identity := by simpa [isIdentity] using hx
      rw [hu, show v = unit from hm.identity (hx ▸ hv), hl]
      exact hi hw

theorem Combines.settles_worth (hm : Measure o collect m op unit F)
    (hg : ∀ {xs u}, Totals m op unit xs u → m (o.gather xs) u) {xs r u}
    (s : Combines o collect xs r) (h : Totals m op unit xs u) : Settles (m · u) F r := by
  have hl (x : α) : op unit x = x := Std.LawfulLeftIdentity.left_id x
  have hs := (h.filter hm).perm sort_perm.symm
  cases s
  case absorbing he ha =>
    have ⟨v, w, hv, hu⟩ := h.exists_of_mem he
    rw [hu, hm.absorbing ha hv]
    exact hv
  case none hi =>
    have hn := h.filter hm
    rw [List.filter_eq_nil_iff.mpr (by simpa using hi)] at hn
    exact hg hn
  case one hi     => exact Totals.singleton.mp (hi ▸ h.filter hm)
  case merged s   => exact hg <| (s.reaches hm rfl hs).congr (hl u)
  case absorbed s => exact ((s.reaches hm rfl hs).congr (hl u)).right
  case fault s    => exact (s.reaches hm rfl hs).congr (hl u)

end

end ExactAlgebra
