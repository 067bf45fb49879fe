import ExactAlgebra.Expr.Symbols
import ExactAlgebra.Proofs.Simplify.Termination

-- Simplifying drops names that cancel, but never makes one up.

namespace ExactAlgebra.Expr

-- The functions of a tree as they are applied, from left to right.
mutual
def functions : Expr → List String
  | num _ | sym _    => []
  | sum xs | prod xs => functionsOf xs
  | pow b e          => functions b ++ functions e
  | fact e           => functions e
  | app s xs         => s :: functionsOf xs

def functionsOf : List Expr → List String
  | []      => []
  | x :: xs => functions x ++ functionsOf xs
end

theorem mem_functionsOf {s xs} : s ∈ functionsOf xs ↔ ∃ x ∈ xs, s ∈ functions x := by
  induction xs with
  | nil => simp [functionsOf]
  | cons _ _ hi => simp [functionsOf, hi]

-- Nodes that take the symbols and the functions they name from given ones.
def Named (symbols functions : List String) : Expr → Prop
  | sym s   => s ∈ symbols
  | app s _ => s ∈ functions
  | _       => True

variable {S F : List String} {e r : Expr}

theorem every_named_iff : e.Every (Named S F) ↔ e.symbols ⊆ S ∧ e.functions ⊆ F := by
  simp only [List.subset_def]
  induction e
  case num => simp [Named, symbols, functions]
  case sym => simp [Named, symbols, functions]
  case fact hi => simp [Named, symbols, functions, hi]
  case pow hb he =>
    simp only [every_pow, Named, hb, he, symbols, functions, List.mem_append, true_and]
    grind
  case sum xs hi | prod xs hi | app s xs hi =>
    simp [Named, symbols, functions, mem_symbolsOf, mem_functionsOf]
    grind

theorem named_hereditary : Hereditary (Every fun e => Solid e ∧ Named S F e) where
  num      := ⟨trivial, trivial⟩
  node {o} := by cases o <;> simp [Operation.node, Solid, Named]
  pow      := by simp [Solid, Named]

theorem simplify_named {c : Config} (h : e.Every (Named S F)) (hr : e.simplify c = .ok r) :
    r.Every (Named S F) := by
  have hb : e.Every (Builds (Every fun e => Solid e ∧ Named S F e)) := by
    apply h.mono
    intro e he
    cases e
    case sym      => exact ⟨trivial, he⟩
    case fact     => exact fun _ hf => ⟨⟨trivial, trivial⟩, hf⟩
    case app s xs => exact fun ys hy => every_app.mpr ⟨⟨trivial, he⟩, hy⟩
    all_goals exact trivial
  exact ((named_hereditary.simplify hb).ok hr).mono fun _ => And.right

-- So what does not depend on a symbol does not come to depend on it.
theorem simplify_names {c : Config} (h : e.simplify c = .ok r) :
    r.unknowns ⊆ e.unknowns ∧ r.functions ⊆ e.functions ∧
      ∀ s, e.references s = false → r.references s = false := by
  have he : e.Every (Named e.symbols e.functions) := every_named_iff.mpr ⟨fun _ => id, fun _ => id⟩
  have ⟨hs, hf⟩ := every_named_iff.mp (simplify_named he h)
  have hu : r.unknowns ⊆ e.unknowns := fun s hm => mem_unknowns.mpr (hs (mem_unknowns.mp hm))
  have href (s : String) (hn : e.references s = false) : r.references s = false := by
    simp only [references, decide_eq_false_iff_not] at hn ⊢
    exact fun hm => hn (hs hm)
  exact ⟨hu, hf, href⟩

-- The powers of y and the calls of g cancel, and one call of f is left of two.
theorem simplify_names_cancelled :
    let u := app "f" [sym "z"]
    let v := prod [pow (sym "y") (sym "n"), sym "x", pow (sym "y") (prod [num (-1), sym "n"])]
    let w := app "g" [num 3]
    let e := sum [w, u, v, u, prod [num (-1), w]]
    let r := sum [prod [num 2, u], sym "x"]
    e.simplify {} = .ok r ∧ e.unknowns = ["n", "x", "y", "z"] ∧ r.unknowns = ["x", "z"] ∧
      e.functions = ["g", "f", "f", "g"] ∧ r.functions = ["f"] ∧ r.unknowns ⊆ e.unknowns ∧
      r.functions ⊆ e.functions := by
  intro u v w e r
  have h : e.simplify {} = .ok r := by cbv
  obtain ⟨hu, hf, _⟩ := simplify_names h
  exact ⟨h, by cbv, by cbv, by cbv, by cbv, hu, hf⟩

end ExactAlgebra.Expr
