import Mathlib.Data.Finset.Card
import Mathlib.Order.Interval.Finset.Nat
import IgnoreGates.CnfTools.CNFFormula

/-!
# The independent set problem of a formula

`generate_independent_set_problem` gives a number to every occurrence of a literal.  The
clauses become cliques, and the occurrences of complementary literals are connected.  A first
pass counts the nodes and the edges and remembers the nodes of every literal, starting with
node one; two further passes print the edges of the cliques, starting with node zero, and the
edges between complementary literals.

The pass over the cliques pairs every node with itself as well.  Hence the printed edges are
those of a simple graph only where there is no node.
-/

namespace CnfTools

open Logic

namespace IndependentSet

/-- The value of an `unsigned` after an addition. -/
def unsigned (n : Nat) : Nat :=
  n % 2 ^ 32

/-! ### Counting -/

/-- The variables of the first pass. -/
structure Counts where
  literal2nodes : Lit → List Nat := fun _ => []
  nNodes : Nat := 0
  nEdges : Nat := 0
  nodeId : Nat := 1

/-- The loop of the first pass over the literals of a clause, from position `i` on. -/
def remember (nodeId : Nat) : Nat → (Lit → List Nat) → Cl → Lit → List Nat
  | _, literal2nodes, [] => literal2nodes
  | i, literal2nodes, l :: clause =>
      remember nodeId (i + 1)
        (Function.update literal2nodes l (literal2nodes l ++ [unsigned (nodeId + i)])) clause

/-- The body of the loop of the first pass. -/
def count (s : Counts) (clause : Cl) : Counts where
  nNodes := unsigned (s.nNodes + clause.length)
  nEdges := unsigned (s.nEdges + clause.length * (clause.length - 1) / 2)
  literal2nodes := remember s.nodeId 0 s.literal2nodes clause
  nodeId := unsigned (s.nodeId + clause.length)

/-- The first pass. -/
def counts (F : CNFFormula) : Counts :=
  F.formula.foldl count {}

/-- The variables of the formula, as the loops enumerate them. -/
def varIds (F : CNFFormula) : List Nat :=
  List.range' 1 F.nVars

/-- The loop that counts the edges between nodes of complementary literals. -/
def countConflicts (F : CNFFormula) (s : Counts) : Nat :=
  (varIds F).foldl
    (fun nEdges i => unsigned (nEdges
      + (s.literal2nodes (Lit.ofVar i false)).length * (s.literal2nodes (Lit.ofVar i true)).length))
    s.nEdges

/-! ### Edges -/

/-- An edge is printed as two numbers. -/
abbrev Edge := Nat × Nat

/-- The edges printed for a clause with `size` literals: `j` starts with `i`. -/
def clique (nodeId size : Nat) : List Edge :=
  (List.range size).flatMap (fun i =>
    (List.range' i (size - i)).map (fun j => (unsigned (nodeId + i), unsigned (nodeId + j))))

/-- The pass over the cliques. -/
def cliques : Nat → List Cl → List Edge
  | _, [] => []
  | nodeId, clause :: clauses =>
      clique nodeId clause.length ++ cliques (unsigned (nodeId + clause.length)) clauses

/-- The pass over the complementary literals. -/
def conflicts (F : CNFFormula) (s : Counts) : List Edge :=
  (varIds F).flatMap (fun i =>
    (s.literal2nodes (Lit.ofVar i false)).flatMap (fun node1 =>
      (s.literal2nodes (Lit.ofVar i true)).map (fun node2 => (node1, node2))))

/-- What is printed: the size of the independent set, the header and the edges. -/
structure Problem where
  size : Nat
  nNodes : Nat
  nEdges : Nat
  edges : List Edge

def generateIndependentSetProblem (F : CNFFormula) : Problem where
  size := F.nClauses
  nNodes := (counts F).nNodes
  nEdges := countConflicts F (counts F)
  edges := cliques 0 F.formula ++ conflicts F (counts F)

/-! ### Correctness -/

/-- The printed edges are those of a simple graph with the nodes and the number of edges of
the header. -/
structure Problem.Simple (p : Problem) : Prop where
  loopless : ∀ e ∈ p.edges, e.1 ≠ e.2
  distinct : p.edges.Pairwise (fun e f => e ≠ f ∧ e ≠ f.swap)
  nodes : ∀ e ∈ p.edges, e.1 ∈ Finset.Icc 1 p.nNodes ∧ e.2 ∈ Finset.Icc 1 p.nNodes
  nEdges : p.edges.length = p.nEdges

/-- The graph has an independent set of the printed size. -/
def Problem.Solvable (p : Problem) : Prop :=
  ∃ S : Finset Nat, S ⊆ Finset.Icc 1 p.nNodes ∧ S.card = p.size
    ∧ ∀ a ∈ S, ∀ b ∈ S, (a, b) ∉ p.edges

/-- A clause with a literal is printed with an edge from its first node to itself. -/
theorem exists_loop_of_clique {nodeId size : Nat} (h : 0 < size) :
  (unsigned nodeId, unsigned nodeId) ∈ clique nodeId size
  := by
  apply List.mem_flatMap.mpr
  use 0, List.mem_range.mpr h
  apply List.mem_map.mpr
  use 0
  rw [List.mem_range'_1]
  exact ⟨⟨Nat.le_refl 0, by omega⟩, rfl⟩

theorem exists_loop {clauses : List Cl} (h : ∃ c ∈ clauses, c ≠ []) (nodeId : Nat) :
  ∃ e ∈ cliques nodeId clauses, e.1 = e.2
  := by
  induction clauses generalizing nodeId with
  | nil =>
      obtain ⟨c, hc, -⟩ := h
      cases hc
  | cons c clauses ih =>
      by_cases hc : c = []
      · obtain ⟨d, hd, hne⟩ := h
        obtain rfl | hd := List.mem_cons.mp hd
        · exact absurd hc hne
        · obtain ⟨e, he, heq⟩ := ih ⟨d, hd, hne⟩ (unsigned (nodeId + c.length))
          exact ⟨e, List.mem_append_right _ he, heq⟩
      · refine ⟨(unsigned nodeId, unsigned nodeId), ?_, rfl⟩
        apply List.mem_append_left
        apply exists_loop_of_clique
        exact List.length_pos_of_ne_nil hc

/-- Empty clauses are neither counted nor printed. -/
theorem foldl_count_of_nil {clauses : List Cl} (h : ∀ c ∈ clauses, c = []) {s : Counts}
    (hs : s.nNodes = 0 ∧ s.nEdges = 0 ∧ ∀ l, s.literal2nodes l = []) :
  (clauses.foldl count s).nNodes = 0 ∧ (clauses.foldl count s).nEdges = 0
    ∧ ∀ l, (clauses.foldl count s).literal2nodes l = []
  := by
  induction clauses generalizing s with
  | nil => exact hs
  | cons c clauses ih =>
      apply ih (fun d hd => h d (List.mem_cons_of_mem c hd))
      obtain ⟨hnodes, hedges, hlits⟩ := hs
      rw [h c List.mem_cons_self, count]
      refine ⟨?_, ?_, hlits⟩
      · simp [hnodes, unsigned]
      · simp [hedges, unsigned]

theorem cliques_of_nil {clauses : List Cl} (h : ∀ c ∈ clauses, c = []) (nodeId : Nat) :
  cliques nodeId clauses = []
  := by
  induction clauses generalizing nodeId with
  | nil => rfl
  | cons c clauses ih =>
      rw [cliques, h c List.mem_cons_self, ih (fun d hd => h d (List.mem_cons_of_mem c hd))]
      rfl

/-- Without literals there are no nodes and no edges. -/
theorem generate_of_nil {F : CNFFormula} (h : ∀ c ∈ F.formula, c = []) :
  generateIndependentSetProblem F = ⟨F.nClauses, 0, 0, []⟩
  := by
  obtain ⟨hnodes, hedges, hlits⟩ := foldl_count_of_nil h (s := {}) ⟨rfl, rfl, fun _ => rfl⟩
  have hconflicts : countConflicts F (counts F) = 0 := by
    have hzero : unsigned 0 = 0 := rfl
    simp only [countConflicts, counts, hedges, hlits, List.length_nil, Nat.mul_zero, Nat.add_zero]
    generalize varIds F = vs
    induction vs with
    | nil => rfl
    | cons v vs ih => rwa [List.foldl_cons, hzero]
  rw [generateIndependentSetProblem, hconflicts, cliques_of_nil h, counts, hnodes, conflicts]
  simp [hlits]

/-- Clauses without literals are satisfiable exactly when there is no clause. -/
theorem satisfiable_iff_of_nil {F : CNFFormula} (h : ∀ c ∈ F.formula, c = []) :
  Satisfiable {c | c ∈ F.formula} ↔ F.nClauses = 0
  := by
  rw [CNFFormula.nClauses, List.length_eq_zero_iff]
  constructor
  · rintro ⟨σ, hσ⟩
    apply List.eq_nil_iff_forall_not_mem.mpr
    intro c hc
    obtain ⟨l, hl, -⟩ := hσ c hc
    rw [h c hc] at hl
    cases hl
  · intro hnil
    use fun _ => false
    intro c hc
    rw [Set.mem_ofPred_eq, hnil] at hc
    cases hc

/-- The printed problem is a simple graph with an independent set of the printed size exactly
for satisfiable formulas, if and only if no clause has a literal. -/
theorem generateIndependentSetProblem_iff (F : CNFFormula) :
  ((generateIndependentSetProblem F).Simple
      ∧ (Satisfiable {c | c ∈ F.formula} ↔ (generateIndependentSetProblem F).Solvable))
    ↔ ∀ c ∈ F.formula, c = []
  := by
  constructor
  · rintro ⟨hsimple, -⟩
    by_contra hne
    push Not at hne
    obtain ⟨e, he, heq⟩ := exists_loop hne 0
    exact hsimple.loopless e (List.mem_append_left _ he) heq
  · intro h
    rw [generate_of_nil h, satisfiable_iff_of_nil h]
    constructor
    · constructor <;> simp
    · constructor
      · intro hzero
        exact ⟨∅, by simp, hzero.symm, by simp⟩
      · rintro ⟨S, hS, hcard, -⟩
        have hempty : S = ∅ := Finset.subset_empty.mp hS
        rw [hempty, Finset.card_empty] at hcard
        exact hcard.symm

/-- The formula of the single clause `1` is printed with the edge from node zero to itself. -/
theorem not_generateIndependentSetProblem :
  ¬ ∀ clauses : List (List Int),
      (generateIndependentSetProblem (CNFFormula.readDimacs clauses)).Simple
        ∧ (Satisfiable {c | c ∈ (CNFFormula.readDimacs clauses).formula}
          ↔ (generateIndependentSetProblem (CNFFormula.readDimacs clauses)).Solvable)
  := by
  intro h
  obtain ⟨hsimple, -⟩ := h [[1]]
  exact hsimple.loopless (0, 0) (by decide) rfl

end IndependentSet

end CnfTools
