import Mathlib.Logic.Function.Basic
import IgnoreGates.CnfTools.CNFFormula

/-!
# Gate formulas

`GateFormula` collects the result of the gate analysis: the top-level clauses, one gate for
each output variable and the clauses that are left over.  Its mark `inputs` says which
literals have been used as roots or as inputs of gates; a gate whose output is marked in
both polarities when it is added is taken to be nested non-monotonically.
-/

namespace CnfTools

/-- `enum GateType`. -/
inductive GateType where
  | NONE
  | GENERIC
  | MONO
  | AND
  | OR
  | TRIV
  | EQIV
  | FULL
  deriving DecidableEq, Repr

/-- `struct Gate`: `fwd` holds the clauses with the complement of the output, `bwd` the
clauses with the output. -/
structure Gate where
  type : GateType := .NONE
  out : Lit := litUndef
  fwd : For := []
  bwd : For := []
  notMono : Bool := false
  inp : List Lit := []

namespace Gate

def isDefined (g : Gate) : Bool :=
  g.out ≠ litUndef

def hasNonMonotonicParent (g : Gate) : Bool :=
  g.notMono

end Gate

/-- Marks on literals. -/
abbrev Marks := Lit → Bool

/-- The loop that marks the literals of a list. -/
def Marks.set (m : Marks) (ls : List Lit) : Marks :=
  ls.foldl (fun m l => Function.update m l true) m

theorem Marks.set_apply (m : Marks) (ls : List Lit) (l : Lit) :
  m.set ls l = (m l || decide (l ∈ ls))
  := by
  induction ls generalizing m with
  | nil => simp [Marks.set]
  | cons k ls ih =>
      rw [Marks.set, List.foldl_cons]
      have hset := ih (Function.update m k true)
      rw [Marks.set] at hset
      rw [hset]
      by_cases hlk : l = k
      · simp [hlk]
      · rw [Function.update_of_ne hlk]
        simp [hlk]

/-- `GateFormula`. -/
structure GateFormula where
  roots : For
  inputs : Marks
  direct : Marks
  gates : Nat → Gate
  remainder : For

namespace GateFormula

/-- The constructor: nothing is marked and every gate is undefined. -/
def init : GateFormula where
  roots := []
  inputs := fun _ => false
  direct := fun _ => false
  gates := fun _ => {}
  remainder := []

/-- `gates.size()`. -/
def size (F : CNFFormula) : Nat :=
  2 + F.nVars

def addRoot (F : CNFFormula) (gf : GateFormula) (clause : Ptr) : GateFormula :=
  { gf with
    roots := gf.roots ++ [clause]
    inputs := gf.inputs.set (F.deref clause) }

def isNestedMonotonic (gf : GateFormula) (lit : Lit) : Bool :=
  !gf.inputs lit || !gf.inputs (~~~lit)

/-- The gate that `addGate` stores. -/
def newGate (gf : GateFormula) (type : GateType) (o : Lit) (fwd bwd : For) (inp : List Lit) :
    Gate where
  type
  out := o
  fwd
  bwd
  notMono := !gf.isNestedMonotonic o
  inp

def addGate (gf : GateFormula) (type : GateType) (o : Lit) (fwd bwd : For) (inp : List Lit) :
    GateFormula :=
  let gate := gf.newGate type o fwd bwd inp
  { gf with
    gates := Function.update gf.gates o.var gate
    inputs := gf.inputs.set (inp ++ if gate.notMono then inp.map (~~~ ·) else [])
    direct := gf.direct.set inp }

def getGate (gf : GateFormula) (output : Lit) : Gate :=
  gf.gates output.var

/-- The gates that have been added, in the order of their variables. -/
def recorded (F : CNFFormula) (gf : GateFormula) : List Gate :=
  ((List.range (size F)).map gf.gates).filter (fun g => g.type ≠ .NONE)

/-- The clauses of a list of gates. -/
def gateClauses (gs : List Gate) : For :=
  gs.flatMap (fun g => g.fwd ++ g.bwd)

/-- The disjoint union of roots, gates and remainder. -/
def distributed (F : CNFFormula) (gf : GateFormula) : For :=
  gf.roots ++ gateClauses (gf.recorded F) ++ gf.remainder

/-! ### Marks -/

theorem addRoot_inputs (F : CNFFormula) (gf : GateFormula) (clause : Ptr) (l : Lit) :
  (gf.addRoot F clause).inputs l = (gf.inputs l || decide (l ∈ F.deref clause))
  := Marks.set_apply _ _ _

/-- A gate marks its inputs, and their complements when it is nested non-monotonically. -/
theorem addGate_inputs (gf : GateFormula) (type : GateType) (o : Lit) (fwd bwd : For)
    (inp : List Lit) (l : Lit) :
  (gf.addGate type o fwd bwd inp).inputs l
    = (gf.inputs l || decide (l ∈ inp ∨ gf.isNestedMonotonic o = false ∧ ~~~l ∈ inp))
  := by
  apply (Marks.set_apply _ _ l).trans
  congr 1
  apply decide_eq_decide.mpr
  rw [List.mem_append]
  apply or_congr_right
  rw [newGate]
  cases gf.isNestedMonotonic o
  · simp only [Bool.not_false, if_true, true_and, List.mem_map]
    constructor
    · rintro ⟨k, hk, rfl⟩
      rw [Lit.compl_compl]
      exact hk
    · intro h
      exact ⟨~~~l, h, Lit.compl_compl l⟩
  · simp

@[simp]
theorem addRoot_gates (F : CNFFormula) (gf : GateFormula) (clause : Ptr) :
  (gf.addRoot F clause).gates = gf.gates
  := rfl

@[simp]
theorem addGate_roots (gf : GateFormula) (type : GateType) (o : Lit) (fwd bwd : For)
    (inp : List Lit) :
  (gf.addGate type o fwd bwd inp).roots = gf.roots
  := rfl

theorem addGate_gates (gf : GateFormula) (type : GateType) (o : Lit) (fwd bwd : For)
    (inp : List Lit) :
  (gf.addGate type o fwd bwd inp).gates
    = Function.update gf.gates o.var (gf.newGate type o fwd bwd inp)
  := rfl

@[simp]
theorem addGate_getGate (gf : GateFormula) (type : GateType) (o : Lit) (fwd bwd : For)
    (inp : List Lit) :
  (gf.addGate type o fwd bwd inp).getGate o = gf.newGate type o fwd bwd inp
  := Function.update_self _ _ _

end GateFormula

end CnfTools
