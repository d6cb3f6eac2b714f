import IgnoreGates.Cadical.ClauseShape

/-!
# Clauses and watches of the search

The solver of the search has the clauses in memory, for each literal the list of its watches,
the trail with the level and the reason of each variable, and the position up to which the
trail has been propagated.  The first two literals of a clause are watched.

`toSearch` forgets clauses and watches: what is left is the trail, where a reason is the list
of the literals of the clause.
-/

namespace Cadical

open Logic

/-- `struct Clause`, as far as the search reads it. -/
structure ClauseData where
  literals : List Lit
  pos : Nat
  redundant : Bool
  garbage : Bool

/-- `struct Watch`; the clause is its index in `clauses`. -/
structure Watch where
  clause : Nat
  blit : Lit
  size : Nat
  deriving DecidableEq

/-- `Watch::binary` -/
def Watch.binary (w : Watch) : Bool :=
  w.size = 2

/-- `struct Var`; the reason is the index of the clause. -/
structure VarData where
  level : Nat
  reason : Option Nat

/-- The argument `reason` of `search_assign`: zero, `decision_reason` or a clause. -/
inductive Edge where
  | unit
  | decision
  | clause (c : Nat)

/-- `vals`: the literals on the trail are true, and their complements are false. -/
def vals (trail : List Lit) (lit : Lit) : Int :=
  if lit ∈ trail then 1 else if -lit ∈ trail then -1 else 0

/-- `Internal`, as far as the search uses it: the clauses, of which the first `num_clauses`
have been allocated, the watches, the trail, the start of each level on it (`control`), and how
much of it has been propagated. -/
structure Cdcl where
  maxVar : Nat
  numClauses : Nat
  clauses : Nat → ClauseData
  wtab : Lit → List Watch
  trail : List Lit
  vtab : Nat → VarData
  level : Nat
  control : List Nat
  propagated : Nat
  conflict : Option Nat
  unsat : Bool

namespace Cdcl

/-- The solver without clauses. -/
def init (maxVar : Nat) : Cdcl where
  maxVar := maxVar
  numClauses := 0
  clauses := fun _ => ⟨[], 2, false, false⟩
  wtab := fun _ => []
  trail := []
  vtab := fun _ => ⟨0, none⟩
  level := 0
  control := [0]
  propagated := 0
  conflict := none
  unsat := false

variable (s : Cdcl)

def var (lit : Lit) : VarData :=
  s.vtab lit.vidx

@[simp]
theorem var_neg (lit : Lit) :
  s.var (-lit) = s.var lit
  := by
  rw [var, var, Lit.vidx_neg]

/-- The literals of a clause. -/
def lits (c : Nat) : List Lit :=
  (s.clauses c).literals

def val (lit : Lit) : Int :=
  vals s.trail lit

/-- `control[l].trail` -/
def start (l : Nat) : Nat :=
  s.control.getD l 0

/-- The trail, the levels, and the literals of the reasons. -/
def toSearch : Search where
  trail := s.trail
  vtab := fun idx => ⟨(s.vtab idx).level, (s.vtab idx).reason.map s.lits⟩
  level := s.level

/-! ### Assigning and backtracking -/

/-- The level that is stored for the literal. -/
def litLevel (chrono : Nat) (lit : Lit) : Edge → Nat
  | .unit => 0
  | .decision => s.level
  | .clause c => if chrono ≠ 0 then s.toSearch.assignmentLevel lit (s.lits c) else s.level

/-- The reason that is stored for the literal. -/
def litReason (chrono : Nat) (lit : Lit) : Edge → Option Nat
  | .unit => none
  | .decision => none
  | .clause c => if s.litLevel chrono lit (.clause c) = 0 then none else some c

def searchAssign (chrono : Nat) (lit : Lit) (reason : Edge) : Cdcl :=
  { s with
    trail := s.trail ++ [lit]
    vtab := Function.update s.vtab lit.vidx
      ⟨s.litLevel chrono lit reason, s.litReason chrono lit reason⟩ }

/-- `level++`, and the new level is pushed on `control`. -/
def newLevel : Cdcl :=
  { s with
    level := s.level + 1
    control := s.control ++ [s.trail.length] }

def searchAssumeDecision (chrono : Nat) (lit : Lit) : Cdcl :=
  s.newLevel.searchAssign chrono lit .decision

def backtrack (newLevel : Nat) : Cdcl :=
  if newLevel = s.level then s
  else
    { s with
      trail := s.trail.take (s.start (newLevel + 1))
        ++ (s.trail.drop (s.start (newLevel + 1))).filter
          (fun lit => (s.var lit).level ≤ newLevel)
      level := newLevel
      control := s.control.take (newLevel + 1)
      propagated := min s.propagated (s.start (newLevel + 1)) }

/-! ### Clauses and watches -/

def setClause (c : Nat) (d : ClauseData) : Cdcl :=
  { s with clauses := Function.update s.clauses c d }

/-- The literals of a clause in another order. -/
def setLits (c : Nat) (literals : List Lit) : Cdcl :=
  s.setClause c { s.clauses c with literals := literals }

/-- `c->pos = pos` -/
def setPos (c : Nat) (pos : Nat) : Cdcl :=
  s.setClause c { s.clauses c with pos := pos }

def markGarbage (c : Nat) : Cdcl :=
  s.setClause c { s.clauses c with garbage := true }

def setWatches (lit : Lit) (ws : List Watch) : Cdcl :=
  { s with wtab := Function.update s.wtab lit ws }

def watchLiteral (lit blit : Lit) (c : Nat) : Cdcl :=
  s.setWatches lit (s.wtab lit ++ [⟨c, blit, (s.lits c).length⟩])

def removeWatch (lit : Lit) (c : Nat) : Cdcl :=
  s.setWatches lit ((s.wtab lit).filter (fun w => w.clause ≠ c))

/-- `watch_clause` -/
def watchClause (c : Nat) : Cdcl :=
  match s.lits c with
  | l₀ :: l₁ :: _ => (s.watchLiteral l₀ l₁ c).watchLiteral l₁ l₀ c
  | _ => s

/-- `new_clause` -/
def newClause (red : Bool) (clause : List Lit) : Cdcl :=
  { s with
    numClauses := s.numClauses + 1
    clauses := Function.update s.clauses s.numClauses ⟨clause, 2, red, false⟩ }

end Cdcl

end Cadical
