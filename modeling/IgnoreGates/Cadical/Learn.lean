import IgnoreGates.Cadical.PropagateInvariant

/-!
# Learning and the search loop

`analyze` flips the only literal of the conflict on its level, or learns the clause that the
loops of the analysis leave, goes back and assigns the literal that the clause forces.  The
search loop propagates and analyzes, decides and restarts; original clauses are added between
two runs of the loop.
-/

namespace Cadical

open Logic

/-- The options that the analysis reads. -/
structure Options where
  chrono : Nat
  chronoalways : Bool
  chronolevelim : Nat
  chronoreusetrail : Bool
  eagersubsume : Bool
  eagersubsumelim : Nat

/-- What the analysis takes from other parts of the solver: the number of assumptions, and
whether the second of two variables is a better decision than the first. -/
structure Heuristics where
  assumptions : Nat
  better : Nat → Nat → Bool

namespace Cdcl

variable (s : Cdcl)

/-! ### The conflict level -/

/-- The position of the first literal on the highest level, when `position` is that of the
highest one so far; the search ends at a literal of the level `res`. -/
def highestLoop (res : Nat) : List Lit → Nat → Nat → Nat → Nat
  | [], _, position, _ => position
  | other :: rest, j, position, level =>
      if (s.var other).level ≤ level then highestLoop res rest (j + 1) position level
      else if (s.var other).level = res then j
      else highestLoop res rest (j + 1) j (s.var other).level

/-- The literal on the highest level is moved to the position `i`, which is 0 or 1. -/
def moveHighest (c res i : Nat) : Cdcl :=
  match (s.lits c)[i]? with
  | none => s
  | some lit =>
      let p := s.highestLoop res ((s.lits c).drop (i + 1)) (i + 1) i (s.var lit).level
      let highest := (s.lits c).getD p lit
      let new := ((s.lits c).set p lit).set i highest
      if p = i then s
      else if p > 1 then
        ((s.removeWatch lit c).setLits c new).watchLiteral highest (new.getD (1 - i) lit) c
      else
        s.setLits c new

/-- `find_conflict_level`: the two literals on the highest levels are moved to the front of the
conflict. -/
def findConflictLevel (c : Nat) : Cdcl × Nat × Option Lit :=
  let (res, forced) := s.toSearch.findConflictLevel (s.lits c)
  ((s.moveHighest c res 0).moveHighest c res 1, res, forced)

/-! ### The driving clause -/

/-- `new_driving_clause`: a clause of two literals at least is added and watched. -/
def newDrivingClause (clause : List Lit) : Cdcl × Option Nat × Nat :=
  match s.toSearch.newDrivingClause clause with
  | (none, jump) => (s, none, jump)
  | (some clause, jump) =>
      ((s.newClause true clause).watchClause s.numClauses, some s.numClauses, jump)

/-- The position of the best variable on the trail. -/
def bestLoop (better : Nat → Nat → Bool) : List Lit → Nat → Option Nat → Nat → Nat
  | [], _, _, bestPos => bestPos
  | lit :: rest, i, bestIdx, bestPos =>
      if bestIdx.all (fun best => better best lit.vidx) then
        bestLoop better rest (i + 1) (some lit.vidx) i
      else
        bestLoop better rest (i + 1) bestIdx bestPos

/-- `while (res < level - 1 && control[res + 1].trail <= best_pos) res++`, for a bounded number
of levels. -/
def reuseLoop (bestPos : Nat) : Nat → Nat → Nat
  | 0, res => res
  | n + 1, res => if s.start (res + 1) ≤ bestPos then reuseLoop bestPos n (res + 1) else res

def determineActualBacktrackLevel (o : Options) (heuristics : Heuristics) (jump : Nat) : Nat :=
  if o.chrono = 0 then jump
  else if o.chronoalways then s.level - 1
  else if jump ≥ s.level - 1 then jump
  else if jump < heuristics.assumptions then jump
  else if s.level - jump > o.chronolevelim then s.level - 1
  else if o.chronoreusetrail then
    s.reuseLoop (bestLoop heuristics.better (s.trail.drop (s.start (jump + 1)))
      (s.start (jump + 1)) none 0) (s.level - 1 - jump) jump
  else jump

/-- The redundant clauses among the last ones that contain all literals of `c` become garbage. -/
def eagerlySubsumeRecentlyLearnedClauses (c : Nat) (lim : Nat) : Cdcl :=
  ((List.range s.numClauses).reverse.take (lim + 1)).foldl
    (fun s d =>
      if d ≠ c ∧ (s.clauses d).garbage = false ∧ (s.clauses d).redundant = true
          ∧ (s.lits c).length ≤ (s.lits d).countP (· ∈ s.lits c) then
        s.markGarbage d
      else s)
    s

/-! ### The analysis -/

def learnEmptyClause : Cdcl :=
  { s with unsat := true }

/-- `search_assign_driving`, and there is no conflict any more. -/
def searchAssignDriving (chrono : Nat) (lit : Lit) (reason : Edge) : Cdcl :=
  { s.searchAssign chrono lit reason with conflict := none }

/-- The part of `analyze` behind the conflict level. -/
def learn (e : External) (o : Options) (heuristics : Heuristics) (conflict : Nat) : Option Cdcl :=
  if s.level = 0 then
    some s.learnEmptyClause
  else
    match s.toSearch.analyzeLoops e (s.lits conflict) with
    | none => none
    | some (uip, a) =>
        let (s', drivingClause, jump) := s.newDrivingClause a.clause
        let s' := s'.backtrack (s'.determineActualBacktrackLevel o heuristics jump)
        match drivingClause with
        | none => some (s'.searchAssignDriving o.chrono (-uip) .unit)
        | some c =>
            let s' := s'.searchAssignDriving o.chrono (-uip) (.clause c)
            some (if o.eagersubsume then
              s'.eagerlySubsumeRecentlyLearnedClauses c o.eagersubsumelim else s')

def analyze (e : External) (o : Options) (heuristics : Heuristics) : Option Cdcl :=
  match s.conflict with
  | none => none
  | some conflict =>
      if o.chrono ≠ 0 then
        match s.findConflictLevel conflict with
        | (s', conflictLevel, some forced) =>
            some ((s'.backtrack (conflictLevel - 1)).searchAssignDriving o.chrono forced
              (.clause conflict))
        | (s', conflictLevel, none) => (s'.backtrack conflictLevel).learn e o heuristics conflict
      else
        s.learn e o heuristics conflict

/-! ### The search loop -/

/-- `if (!propagate ()) analyze ()` -/
def propagateAndAnalyze (e : External) (o : Options) (heuristics : Heuristics) : Option Cdcl :=
  match s.propagate o.chrono with
  | none => none
  | some s => if s.conflict.isSome then s.analyze e o heuristics else some s

/-- All variables are assigned and propagated, and the assumptions and the constraint have been
decided. -/
def satisfied (assumptions constraint : List Lit) : Bool :=
  s.propagated = s.trail.length ∧ assumptions.length + (if constraint = [] then 0 else 1) ≤ s.level
    ∧ s.trail.length = s.maxVar

/-- `init_vars`, as far as the search is concerned. -/
def initVars (newMaxVar : Nat) : Cdcl :=
  if newMaxVar ≤ s.maxVar then s else { s.backtrack 0 with maxVar := newMaxVar }

/-- The literals of an original clause that stay, the first literals first; `none` when the
clause is tautological or has a true literal. -/
def originalLiterals : List Lit → List Lit → Option (List Lit)
  | _, [] => some []
  | marked, lit :: original =>
      if lit ∈ marked then originalLiterals marked original
      else if -lit ∈ marked then none
      else if s.val lit < 0 then originalLiterals (lit :: marked) original
      else if s.val lit > 0 then none
      else (originalLiterals (lit :: marked) original).map (lit :: ·)

/-- `assign_original_unit` -/
def assignOriginalUnit (chrono : Nat) (lit : Lit) : Option Cdcl :=
  match (s.searchAssign chrono lit .unit).propagate chrono with
  | none => none
  | some s => some (if s.conflict.isSome then s.learnEmptyClause else s)

def addNewOriginalClause (chrono : Nat) (original : List Lit) : Option Cdcl :=
  let s := s.backtrack 0
  if s.unsat then some s
  else
    match s.originalLiterals [] original with
    | none => some s
    | some [] => some s.learnEmptyClause
    | some [lit] => s.assignOriginalUnit chrono lit
    | some clause => some ((s.newClause false clause).watchClause s.numClauses)

end Cdcl

end Cadical
