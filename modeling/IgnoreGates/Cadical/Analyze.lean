import Mathlib.Data.List.Sort
import IgnoreGates.Cadical.Search

/-!
# Conflict analysis

`analyze` with `UIPAUX`: the first loop resolves the conflict until one literal of the
conflict level is left that is not auxiliary or has no reason, and a second loop replaces the
auxiliary literals of the clause by the literals of their reasons.  Auxiliary literals
without a reason are erased.
-/

namespace Cadical

open Logic

/-- The data of the analysis. -/
structure Analysis where
  clause : List Lit
  levels : List Nat
  analyzed : List Lit
  seen : Nat → Bool
  open_ : Int

namespace Analysis

/-- The state before the analysis. -/
def init : Analysis where
  clause := []
  levels := []
  analyzed := []
  seen := fun _ => false
  open_ := 0

end Analysis

/-- How the analysis ends: by flipping the only literal of the conflict on its level, by the
empty clause, or with a clause for the search to go on with. -/
inductive Outcome where
  | forced (lit : Lit)
  | empty
  | driving (clause : List Lit) (uip : Lit) (drivingClause : Option (List Lit)) (jump : Nat)
  deriving DecidableEq

namespace Search

variable (s : Search)

def analyzeLiteral (a : Analysis) (lit : Lit) : Analysis :=
  if a.seen lit.vidx then a
  else if (s.var lit).level = 0 then a
  else
    { clause := if (s.var lit).level < s.level then a.clause ++ [lit] else a.clause
      levels := if (s.var lit).level ∈ a.levels then a.levels else a.levels ++ [(s.var lit).level]
      analyzed := a.analyzed ++ [lit]
      seen := Function.update a.seen lit.vidx true
      open_ := if (s.var lit).level = s.level then a.open_ + 1 else a.open_ }

/-- `analyze_reason`, where `none` stands for the argument zero. -/
def analyzeReason (a : Analysis) (lit : Option Lit) (reason : List Lit) : Analysis :=
  reason.foldl (fun a other => if some other ≠ lit then s.analyzeLiteral a other else a) a

/-- The first loop of `analyze`, over the part of the trail that has not been visited, the
last literal first. -/
def uipLoop (e : External) (a : Analysis) : List Lit → Option (Lit × Analysis)
  | [] => none
  | uip :: rest =>
      if a.seen uip.vidx ∧ (s.var uip).level = s.level then
        let a := { a with open_ := a.open_ - 1 }
        if a.open_ = 0 ∧ (e.isAux uip = false ∨ (s.var uip).reason = none) then
          some (uip, a)
        else
          match (s.var uip).reason with
          | none => none
          | some reason => uipLoop e (s.analyzeReason a (some uip) reason) rest
      else
        uipLoop e a rest

/-- The second loop of `analyze`, from the index `i` on and for a bounded number of
iterations. -/
def auxLoop (e : External) : Nat → Nat → Analysis → Option Analysis
  | 0, _, _ => none
  | n + 1, i, a =>
      match a.clause[i]? with
      | none => some a
      | some lit =>
          if e.isAux lit then
            let a := match (s.var lit).reason with
              | none => a
              | some reason => s.analyzeReason a (some lit) reason
            auxLoop e n i { a with clause := a.clause.eraseIdx i }
          else
            auxLoop e n (i + 1) a

/-- Both loops: the literal `uip` and the state behind them. -/
def analyzeLoops (e : External) (conflict : List Lit) : Option (Lit × Analysis) :=
  match s.uipLoop e (s.analyzeReason .init none conflict) s.trail.reverse with
  | none => none
  | some (uip, a) =>
      let a := { a with clause := a.clause ++ [-uip] }
      match s.auxLoop e (a.clause.length + s.trail.length + 1) 0 a with
      | none => none
      | some a => some (uip, a)

/-- The loop of `find_conflict_level`. -/
def findConflictLoop : List Lit → Nat → Option Lit → Nat → Nat × Option Lit × Nat
  | [], res, forced, count => (res, forced, count)
  | lit :: lits, res, forced, count =>
      if res < (s.var lit).level then
        findConflictLoop lits (s.var lit).level (some lit) 1
      else if (s.var lit).level = res then
        if res = s.level ∧ 1 < count + 1 then (res, forced, count + 1)
        else findConflictLoop lits res forced (count + 1)
      else
        findConflictLoop lits res forced count

/-- The conflict level, and the only literal of the conflict on it. -/
def findConflictLevel (conflict : List Lit) : Nat × Option Lit :=
  let (res, forced, count) := s.findConflictLoop conflict 0 none 0
  (res, if count = 1 then forced else none)

/-- The position `var (lit).trail` of a literal or its complement. -/
def position (lit : Lit) : Nat :=
  s.trail.findIdx (fun x => x.vidx = lit.vidx)

/-- `analyze_trail_larger`: a higher level, or a later position on the same level. -/
def analyzeTrailLarger (a b : Lit) : Prop :=
  (s.var b).level < (s.var a).level
    ∨ (s.var b).level = (s.var a).level ∧ s.position b < s.position a

instance : DecidableRel s.analyzeTrailLarger :=
  fun _ _ => inferInstanceAs (Decidable (_ ∨ _))

/-- The learned clause, the last assigned literals of the highest levels first. -/
def sortClause (clause : List Lit) : List Lit :=
  clause.insertionSort (fun a b => ¬ s.analyzeTrailLarger b a)

/-- The clause that is learned, and the jump level. -/
def newDrivingClause (clause : List Lit) : Option (List Lit) × Nat :=
  if clause.length ≤ 1 then (none, 0)
  else
    let clause := s.sortClause clause
    (some clause, (clause[1]?.map (fun lit => (s.var lit).level)).getD 0)

/-- The state in which the loops run. -/
def conflictState (chrono : Bool) (conflict : List Lit) : Search :=
  if chrono then s.backtrack (s.findConflictLevel conflict).1 else s

def analyze (e : External) (chrono : Bool) (conflict : List Lit) : Option Outcome :=
  match if chrono then (s.findConflictLevel conflict).2 else none with
  | some forced => some (.forced forced)
  | none =>
      let s := s.conflictState chrono conflict
      if s.level = 0 then some .empty
      else
        match s.analyzeLoops e conflict with
        | none => none
        | some (uip, a) =>
            let (drivingClause, jump) := s.newDrivingClause a.clause
            some (.driving a.clause uip drivingClause jump)

/-! ### The implication graph of a conflict -/

/-- The reasons of the literals on the trail, the literals of root level and the conflict. -/
def graph (conflict : List Lit) : ImplicationGraph Lit where
  reason := fun x => if x ∈ s.trail then (s.var x).reason else none
  fixed := fun x => x ∈ s.trail ∧ (s.var x).level = 0
  conflict := conflict

/-- Every way from the decision of the conflict level to the conflict passes `u`: the
decision, unless it is `u`, is not traced when `u` is not expanded. -/
def UniqueImplicationPoint (conflict : List Lit) (u : Lit) : Prop :=
  ∀ x, (s.graph conflict).Traced (fun y => (s.var y).level = s.level ∧ y ≠ u) x →
    (s.var x).level = s.level → (s.var x).reason = none → x = u

/-- The literals that are replaced by their reasons: auxiliary ones, and those of the conflict
level that are no unique implication points. -/
def Expanded (e : External) (conflict : List Lit) (y : Lit) : Prop :=
  e.isAux y = true ∨ (s.var y).level = s.level ∧ ¬ s.UniqueImplicationPoint conflict y

/-- No auxiliary literal without a reason is traced. -/
def NoneErased (e : External) (conflict : List Lit) : Prop :=
  ∀ x, (s.graph conflict).Traced (s.Expanded e conflict) x → e.isAux x = true →
    (s.var x).reason ≠ none

/-- The clause follows from the conflict, the reasons and the root-level literals, and so does
the assignment of `-uip`; the driving clause is the clause in another order. -/
structure Sound (conflict clause : List Lit) (uip : Lit) (drivingClause : Option (List Lit)) :
    Prop where
  entails : Entails (s.graph conflict).clauses clause
  driving : ∀ d, drivingClause = some d → d.Perm clause ∧ -uip ∈ d
  unit : drivingClause = none → Entails (s.graph conflict).clauses [-uip]

/-- `lit` is the only literal of the conflict on the highest level, which is not the root
level. -/
def Forces (conflict : List Lit) (lit : Lit) : Prop :=
  0 < (s.var lit).level
    ∧ conflict.filter (fun k => (s.var lit).level ≤ (s.var k).level) = [lit]

instance (conflict : List Lit) (lit : Lit) : Decidable (s.Forces conflict lit) :=
  inferInstanceAs (Decidable (_ ∧ _))

/-- The conflict forces `lit` in the state in which it is assigned: its other literals are
false. -/
structure Forced (conflict : List Lit) (lit : Lit) : Prop where
  mem : lit ∈ conflict
  unassigned : s.Unassigned lit
  false_ : ∀ k ∈ conflict, k ≠ lit → -k ∈ s.trail

/-- Nothing that the analysis learns or assigns is unsound. -/
def SoundOutcome (chrono : Bool) (conflict : List Lit) : Outcome → Prop
  | .forced lit => (s.backtrack ((s.findConflictLevel conflict).1 - 1)).Forced conflict lit
  | .empty => Entails (s.graph conflict).clauses []
  | .driving clause uip drivingClause _ =>
      (s.conflictState chrono conflict).Sound conflict clause uip drivingClause

/-- A conflict: all literals are false, and without `opts.chrono` one of them is on the
current level, on which the clause has been visited. -/
structure IsConflict (chrono : Bool) (conflict : List Lit) : Prop where
  false_ : ∀ k ∈ conflict, -k ∈ s.trail
  level : chrono = false → s.level ≠ 0 → ∃ k ∈ conflict, (s.var k).level = s.level

end Search

end Cadical
