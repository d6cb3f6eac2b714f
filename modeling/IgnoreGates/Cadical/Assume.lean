import IgnoreGates.Cadical.CdclRun

/-!
# Assumptions

A call of `solve` looks for a model in which some literals, the assumptions, are true, and one
literal of a clause, the constraint.  They are decided before the other variables.  When one of
them is false, `failing` traces it back to the assumptions that made it false.
-/

namespace Cadical

open Logic

/-- The assumptions and the constraint of a call. -/
structure Assuming where
  assumptions : List Lit
  constraint : List Lit

/-- `decide` goes on, or it returns 20; then the flag `unsat_constraint` says whether it is the
constraint that is falsified. -/
inductive Decided where
  | next (s : Cdcl)
  | failed (unsatConstraint : Bool)

/-- A falsified assumption: on root level, falsified by another assumption, or by a reason. -/
inductive Falsifying where
  | failedUnit (lit : Lit)
  | failedClashing (lit : Lit)
  | firstFailed (lit : Lit)

/-- The marked variables, what is left of the working stack, and the failed assumptions. -/
structure Failing where
  seen : Finset Nat
  analyzed : List Lit
  failed : List Lit

/-- A literal of a reason is pushed when its variable is not marked. -/
def Failing.analyzeLiteral (a : Failing) (other : Lit) : Failing :=
  if other.vidx ∈ a.seen then a
  else { a with seen := insert other.vidx a.seen, analyzed := a.analyzed ++ [-other] }

namespace Cdcl

variable (s : Cdcl)

/-! ### The constraint -/

/-- The literals that are kept; `none` when the constraint is satisfied. -/
def shrinkLoop (kept : List Lit) : List Lit → Option (List Lit)
  | [] => some kept
  | lit :: constraint =>
      if lit ∈ kept then shrinkLoop kept constraint
      else if -lit ∈ kept then none
      else if s.val lit < 0 then shrinkLoop kept constraint
      else if 0 < s.val lit then none
      else shrinkLoop (kept ++ [lit]) constraint

/-- `constrain (0)`: the shrunken constraint, and the flag `unsat_constraint`. -/
def constrain (constraint : List Lit) : List Lit × Bool :=
  match (s.backtrack 0).shrinkLoop [] constraint with
  | none => ([], false)
  | some kept => (kept, kept = [])

/-! ### Decisions -/

/-- A literal of the constraint is true, or the first one that is not false is decided. -/
def decideConstraint (chrono : Nat) : List Lit → Option Lit → Decided
  | [], none => .failed true
  | [], some lit => .next (s.searchAssumeDecision chrono lit)
  | lit :: constraint, unassignedLit =>
      if s.val lit < 0 then decideConstraint chrono constraint unassignedLit
      else if 0 < s.val lit then .next s.newLevel
      else decideConstraint chrono constraint (unassignedLit <|> some lit)

/-- `decide`, where `decision` is the literal that the decision heuristics choose. -/
def decide (chrono : Nat) (a : Assuming) (decision : Lit) : Decided :=
  match a.assumptions[s.level]? with
  | some lit =>
      if s.val lit < 0 then .failed false
      else if 0 < s.val lit then .next s.newLevel
      else .next (s.searchAssumeDecision chrono lit)
  | none =>
      if s.level = a.assumptions.length ∧ a.constraint ≠ [] then
        s.decideConstraint chrono a.constraint none
      else
        .next (s.searchAssumeDecision chrono decision)

/-! ### Failing assumptions -/

/-- The falsified assumption with which the analysis starts; the last argument is that on the
lowest level so far. -/
def falsifying : List Lit → Option Lit → Option Lit → Option Falsifying
  | [], some lit, _ => some (.failedClashing lit)
  | [], none, firstFailed => firstFailed.map .firstFailed
  | lit :: assumptions, failedClashing, firstFailed =>
      if 0 ≤ s.val lit then falsifying assumptions failedClashing firstFailed
      else if (s.var lit).level = 0 then some (.failedUnit lit)
      else if failedClashing.isSome then falsifying assumptions failedClashing firstFailed
      else if (s.var lit).reason = none then falsifying assumptions (some lit) firstFailed
      else if firstFailed.all (fun first => (s.var lit).level < (s.var first).level) then
        falsifying assumptions none (some lit)
      else falsifying assumptions none firstFailed

/-- The working stack is gone through, for a bounded number of literals. -/
def failingLoop : Nat → Failing → Option (List Lit)
  | 0, _ => none
  | n + 1, a =>
      match a.analyzed with
      | [] => some a.failed
      | lit :: analyzed =>
          let a := { a with analyzed := analyzed }
          if (s.var lit).level = 0 then failingLoop n a
          else
            match (s.var lit).reason with
            | some c => failingLoop n ((s.lits c).foldl Failing.analyzeLiteral a)
            | none => failingLoop n { a with failed := a.failed ++ [lit] }

/-- The assumptions that `failing` marks as failed. -/
def failing (a : Assuming) (unsatConstraint : Bool) : Option (List Lit) :=
  if unsatConstraint then
    s.failingLoop (a.constraint.length + s.trail.length + 1)
      ⟨(a.constraint.map Lit.vidx).toFinset, a.constraint.map (fun lit => -lit), []⟩
  else
    match s.falsifying a.assumptions none none with
    | none => none
    | some (.failedUnit lit) => some [lit]
    | some (.failedClashing lit) => some [lit, -lit]
    | some (.firstFailed lit) => s.failingLoop (s.trail.length + 2) ⟨{lit.vidx}, [-lit], [lit]⟩

end Cdcl

end Cadical
