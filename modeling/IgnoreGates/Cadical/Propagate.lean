import IgnoreGates.Cadical.Watches

/-!
# Unit propagation

`propagate` visits the watches of the literals that became false, in the order of the trail.
The literal of a watch is replaced by another one that is not false; when there is none, the
other watched literal is assigned, or the clause is a conflict.
-/

namespace Cadical

open Logic

/-- What a visit of a watch leaves: the watch, unless it is dropped, whether the loop over the
watches is left, and the solver. -/
structure Visit where
  keep : Option Watch
  stop : Bool
  solver : Cdcl

namespace Cdcl

variable (s : Cdcl) (chrono : Nat)

/-- `lits[0] ^ lits[1] ^ lit`, where `lit` is one of the two. -/
def otherWatch (literals : List Lit) (lit : Lit) : Lit :=
  if literals.getD 0 lit = lit then literals.getD 1 lit else literals.getD 0 lit

/-- The position of a literal that is not false, searched from `pos` on and then from the third
literal up to `pos`. -/
def findReplacement (literals : List Lit) (pos : Nat) : Option Nat :=
  match (literals.drop pos).findIdx? (fun r => 0 ≤ s.val r) with
  | some k => some (pos + k)
  | none => (((literals.take pos).drop 2).findIdx? (fun r => 0 ≤ s.val r)).map (2 + ·)

/-- The position of a literal of the given level, from the third literal on. -/
def findLevel (literals : List Lit) (level : Nat) : Option Nat :=
  ((literals.drop 2).findIdx? (fun r => (s.var r).level = level)).map (2 + ·)

/-- The literals when the one at position `k` is watched instead of `lit`. -/
def replaceWatch (literals : List Lit) (lit other : Lit) (k : Nat) : List Lit :=
  ((literals.set 0 other).set 1 (literals.getD k lit)).set k lit

/-- The other literal `other` of the clause is forced.  With `opts.chrono > 1` a literal of its
level is watched instead of `lit`. -/
def propagateUnit (lit other : Lit) (w : Watch) : Visit :=
  let s := s.searchAssign chrono other (.clause w.clause)
  if chrono > 1 ∧ (s.var other).level > (s.var lit).level then
    match s.findLevel (s.lits w.clause) (s.var other).level with
    | none => ⟨some w, false, s⟩
    | some k =>
        ⟨none, false, (s.setLits w.clause (replaceWatch (s.lits w.clause) lit other k)).watchLiteral
          ((s.lits w.clause).getD k lit) other w.clause⟩
  else
    ⟨some w, false, s⟩

/-- The visit of a clause of more than two literals that is not garbage. -/
def visitLarge (lit : Lit) (w : Watch) : Visit :=
  let literals := s.lits w.clause
  let other := otherWatch literals lit
  if s.val other > 0 then
    ⟨some { w with blit := other }, false, s⟩
  else
    match s.findReplacement literals (s.clauses w.clause).pos with
    | some k =>
        let s := s.setPos w.clause k
        let r := literals.getD k lit
        if s.val r > 0 then
          ⟨some { w with blit := r }, false, s⟩
        else
          ⟨none, false,
            (s.setLits w.clause (replaceWatch literals lit other k)).watchLiteral r lit w.clause⟩
    | none =>
        if s.val other = 0 then s.propagateUnit chrono lit other w
        else ⟨some w, true, { s with conflict := some w.clause }⟩

/-- The visit of a watch of the false literal `lit`. -/
def visit (lit : Lit) (w : Watch) : Visit :=
  if s.val w.blit > 0 then
    ⟨some w, false, s⟩
  else if w.binary then
    if s.val w.blit < 0 then
      ⟨some w, false, { s with conflict := some w.clause }⟩
    else
      ⟨some w, false, s.searchAssign chrono w.blit (.clause w.clause)⟩
  else if s.conflict.isSome then
    ⟨some w, true, s⟩
  else if (s.clauses w.clause).garbage then
    ⟨none, false, s⟩
  else
    s.visitLarge chrono lit w

/-- The loop over the watches of `lit`: the watches that stay, and the solver. -/
def visits (lit : Lit) : List Watch → Cdcl → List Watch × Cdcl
  | [], s => ([], s)
  | w :: ws, s =>
      let v := s.visit chrono lit w
      if v.stop then
        (v.keep.toList ++ ws, v.solver)
      else
        let (kept, s) := visits lit ws v.solver
        (v.keep.toList ++ kept, s)

/-- The watches of the literal `lit`, which became false, are visited. -/
def propagateLiteral (lit : Lit) : Cdcl :=
  let (ws, s) := visits chrono lit (s.wtab lit) s
  s.setWatches lit ws

/-- The loop of `propagate`, for a bounded number of literals. -/
def propagateLoop : Nat → Cdcl → Option Cdcl
  | 0, s => if s.conflict.isSome ∨ s.propagated = s.trail.length then some s else none
  | n + 1, s =>
      if s.conflict.isSome ∨ s.propagated = s.trail.length then
        some s
      else
        match s.trail[s.propagated]? with
        | none => none
        | some x =>
            propagateLoop n
              ({ s with propagated := s.propagated + 1 }.propagateLiteral chrono (-x))

def propagate : Option Cdcl :=
  propagateLoop chrono s.maxVar s

end Cdcl

end Cadical
