import Mathlib.Algebra.Group.Int.Defs
import Mathlib.Algebra.Group.Nat.Defs
import Mathlib.Data.List.Sort
import IgnoreGates.Cadical.WatchTable

/-!
# The online proof checker

`Checker` observes the clauses that are added, derived and deleted.  It keeps them in a hash
table of its own, watches two literals of each, and accepts a derived clause when the
propagation of its complement runs into a conflict.  The state is explicit: the clauses in
memory, the collision chains of the hash table, the watches, and the trail, which holds the
literals of root level between two calls.
-/

namespace Cadical

open Logic

/-- `struct CheckerClause`, without the link of the collision chain; `size` is zero for a
garbage clause. -/
structure CheckerClause where
  hash : Nat
  size : Nat
  literals : List Lit

/-- `struct CheckerWatch` has the fields of `struct Watch`. -/
abbrev CheckerWatch := Watch

/-- How the checker stops: with one of its two messages, at the assertion of `reduce_hash`, or
with propagation that does not come to an end. -/
inductive Fatal where
  | failedToCheck (clause : List Lit)
  | notInProof (clause : List Lit)
  | sizeIsZero
  | diverges
  deriving DecidableEq

/-- `Checker`: the clauses of which the first `numAllocated` have been allocated, the collision
chains `clauses` of the hash table, and the list `garbage`.  The statistics are left out, and the
simplified clause and its hash are arguments. -/
structure Checker where
  sizeVars : Nat
  memory : Nat → CheckerClause
  numAllocated : Nat
  watchers : Lit → List CheckerWatch
  inconsistent : Bool
  numClauses : Nat
  numGarbage : Nat
  clauses : List (List Nat)
  garbage : List Nat
  trail : List Lit
  nextToPropagate : Nat

namespace Checker

def init : Checker where
  sizeVars := 0
  memory := fun _ => ⟨0, 0, []⟩
  numAllocated := 0
  watchers := fun _ => []
  inconsistent := false
  numClauses := 0
  numGarbage := 0
  clauses := []
  garbage := []
  trail := []
  nextToPropagate := 0

variable (s : Checker)

def val (lit : Lit) : Int :=
  vals s.trail lit

/-- The literals of a clause in memory. -/
def lits (c : Nat) : List Lit :=
  (s.memory c).literals

/-! ### Hashing -/

/-- `Random::next` -/
def randomNext (state : Nat) : Nat :=
  (state * 6364136223846793005 + 1442695040888963407) % 2 ^ 64

/-- The random numbers for hashing are made odd. -/
def noncesLoop : Nat → Nat → List Nat
  | 0, _ => []
  | n + 1, state =>
      let state := randomNext state
      (if state % 2 = 0 then state + 1 else state) :: noncesLoop n state

def numNonces : Nat := 4

def nonces : List Nat :=
  noncesLoop numNonces 42

/-- The loop of `compute_hash`, where a literal is cast to 64 bits. -/
def hashLoop (tmp j : Nat) : List Lit → Nat
  | [] => tmp
  | lit :: rest =>
      hashLoop ((tmp + nonces.getD j 0 * (lit.int % 2 ^ 64).toNat) % 2 ^ 64)
        (if j + 1 = numNonces then 0 else j + 1) rest

def computeHash (simplified : List Lit) : Nat :=
  hashLoop 0 0 simplified

/-- The loop of `reduce_hash`: `shift` takes these values, and then remains zero. -/
def reduceLoop (size : Nat) : List Nat → Nat → Option Nat
  | [], _ => none
  | shift :: shifts, res =>
      if 2 ^ shift > size then reduceLoop size shifts (res ^^^ (res >>> shift))
      else some (res &&& (size - 1))

def reduceHash (hash size : Nat) : Option Nat :=
  reduceLoop size [32, 16, 8, 4, 2, 1, 0] hash

/-- The clause is put in front of its collision chain. -/
def link (memory : Nat → CheckerClause) (table : List (List Nat)) (c : Nat) : List (List Nat) :=
  match reduceHash (memory c).hash table.length with
  | none => table
  | some h => table.modify h (fun chain => c :: chain)

def enlargeClauses : Checker :=
  let newSizeClauses := if s.clauses.length ≠ 0 then 2 * s.clauses.length else 1
  { s with
    clauses := s.clauses.flatten.foldl (link s.memory) (List.replicate newSizeClauses []) }

/-! ### Importing a clause -/

/-- The loop of `enlarge_vars`, for a bounded number of iterations. -/
def enlargeLoop (idx : Nat) : Nat → Nat → Nat
  | 0, newSizeVars => newSizeVars
  | n + 1, newSizeVars =>
      if idx ≥ newSizeVars then enlargeLoop idx n (2 * newSizeVars) else newSizeVars

def enlargeVars (idx : Nat) : Checker :=
  { s with
    sizeVars := enlargeLoop idx idx (if s.sizeVars ≠ 0 then 2 * s.sizeVars else 2) }

def importLiteral (lit : Lit) : Checker :=
  if lit.vidx ≥ s.sizeVars then s.enlargeVars lit.vidx else s

def importClause (c : List Lit) : Checker :=
  c.foldl importLiteral s

def litSmaller (a b : Lit) : Bool :=
  if a.vidx < b.vidx then true else if a.vidx > b.vidx then false else a.int < b.int

/-- `sort` with `lit_smaller`. -/
def sort (simplified : List Lit) : List Lit :=
  simplified.insertionSort (fun a b => ¬ litSmaller b a)

/-- The loop of `tautological`; there is no previous literal at first.  The result is `none` for
a clause that is tautological or satisfied. -/
def tautologicalLoop (prev : Option Lit) : List Lit → Option (List Lit)
  | [] => some []
  | lit :: rest =>
      if prev = some lit then tautologicalLoop prev rest
      else if prev = some (-lit) then none
      else if s.val lit > 0 then none
      else (tautologicalLoop (some lit) rest).map (lit :: ·)

def tautological (simplified : List Lit) : Option (List Lit) :=
  s.tautologicalLoop none (sort simplified)

/-! ### Inserting and finding clauses -/

/-- The literal at position `i` is swapped with a later one that is unassigned, unless it is
unassigned itself. -/
def watchUnassigned (literals : List Lit) (i : Nat) : List Lit :=
  match literals[i]? with
  | none => literals
  | some lit =>
      if s.val lit = 0 then literals
      else
        match (literals.drop (i + 1)).findIdx? (fun other => s.val other = 0) with
        | none => literals
        | some j => literals.swap i (i + 1 + j)

def watch (lit blit : Lit) (c size : Nat) : Checker :=
  { s with watchers := Function.update s.watchers lit (s.watchers lit ++ [⟨c, blit, size⟩]) }

/-- `new_clause` -/
def newClause (simplified : List Lit) (lastHash : Nat) : Checker :=
  let literals := s.watchUnassigned (s.watchUnassigned simplified 0) 1
  let c := s.numAllocated
  let s := { s with
    memory := Function.update s.memory c ⟨lastHash, literals.length, literals⟩
    numAllocated := c + 1
    numClauses := s.numClauses + 1 }
  match literals with
  | l₀ :: l₁ :: _ =>
      (s.watch l₀ l₁ c literals.length).watch l₁ l₀ c literals.length
  | _ => s

def insert (simplified : List Lit) : Checker :=
  let s := if s.numClauses = s.clauses.length then s.enlargeClauses else s
  let c := s.numAllocated
  let s := s.newClause simplified (computeHash simplified)
  { s with clauses := link s.memory s.clauses c }

/-- The loop of `find` over a collision chain. -/
def find (simplified : List Lit) (hash : Nat) (chain : List Nat) : Option Nat :=
  chain.find? (fun c => (s.memory c).hash = hash ∧ (s.memory c).size = simplified.length
    ∧ ∀ lit ∈ (s.memory c).literals, lit ∈ simplified)

/-! ### Propagation -/

def assign (lit : Lit) : Checker :=
  { s with trail := s.trail ++ [lit] }

def assume (lit : Lit) : Checker :=
  if s.val lit > 0 then s else s.assign lit

def backtrack (previouslyPropagated : Nat) : Checker :=
  { s with
    trail := s.trail.take previouslyPropagated
    nextToPropagate := previouslyPropagated }

/-- `c->literals = literals` -/
def setLits (c : Nat) (literals : List Lit) : Checker :=
  { s with memory := Function.update s.memory c { s.memory c with literals := literals } }

/-- What a visit of a watch leaves: the watch, unless it is dropped, whether there is no
conflict, and the checker. -/
structure Visit where
  keep : Option CheckerWatch
  res : Bool
  checker : Checker

/-- The visit of a clause of more than two literals that is not garbage. -/
def visitLarge (lit : Lit) (w : CheckerWatch) : Visit :=
  let literals := s.lits w.clause
  let other := Cdcl.otherWatch literals lit
  if s.val other > 0 then
    ⟨some { w with blit := other }, true, s⟩
  else
    let swapped := (literals.set 0 other).set 1 lit
    match (swapped.drop 2).findIdx? (fun r => s.val r ≥ 0) with
    | some k =>
        let replacement := literals.getD (2 + k) lit
        ⟨none, true,
          (s.setLits w.clause (swapped.swap 1 (2 + k))).watch replacement lit w.clause
            (s.memory w.clause).size⟩
    | none =>
        let s := s.setLits w.clause swapped
        if s.val other = 0 then ⟨some w, true, s.assign other⟩ else ⟨some w, false, s⟩

/-- The visit of a watch of the false literal `lit`.  A watch of size two is not precise, since
its clause might be garbage. -/
def visit (lit : Lit) (w : CheckerWatch) : Visit :=
  if s.val w.blit > 0 then
    ⟨some w, true, s⟩
  else if w.size = 2 then
    if s.val w.blit < 0 then ⟨some w, false, s⟩ else ⟨some w, true, s.assign w.blit⟩
  else if (s.memory w.clause).size = 0 then
    ⟨none, true, s⟩
  else
    s.visitLarge lit w

/-- The loop over the watches of `lit`: the watches that stay, whether there is no conflict, and
the checker. -/
def visits (lit : Lit) : List CheckerWatch → Checker → List CheckerWatch × Bool × Checker
  | [], s => ([], true, s)
  | w :: ws, s =>
      let v := s.visit lit w
      if v.res then
        let (kept, res, s) := visits lit ws v.checker
        (v.keep.toList ++ kept, res, s)
      else
        (v.keep.toList ++ ws, false, v.checker)

/-- The watches of the literal `lit`, which became false, are visited. -/
def propagateLiteral (lit : Lit) : Bool × Checker :=
  let (ws, res, s) := visits lit (s.watchers lit) s
  (res, { s with watchers := Function.update s.watchers lit ws })

/-- The loop of `propagate`, for a bounded number of literals. -/
def propagateLoop : Nat → Checker → Option (Bool × Checker)
  | 0, s => if s.nextToPropagate < s.trail.length then none else some (true, s)
  | n + 1, s =>
      match s.trail[s.nextToPropagate]? with
      | none => some (true, s)
      | some lit =>
          let (res, s) :=
            { s with nextToPropagate := s.nextToPropagate + 1 }.propagateLiteral (-lit)
          if res then propagateLoop n s else some (false, s)

/-- There are fewer variables than `size_vars`. -/
def propagate : Option (Bool × Checker) :=
  propagateLoop s.sizeVars s

/-- The complement of the clause is propagated, and the trail is restored. -/
def check (simplified : List Lit) : Option (Bool × Checker) :=
  if s.inconsistent then some (true, s)
  else
    match (simplified.foldl (fun s lit => s.assume (-lit)) s).propagate with
    | none => none
    | some (res, s') => some (!res, s'.backtrack s.nextToPropagate)

/-! ### Adding and deleting clauses -/

/-- `unit` is the only literal that is not false, if there is just one. -/
def addClause (simplified : List Lit) : Option Checker :=
  match simplified.filter (fun lit => ¬ s.val lit < 0) with
  | [] => some { s with inconsistent := true }
  | [unit] =>
      match (s.assign unit).propagate with
      | none => none
      | some (res, s) => some (if res then s else { s with inconsistent := true })
  | _ => some (s.insert simplified)

def addOriginalClause (c : List Lit) : Except Fatal Checker :=
  if s.inconsistent then .ok s
  else
    let s := s.importClause c
    match s.tautological c with
    | none => .ok s
    | some simplified =>
        match s.addClause simplified with
        | none => .error .diverges
        | some s => .ok s

def addDerivedClause (c : List Lit) : Except Fatal Checker :=
  if s.inconsistent then .ok s
  else
    let s := s.importClause c
    match s.tautological c with
    | none => .ok s
    | some simplified =>
        match s.check simplified with
        | none => .error .diverges
        | some (false, _) => .error (.failedToCheck c)
        | some (true, s) =>
            match s.addClause simplified with
            | none => .error .diverges
            | some s => .ok s

def clauseSatisfied (c : Nat) : Bool :=
  (s.lits c).any (fun lit => s.val lit > 0)

/-- `c->size = 0` -/
def markGarbage (memory : Nat → CheckerClause) (c : Nat) : Nat → CheckerClause :=
  Function.update memory c { memory c with size := 0 }

/-- Satisfied clauses become garbage, watches of garbage clauses are removed, and garbage
clauses are deleted. -/
def collectGarbageClauses : Checker :=
  let satisfied := s.clauses.flatten.filter s.clauseSatisfied
  let garbage := satisfied.reverse ++ s.garbage
  let memory := satisfied.foldl markGarbage s.memory
  { s with
    memory := memory
    clauses := s.clauses.map (fun chain => chain.filter (fun c => ¬ s.clauseSatisfied c))
    numClauses := s.numClauses - satisfied.length
    watchers := fun lit => (s.watchers lit).filter (fun w => (memory w.clause).size ≠ 0)
    numGarbage := s.numGarbage + satisfied.length - garbage.length
    garbage := [] }

/-- The clause in the chain `h` becomes garbage. -/
def removeClause (h c : Nat) : Checker :=
  { s with
    numGarbage := s.numGarbage + 1
    numClauses := s.numClauses - 1
    clauses := s.clauses.modify h (fun chain => chain.erase c)
    garbage := c :: s.garbage
    memory := markGarbage s.memory c }

def deleteClause (c : List Lit) : Except Fatal Checker :=
  if s.inconsistent then .ok s
  else
    let s := s.importClause c
    match s.tautological c with
    | none => .ok s
    | some simplified =>
        match reduceHash (computeHash simplified) s.clauses.length with
        | none => .error .sizeIsZero
        | some h =>
            match s.find simplified (computeHash simplified) (s.clauses.getD h []) with
            | none => .error (.notInProof c)
            | some d =>
                let s := s.removeClause h d
                .ok (if 2 * s.numGarbage > max s.clauses.length s.sizeVars then
                    s.collectGarbageClauses
                  else s)

end Checker

end Cadical
