import Mathlib.Data.List.Dedup
import IgnoreGates.CnfTools.GateFormula
import IgnoreGates.CnfTools.OccurrenceList

/-!
# Gate analysis

`GateAnalyzer` takes root clauses from the occurrence list and searches breadth first for
gates below their literals.  A candidate is a gate output when the clauses with its
complement (`fwd`) are blocked on it with the clauses with it (`bwd`), and the two together
match a pattern or pass the semantic check.

What the code asks of its surroundings is the structure `Env`: the answers of the solver,
the clocks, and the order in which hash sets are enumerated.  The answers may depend on the
whole state, which no two calls of a run share.
-/

namespace CnfTools

/-- What one call of `addGate` did: the gate it stored, and the gate formula and the
literals given to the solver when `checkAddGate` was entered. -/
structure Addition where
  gate : Gate
  before : GateFormula
  solver : List Int

/-- `GateAnalyzer`: `S` holds the arguments of all calls of `ipasir_add`; `log` records the
calls of `addGate` in order. -/
structure Analyzer where
  gateFormula : GateFormula
  index : OccurrenceList
  S : List Int
  log : List Addition

/-- The configuration of the analysis and the answers of its surroundings. -/
structure Env where
  patterns : Bool
  semantic : Bool
  /-- `ipasir_solve` after the given literals, under one assumption -/
  solve : List Int → Int → Int
  /-- `ResourceLimits::within_limits` -/
  withinLimits : Analyzer → Bool
  /-- the test of the elapsed time at the end of an iteration -/
  timeout : Analyzer → Bool
  /-- the literals inserted in the hash set `frontier`, as it enumerates them -/
  frontierOrder : Analyzer → List Lit → List Lit
  /-- the clauses inserted in the hash set `remainder`, as it enumerates them -/
  remainderOrder : Analyzer → For → For
  mem_frontierOrder : ∀ a ls l, l ∈ frontierOrder a ls ↔ l ∈ ls
  nodup_remainderOrder : ∀ a ps, (remainderOrder a ps).Nodup
  mem_remainderOrder : ∀ a ps p, p ∈ remainderOrder a ps ↔ p ∈ ps

namespace Analyzer

/-! ### Inputs -/

/-- The loop of `getInputLiterals` over the literals of one clause: the first argument is
`inp` from the insert position on, the second the clause from `it` on.  Once the position
reaches the end, the rest of the clause is appended up to `output`, and what follows the
next literal after these. -/
def mergeInputs (output : Lit) : List Lit → Cl → List Lit
  | inp, [] => inp
  | inp, it :: clause =>
      if it = output then
        mergeInputs output inp clause
      else
        match inp.dropWhile (· < it) with
        | [] =>
            inp ++ (it :: clause).takeWhile (· < output)
              ++ ((it :: clause).dropWhile (· < output)).tail
        | p :: inp' =>
            inp.takeWhile (· < it) ++
              if it < p then it :: mergeInputs output (p :: inp') clause
              else p :: mergeInputs output inp' clause

def getInputLiterals (F : CNFFormula) (output : Lit) (clauses : For) : List Lit :=
  clauses.foldl (fun inp clause => mergeInputs output inp (F.deref clause)) []

/-- The set of variables of the clauses, but for occurrences of the literal `o`. -/
def inputVars (F : CNFFormula) (o : Lit) (clauses : For) : List Nat :=
  (((clauses.flatMap F.deref).filter (· ≠ o)).map Lit.var).dedup

def constrainSameInputVariables (F : CNFFormula) (o : Lit) (fwd bwd : For) : Nat :=
  let fwdVars := inputVars F (~~~o) fwd
  let bwdVars := inputVars F o bwd
  if bwdVars.any (· ∉ fwdVars) then 0
  else if bwdVars.length < fwdVars.length then 0
  else fwdVars.length

/-! ### Gate detection -/

def fixedClauseSize (F : CNFFormula) (f : For) (n : Nat) : Bool :=
  f.all (fun c => (F.deref c).length = n)

/-- `std::uint64_t(1) << n`, where the processor takes the shift count modulo 64. -/
def shiftOne (n : Nat) : Nat :=
  2 ^ (n % 64)

def fPattern (F : CNFFormula) (fwd bwd : For) (inputSize : Nat) : GateType :=
  if fwd.length = 1 ∧ fixedClauseSize F bwd 2 then
    if inputSize = 1 then .TRIV else .OR
  else if bwd.length = 1 ∧ fixedClauseSize F fwd 2 then
    .AND
  else if fwd.length + bwd.length = shiftOne inputSize
      ∧ fixedClauseSize F fwd (inputSize + 1) ∧ fixedClauseSize F bwd (inputSize + 1) then
    if inputSize = 2 ∧ fwd.length = bwd.length then .EQIV else .FULL
  else
    .NONE

/-- The literals that `fSemantic` gives to the solver for one clause: those of the output
variable are made positive. -/
def query (o : Lit) (c : Cl) : List Int :=
  c.map (fun lit => if lit.var ≠ o.var then lit.toDimacs else lit.positive.toDimacs) ++ [0]

/-- The literals that `fSemantic` gives to the solver before it solves. -/
def queries (F : CNFFormula) (o : Lit) (fwd bwd : For) : List Int :=
  (fwd ++ bwd).flatMap (fun cl => query o (F.deref cl))

def fSemantic (env : Env) (F : CNFFormula) (o : Lit) (fwd bwd : For) (S : List Int) :
    GateType × List Int :=
  let S := S ++ queries F o fwd bwd
  let result := env.solve S o.negative.toDimacs
  (if result = 20 then .GENERIC else .NONE, S ++ [o.positive.toDimacs])

/-- The type that `checkAddGate` finds for the clauses of a candidate, and the solver
afterwards. -/
def findType (env : Env) (F : CNFFormula) (out : Lit) (fwd bwd : For) (S : List Int) :
    GateType × List Int :=
  let inputSize := constrainSameInputVariables F out fwd bwd
  let type := if env.patterns ∧ inputSize > 0 then fPattern F fwd bwd inputSize else .NONE
  if type = .NONE ∧ env.semantic ∧ fwd.length > 1 ∧ bwd.length > 1 then
    fSemantic env F out fwd bwd S
  else
    (type, S)

def checkAddGate (env : Env) (F : CNFFormula) (a : Analyzer) (out : Lit) : Bool × Analyzer :=
  let fwd := a.index.index (~~~out)
  let bwd := a.index.index out
  if fwd.length > 0 ∧ OccurrenceList.isBlockedSet F a.index.index out then
    let (type, S) := findType env F out fwd bwd a.S
    if type ≠ .NONE then
      let inp := getInputLiterals F (~~~out) fwd
      (true,
        { a with
          gateFormula := a.gateFormula.addGate type out fwd bwd inp
          S
          log := a.log ++ [⟨a.gateFormula.newGate type out fwd bwd inp, a.gateFormula, a.S⟩] })
    else
      (false, { a with S })
  else
    (false, a)

/-! ### The search -/

/-- The body of the loop of `gate_recognition` over the candidates; the list holds the
literals inserted in `frontier`. -/
def visit (env : Env) (F : CNFFormula) (s : Analyzer × List Lit) (candidate : Lit) :
    Except Fault (Analyzer × List Lit) :=
  match checkAddGate env F s.1 candidate with
  | (true, a) => do
      let gate := a.gateFormula.getGate candidate
      let index ← OccurrenceList.remove F a.index.index gate.fwd
      let index ← OccurrenceList.remove F index gate.bwd
      return ({ a with index := { a.index with index } }, s.2 ++ gate.inp)
  | (false, a) => .ok (a, s.2)

/-- `gate_recognition`, for a bounded number of levels of the breadth-first search. -/
def gateRecognition (env : Env) (F : CNFFormula) :
    Nat → Analyzer → List Lit → Except Fault Analyzer
  | _, a, [] => .ok a
  | 0, _, _ :: _ => .error .outOfFuel
  | n + 1, a, candidates =>
      if env.withinLimits a then do
        let (a, frontier) ← candidates.foldlM (visit env F) (a, [])
        gateRecognition env F n a (env.frontierOrder a frontier)
      else
        .error .limitsExceeded

/-- The first loop in the body of the loop of `analyze`. -/
def addRoots (F : CNFFormula) (a : Analyzer) (rootClauses : For) : Analyzer :=
  { a with gateFormula := rootClauses.foldl (GateFormula.addRoot F) a.gateFormula }

/-- The body of the loop of `analyze` before the next roots are estimated. -/
def round (env : Env) (F : CNFFormula) (rootClauses : For) (a : Analyzer) :
    Except Fault Analyzer :=
  gateRecognition env F (F.nClauses + 1) (addRoots F a rootClauses)
    (rootClauses.flatMap F.deref)

def estimateRoots (F : CNFFormula) (a : Analyzer) : Except Fault (For × Analyzer) := do
  let (rootClauses, index) ← OccurrenceList.estimateRoots F a.index
  return (rootClauses, { a with index })

/-- The loop of `analyze`, for a bounded number of iterations.  It ends without root clauses,
or with those last estimated when the timeout is set. -/
def analyzeLoop (env : Env) (F : CNFFormula) :
    Nat → For → Analyzer → Except Fault (For × Analyzer)
  | _, [], a => .ok ([], a)
  | 0, _ :: _, _ => .error .outOfFuel
  | n + 1, rootClauses, a => do
      let a ← round env F rootClauses a
      let (rootClauses, a') ← estimateRoots F a
      if env.timeout a then .ok (rootClauses, a') else analyzeLoop env F n rootClauses a'

/-- The end of `analyze`: the clauses left in the index become the remainder. -/
def addRemainder (env : Env) (F : CNFFormula) (a : Analyzer) : Analyzer :=
  let left := (List.range (OccurrenceList.size F)).flatMap (fun lit => a.index.index ⟨lit⟩)
  { a with
    gateFormula :=
      { a.gateFormula with
        remainder := a.gateFormula.remainder ++ env.remainderOrder a left } }

/-- The constructor of `GateAnalyzer`. -/
def init (F : CNFFormula) : Analyzer where
  gateFormula := GateFormula.init
  index := OccurrenceList.init F
  S := []
  log := []

def analyze (env : Env) (F : CNFFormula) : Except Fault Analyzer := do
  let (rootClauses, a) ← estimateRoots F (init F)
  let (_, a) ← analyzeLoop env F (F.nClauses + 1) rootClauses a
  return addRemainder env F a

end Analyzer

end CnfTools
