import IgnoreGates.Text.Ctype
import IgnoreGates.CnfTools.GateFormula

/-!
# The printed list of gates

`GateStats::analyze` counts the gates by type and prints a line for each of them.
-/

namespace CnfTools

open Ctype

/-- The counters `n_none` to `n_full`, and what has been printed. -/
structure GateStats where
  n : GateType → Nat
  out : List UInt8

namespace GateStats

def init : GateStats where
  n := fun _ => 0
  out := []

/-- The counter of a type is incremented. -/
def count (s : GateStats) (t : GateType) : GateStats :=
  { s with n := Function.update s.n t (s.n t + 1) }

/-- `printf("%u ABC\n", i)` for a text `ABC`. -/
def print (s : GateStats) (i : Nat) (text : List Char) : GateStats :=
  { s with out := s.out ++ (decimal i ++ bytesOf ([' '] ++ text ++ ['\n'])) }

/-- The body of the loop over the variables. -/
def visit (gates : GateFormula) (s : GateStats) (i : Nat) : GateStats :=
  match (gates.getGate (Lit.ofVar i false)).type with
  | .NONE => s.count .NONE
  | .GENERIC => (s.count .GENERIC).print i ['G', 'E', 'N']
  | .AND => (s.count .AND).print i ['A', 'N', 'D']
  | .OR => (s.count .OR).print i ['O', 'R']
  | .TRIV => (s.count .TRIV).print i ['T', 'R', 'I']
  | .EQIV => (s.count .EQIV).print i ['E', 'Q', 'V']
  | .FULL => (s.count .FULL).print i ['F', 'U', 'L']
  | .MONO => s

/-- The loop of `analyze` over the variables up to `n_vars`. -/
def analyze (gates : GateFormula) (nVars : Nat) : GateStats :=
  (List.range' 1 nVars).foldl (visit gates) init

end GateStats

end CnfTools
