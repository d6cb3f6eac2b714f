import Mathlib.Data.Finset.Insert
import Mathlib.Data.Finset.Union
import IgnoreGates.Cadical.File

/-!
# The list of auxiliary variables

`parse_aux` reads one record per line: a number, a separator and the code of a gate type.
The number parser consumes the separator whatever it is, and a byte that starts no type code
is passed over; blanks are also accepted in front of the end of the file.  `AuxRecord.Read`
describes the records that are accepted, `AuxRecord.Format` those of the format.
-/

namespace Cadical

open Ctype

/-- The type codes. -/
inductive AuxType where
  | AND
  | FUL
  | OR
  | TRI
  | GEN
  | EQV
  | XOR
  | DEF
  | ITE
  deriving DecidableEq, Repr

namespace AuxType

/-- The characters of a code. -/
def chars : AuxType → List Char
  | AND => ['A', 'N', 'D']
  | FUL => ['F', 'U', 'L']
  | OR => ['O', 'R']
  | TRI => ['T', 'R', 'I']
  | GEN => ['G', 'E', 'N']
  | EQV => ['E', 'Q', 'V']
  | XOR => ['X', 'O', 'R']
  | DEF => ['D', 'E', 'F']
  | ITE => ['I', 'T', 'E']

def code (t : AuxType) : List UInt8 :=
  bytesOf t.chars

/-- The labels of the switch over the first byte of the code. -/
def ofLabel (ch : UInt8) : Option AuxType :=
  if ch = 'A'.toUInt8 then some AND
  else if ch = 'F'.toUInt8 then some FUL
  else if ch = 'O'.toUInt8 then some OR
  else if ch = 'T'.toUInt8 then some TRI
  else if ch = 'G'.toUInt8 then some GEN
  else if ch = 'E'.toUInt8 then some EQV
  else if ch = 'X'.toUInt8 then some XOR
  else if ch = 'D'.toUInt8 then some DEF
  else if ch = 'I'.toUInt8 then some ITE
  else none

theorem code_eq_cons (t : AuxType) :
  ∃ b, t.code = b :: t.code.tail ∧ ofLabel b = some t
  := by
  cases t <;> exact ⟨_, rfl, by decide⟩

theorem code_of_ofLabel {ch : UInt8} {t : AuxType} (h : ofLabel ch = some t) :
  t.code = ch :: t.code.tail
  := by
  rw [ofLabel] at h
  iterate 9
    split at h
    · next hch =>
        cases h
        rw [hch]
        rfl
  cases h

end AuxType

/-- The set `aux` and the local variables of `parse_aux`. -/
structure AuxState where
  aux : Finset Nat
  num : AuxType → Nat
  numParsed : Nat
  currentLine : Nat

namespace AuxState

/-- The state before the loop. -/
def init : AuxState where
  aux := ∅
  num := fun _ => 0
  numParsed := 0
  currentLine := 1

/-- `external->add_aux` and `++num_parsed`. -/
def addAux (s : AuxState) (currAux : Nat) : AuxState :=
  { s with aux := insert currAux s.aux, numParsed := s.numParsed + 1 }

/-- The counter of a type is incremented. -/
def count (s : AuxState) (t : AuxType) : AuxState :=
  { s with num := Function.update s.num t (s.num t + 1) }

end AuxState

/-- An error of a parser, or the bound on its iterations. -/
inductive ParseError where
  | message (text : String)
  | outOfFuel
  deriving DecidableEq, Repr

namespace File

/-- The characters behind the label of a branch, compared one by one. -/
def expects : List UInt8 → File → Bool × File
  | [], f => (true, f)
  | c :: cs, f => if f.get.1 = some c then expects cs f.get.2 else (false, f.get.2)

/-- The text of the error about a gate type. -/
def invalidType (f : File) (s : AuxState) : String :=
  f.per ("Syntax error on line " ++ toString s.currentLine ++ ", invalid gate type.")

/-- The switch over the gate type: whether it is left without an error, the state and the
file. -/
def parseType (s : AuxState) (f : File) : Bool × AuxState × File :=
  match f.get.1.bind AuxType.ofLabel with
  | some t =>
      let (found, f) := expects t.code.tail f.get.2
      (found, if found then s.count t else s, f)
  | none => (true, s, f.get.2)

/-- The branch of the loop of `parse_aux` for a digit. -/
def parseRecord (s : AuxState) (ch : UInt8) (f : File) : Option String × AuxState × File :=
  match f.parsePositiveInt ch "<aux>" with
  | .error err => (some err, s, f)
  | .ok (currAux, _, f) =>
      let (found, s, f) := parseType (s.addAux currAux) f
      if found then
        if f.get.1 = some 10 then
          (none, { s with currentLine := s.currentLine + 1 }, f.get.2)
        else
          (some (f.get.2.invalidType s), s, f.get.2)
      else
        (some (f.invalidType s), s, f)

/-- The loop of `parse_aux`, for a bounded number of iterations: the error, if there is one,
and the state. -/
def parseAuxLoop : Nat → AuxState → File → Option ParseError × AuxState
  | 0, s, _ => (some .outOfFuel, s)
  | n + 1, s, f =>
      match f.get with
      | (none, _) => (none, s)
      | (some ch, f) =>
          if ch = ' '.toUInt8 ∨ ch = '\t'.toUInt8 then
            parseAuxLoop n s f
          else if isdigit ch then
            match parseRecord s ch f with
            | (some err, s, _) => (some (.message err), s)
            | (none, s, f) => parseAuxLoop n s f
          else
            (some (.message (f.per ("Syntax error on line " ++ toString s.currentLine))), s)

end File

/-- `parse_aux` on a file with the given name and bytes. -/
def parseAux (name : String) (bytes : List UInt8) : Option ParseError × AuxState :=
  File.parseAuxLoop (bytes.length + 1) AuxState.init { name, bytes, lineno := 1 }

end Cadical
