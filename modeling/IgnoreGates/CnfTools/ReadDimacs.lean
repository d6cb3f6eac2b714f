import Mathlib.Algebra.Ring.Nat
import Mathlib.Data.List.DropRight
import IgnoreGates.CnfTools.StreamBuffer
import IgnoreGates.Text.Result

/-!
# Reading DIMACS files

The loops that read the clauses of a DIMACS file, on the whole content of the file.  A line
that starts with `c` or `p` between two clauses is skipped; anything else has to be a number.
White space and the lines of a file do not matter between the numbers.

Reading from the next line on instead of from the current position drops what is left of the
line.  `readDimacsFromFile_skipLine` says that this never adds literals or clauses, and
`readInteger_skipLine` what it drops when the current position is in front of a number.
-/

namespace CnfTools

open Ctype

namespace Whole

/-! ### White space and lines -/

/-- The bytes that `skipLine` passes before it stops at the end of the line. -/
def inLine (b : UInt8) : Bool :=
  !isspace b || isblank b

theorem inLine_of_not_isspace {b : UInt8} (h : isspace b = false) :
  inLine b = true
  := by
  rw [inLine, h]
  rfl

/-- White space is skipped once. -/
theorem skipWhitespace_idem (w : List UInt8) :
  skipWhitespace (skipWhitespace w) = skipWhitespace w
  := List.dropWhile_idempotent isspace w

theorem skipWhitespace_cons {b : UInt8} (h : isspace b = false) (w : List UInt8) :
  skipWhitespace (b :: w) = b :: w
  := by
  rw [skipWhitespace, List.dropWhile_cons, h]
  rfl

theorem length_skipWhitespace_le (w : List UInt8) :
  (skipWhitespace w).length ≤ w.length
  := (List.dropWhile_suffix isspace).length_le

/-- Skipping a line leaves no more than there was. -/
theorem length_skipLine_le (w : List UInt8) :
  (skipLine w).length ≤ w.length
  := (length_skipWhitespace_le _).trans (List.dropWhile_suffix _).length_le

/-- What belongs to the line may be skipped first. -/
theorem skipLine_append {x : List UInt8} (hx : ∀ b ∈ x, inLine b = true) (w : List UInt8) :
  skipLine (x ++ w) = skipLine w
  := by
  have hdrop : (x ++ w).dropWhile inLine = w.dropWhile inLine := List.dropWhile_append_of_pos hx
  rw [skipLine, skipLine]
  exact congrArg skipWhitespace hdrop

theorem skipLine_cons {b : UInt8} (hb : inLine b = true) (w : List UInt8) :
  skipLine (b :: w) = skipLine w
  := by
  apply skipLine_append (x := [b])
  simpa using hb

/-- Skipping a line from a byte of the line on leaves less than there was. -/
theorem length_skipLine_lt {b : UInt8} (hb : inLine b = true) (w : List UInt8) :
  (skipLine (b :: w)).length < (b :: w).length
  := by
  rw [skipLine_cons hb]
  exact Nat.lt_succ_of_le (length_skipLine_le w)

/-- The white space at the read position stays on the line, or the file ends. -/
def OnLine (w : List UInt8) : Prop :=
  skipWhitespace w = [] ∨ ∀ b ∈ w.takeWhile isspace, inLine b = true

instance (w : List UInt8) : Decidable (OnLine w) :=
  inferInstanceAs (Decidable (_ ∨ _))

theorem skipLine_eq_nil {w : List UInt8} (h : skipWhitespace w = []) :
  skipLine w = []
  := by
  have hall : ∀ b ∈ w, isspace b = true := List.dropWhile_eq_nil_iff.mp h
  apply List.dropWhile_eq_nil_iff.mpr
  intro b hb
  exact hall b ((List.dropWhile_suffix _).subset hb)

/-- White space on the line may be skipped first. -/
theorem skipLine_skipWhitespace {w : List UInt8} (h : OnLine w) :
  skipLine (skipWhitespace w) = skipLine w
  := by
  obtain hnil | hline := h
  · rw [skipLine_eq_nil hnil, hnil]
    rfl
  · rw [← skipLine_append hline (skipWhitespace w), skipWhitespace,
      List.takeWhile_append_dropWhile]

/-- White space that ends the line takes `skipLine` to what follows it. -/
theorem skipLine_of_not_onLine {w : List UInt8} (h : ¬ OnLine w) :
  skipLine w = skipWhitespace w
  := by
  rw [OnLine, not_or] at h
  obtain ⟨-, h⟩ := h
  push Not at h
  rw [skipLine]
  change skipWhitespace (w.dropWhile inLine) = skipWhitespace w
  induction w with
  | nil => rfl
  | cons b w ih =>
      obtain ⟨d, hd, hline⟩ := h
      cases hb : isspace b with
      | false =>
          rw [List.takeWhile_cons, hb] at hd
          cases hd
      | true =>
          rw [List.takeWhile_cons, hb, if_pos rfl] at hd
          rw [List.dropWhile_cons]
          split
          · next hb' =>
              have hskip : skipWhitespace (b :: w) = skipWhitespace w := by
                rw [skipWhitespace, List.dropWhile_cons, if_pos hb]
                rfl
              rw [hskip]
              apply ih
              obtain rfl | hd := List.mem_cons.mp hd
              · exact absurd hb' hline
              · exact ⟨d, hd, hline⟩
          · rfl

/-! ### Numbers -/

/-- White space in front of a number does not matter. -/
theorem readInteger_skipWhitespace (w : List UInt8) :
  readInteger (skipWhitespace w) = readInteger w
  := by
  rw [readInteger, readInteger, skipWhitespace_idem]

/-- At the end of the file zero is read. -/
theorem readInteger_of_nil {w : List UInt8} (h : skipWhitespace w = []) :
  readInteger w = (.ok 0, [])
  := by
  rw [readInteger, h]

/-- The bytes of which numbers consist. -/
def numeral (b : UInt8) : Bool :=
  isdigit b || b = 43 || b = 45

theorem isspace_of_numeral {b : UInt8} (h : numeral b = true) :
  isspace b = false
  := by
  simp only [numeral, isdigit, isspace, Bool.or_eq_true, decide_eq_true_eq,
    decide_eq_false_iff_not] at h ⊢
  obtain (h | rfl) | rfl := h
  · omega
  · decide
  · decide

/-- What `readInteger` returns was read from at least one byte and is in range. -/
theorem of_integerOf {r : Strtol} {next : UInt8} {n : Int} (h : integerOf r next = .ok n) :
  0 < r.length ∧ n.natAbs < 2 ^ 31 - 1
  := by
  rw [integerOf] at h
  by_cases hmin : r.number = -2 ^ 63
  · simp only [hmin, if_true] at h
    split at h
    · cases h
    · split at h
      · next hpos =>
          have hn : n = 0 := (Except.ok.inj h).symm
          exact ⟨hpos, by rw [hn]; decide⟩
      · cases h
  · simp only [hmin, if_false] at h
    split at h
    · cases h
    · next hrange =>
        rw [not_or] at hrange
        split at h
        · next hpos =>
            refine ⟨hpos, ?_⟩
            have hmod : r.number.bmod (2 ^ 32) = r.number := by
              apply Int.bmod_eq_of_le <;> omega
            rw [← Except.ok.inj h, hmod]
            omega
        · cases h

/-- A number consists of numerals, which `readInteger` takes away. -/
theorem of_readInteger {w w' : List UInt8} {n : Int} (h : readInteger w = (.ok n, w'))
    (hne : skipWhitespace w ≠ []) :
  ∃ x, skipWhitespace w = x ++ w' ∧ x ≠ [] ∧ ∀ b ∈ x, numeral b = true
  := by
  rw [readInteger] at h
  cases hw : skipWhitespace w with
  | nil => exact absurd hw hne
  | cons b rest =>
      rw [hw] at h
      simp only at h
      have hspace := isspace_of_skipWhitespace hw
      cases hint : integerOf (strtol (b :: rest)) b with
      | error e =>
          rw [hint] at h
          cases h
      | ok m =>
          rw [hint] at h
          obtain ⟨-, rfl⟩ := Prod.mk.inj h
          obtain ⟨hsplit, hdigits⟩ := strtol_split (of_integerOf hint).1
          rw [List.takeWhile_cons, hspace, if_neg Bool.false_ne_true, List.nil_append] at hsplit
          refine ⟨_, hsplit, ?_, ?_⟩
          · intro hnil
            exact hdigits (List.append_eq_nil_iff.mp hnil).2
          · intro d hd
            rw [numeral, Bool.or_assoc, Bool.or_eq_true]
            obtain hd | hd := List.mem_append.mp hd
            · right
              rw [List.dropWhile_cons, hspace, if_neg Bool.false_ne_true, sign] at hd
              split at hd
              · next hsign =>
                  rw [List.mem_singleton.mp hd]
                  simpa using hsign
              · cases hd
            · left
              exact List.mem_takeWhile_imp hd

/-- Reading a number leaves no more than there was. -/
theorem length_readInteger_le {w w' : List UInt8} {n : Int} (h : readInteger w = (.ok n, w')) :
  w'.length ≤ w.length
  := by
  by_cases hne : skipWhitespace w = []
  · rw [readInteger_of_nil hne] at h
    rw [← (Prod.mk.inj h).2]
    exact Nat.zero_le _
  · obtain ⟨x, hx, -, -⟩ := of_readInteger h hne
    have hle := length_skipWhitespace_le w
    rw [hx, List.length_append] at hle
    omega

/-- A number other than zero is not read at the end of the file. -/
theorem length_readInteger_lt {w w' : List UInt8} {n : Int} (h : readInteger w = (.ok n, w'))
    (hn : n ≠ 0 ∨ skipWhitespace w ≠ []) :
  w'.length < w.length
  := by
  by_cases hne : skipWhitespace w = []
  · rw [readInteger_of_nil hne] at h
    obtain ⟨heq, -⟩ := Prod.mk.inj h
    obtain hn | hn := hn
    · exact absurd (Except.ok.inj heq).symm hn
    · exact absurd hne hn
  · obtain ⟨x, hx, hxne, -⟩ := of_readInteger h hne
    have hle := length_skipWhitespace_le w
    rw [hx, List.length_append] at hle
    have hpos := List.length_pos_iff.mpr hxne
    omega

/-! ### Clauses -/

/-- The loop that reads the literals of a clause up to zero or to the end of the file. -/
def readLits (content : List UInt8) : Except ParserException (List Int × List UInt8) :=
  match _h : readInteger content with
  | (.error e, _) => .error e
  | (.ok plit, rest) =>
      if _hne : plit ≠ 0 then do
        let (lits, rest') ← readLits rest
        return (plit :: lits, rest')
      else
        .ok ([], rest)
termination_by content.length
decreasing_by exact length_readInteger_lt _h (Or.inl _hne)

/-- The literals of a clause are read up to zero. -/
theorem readLits_eq (w : List UInt8) :
  readLits w = match readInteger w with
    | (.error e, _) => .error e
    | (.ok plit, rest) =>
        if plit ≠ 0 then (readLits rest).map (fun p => (plit :: p.1, p.2)) else .ok ([], rest)
  := by
  rw [readLits]
  split
  · next heq => rw [heq]
  · next plit rest heq =>
      rw [heq]
      simp only [dite_eq_ite]
      cases readLits rest <;> rfl

/-- Reading a clause ends with zero, or reads a literal and the rest of the clause. -/
theorem of_readLits {w w' : List UInt8} {lits : List Int} (h : readLits w = .ok (lits, w')) :
  (readInteger w = (.ok 0, w') ∧ lits = [])
    ∨ ∃ n rest lits', n ≠ 0 ∧ readInteger w = (.ok n, rest) ∧ readLits rest = .ok (lits', w')
      ∧ lits = n :: lits'
  := by
  rw [readLits_eq] at h
  split at h
  · cases h
  · next n rest hr =>
      split at h
      · next hn =>
          right
          obtain ⟨⟨lits', w''⟩, hlits, heq⟩ := Except.of_map_eq_ok h
          obtain ⟨rfl, rfl⟩ := Prod.mk.inj heq
          exact ⟨n, rest, lits', hn, hr, hlits, rfl⟩
      · next hn =>
          left
          obtain ⟨rfl, rfl⟩ := Prod.mk.inj (Except.ok.inj h)
          rw [not_not.mp hn] at hr
          exact ⟨hr, rfl⟩

/-- White space in front of a clause does not matter. -/
theorem readLits_skipWhitespace (w : List UInt8) :
  readLits (skipWhitespace w) = readLits w
  := by
  rw [readLits_eq, readLits_eq w, readInteger_skipWhitespace]

/-- Reading a clause leaves no more than there was. -/
theorem length_readLits_le {w w' : List UInt8} {lits : List Int}
    (h : readLits w = .ok (lits, w')) :
  w'.length ≤ w.length
  := by
  induction lits generalizing w with
  | nil =>
      obtain ⟨hzero, -⟩ | ⟨n, rest, lits', -, -, -, hlits⟩ := of_readLits h
      · exact length_readInteger_le hzero
      · cases hlits
  | cons n lits ih =>
      obtain ⟨-, hlits⟩ | ⟨n', rest, lits', -, hn, hrest, hlits⟩ := of_readLits h
      · cases hlits
      · obtain ⟨rfl, rfl⟩ := List.cons.inj hlits
        exact (ih hrest).trans (length_readInteger_le hn)

/-- In front of the end of the file, a clause starts with a numeral, and reading it makes
progress. -/
theorem of_readLits_cons {w w' rest : List UInt8} {b : UInt8} {lits : List Int}
    (h : readLits w = .ok (lits, w')) (hw : skipWhitespace w = b :: rest) :
  numeral b = true ∧ w'.length < w.length
  := by
  have hne : skipWhitespace w ≠ [] := by
    rw [hw]
    exact List.cons_ne_nil b rest
  have hnumeral : ∀ {n : Int} {t : List UInt8}, readInteger w = (.ok n, t) → numeral b = true := by
    intro n t hn
    obtain ⟨x, hx, hxne, hall⟩ := of_readInteger hn hne
    obtain ⟨d, x, rfl⟩ := List.exists_cons_of_ne_nil hxne
    rw [hw, List.cons_append] at hx
    rw [(List.cons.inj hx).1]
    exact hall d List.mem_cons_self
  obtain ⟨hzero, -⟩ | ⟨n, t, lits', -, hn, ht, -⟩ := of_readLits h
  · exact ⟨hnumeral hzero, length_readInteger_lt hzero (Or.inr hne)⟩
  · exact ⟨hnumeral hn, (length_readLits_le ht).trans_lt (length_readInteger_lt hn (Or.inr hne))⟩

/-- The loop of `readDimacsFromFile`: the clauses that are passed to `readClause`. -/
def readDimacsFromFile (content : List UInt8) : Except ParserException (List (List Int)) :=
  match _h : skipWhitespace content with
  | [] => .ok []
  | b :: rest =>
      if b = 'p'.toUInt8 ∨ b = 'c'.toUInt8 then
        readDimacsFromFile (skipLine (b :: rest))
      else
        match _hlits : readLits (b :: rest) with
        | .error e => .error e
        | .ok (clause, content') => do
            let clauses ← readDimacsFromFile content'
            return clause :: clauses
termination_by content.length
decreasing_by
  · have hle := length_skipWhitespace_le content
    rw [_h] at hle
    exact (length_skipLine_lt (inLine_of_not_isspace (isspace_of_skipWhitespace _h)) rest).trans_le
      hle
  · have hle := length_skipWhitespace_le content
    rw [_h] at hle
    have hidem := skipWhitespace_cons (isspace_of_skipWhitespace _h) rest
    exact (of_readLits_cons _hlits hidem).2.trans_le hle

/-- The file is read line by line and clause by clause. -/
theorem readDimacsFromFile_eq (w : List UInt8) :
  readDimacsFromFile w = match skipWhitespace w with
    | [] => .ok []
    | b :: rest =>
        if b = 'p'.toUInt8 ∨ b = 'c'.toUInt8 then readDimacsFromFile (skipLine (b :: rest))
        else (readLits (b :: rest)).bind
          (fun p => (readDimacsFromFile p.2).map (fun clauses => p.1 :: clauses))
  := by
  rw [readDimacsFromFile]
  split
  · next heq => rw [heq]
  · next b rest heq =>
      rw [heq]
      simp only
      split
      · rfl
      · split
        · next hlits => rw [hlits]; rfl
        · next clause content hlits =>
            rw [hlits]
            change _ = (readDimacsFromFile content).map (fun clauses => clause :: clauses)
            cases readDimacsFromFile content <;> rfl

/-- White space in front of the file does not matter. -/
theorem readDimacsFromFile_skipWhitespace (w : List UInt8) :
  readDimacsFromFile (skipWhitespace w) = readDimacsFromFile w
  := by
  rw [readDimacsFromFile_eq, readDimacsFromFile_eq w, skipWhitespace_idem]

theorem readDimacsFromFile_nil {w : List UInt8} (h : skipWhitespace w = []) :
  readDimacsFromFile w = .ok []
  := by
  rw [readDimacsFromFile_eq, h]

/-- A comment or a header is skipped up to the end of its line. -/
theorem readDimacsFromFile_line {w rest : List UInt8} {b : UInt8}
    (hw : skipWhitespace w = b :: rest) (hb : b = 'p'.toUInt8 ∨ b = 'c'.toUInt8) :
  readDimacsFromFile w = readDimacsFromFile (skipLine (b :: rest))
  := by
  rw [readDimacsFromFile_eq, hw]
  exact if_pos hb

theorem not_line_of_numeral {b : UInt8} (h : numeral b = true) :
  ¬ (b = 'p'.toUInt8 ∨ b = 'c'.toUInt8)
  := by
  rintro (rfl | rfl) <;> revert h <;> decide

/-- A clause that is read is the first one of the file. -/
theorem readDimacsFromFile_clause {w w' rest : List UInt8} {b : UInt8} {lits : List Int}
    (hw : skipWhitespace w = b :: rest) (h : readLits w = .ok (lits, w')) :
  readDimacsFromFile w = (readDimacsFromFile w').map (fun clauses => lits :: clauses)
  := by
  rw [readDimacsFromFile_eq, hw]
  simp only
  rw [if_neg (not_line_of_numeral (of_readLits_cons h hw).1), ← hw, readLits_skipWhitespace, h]
  rfl

/-- The three ways in which clauses are read. -/
theorem of_readDimacsFromFile {w : List UInt8} {clauses : List (List Int)}
    (h : readDimacsFromFile w = .ok clauses) :
  (skipWhitespace w = [] ∧ clauses = [])
    ∨ (∃ b rest, skipWhitespace w = b :: rest ∧ (b = 'p'.toUInt8 ∨ b = 'c'.toUInt8)
      ∧ readDimacsFromFile (skipLine (b :: rest)) = .ok clauses)
    ∨ ∃ b rest lits w' clauses', skipWhitespace w = b :: rest ∧ readLits w = .ok (lits, w')
      ∧ readDimacsFromFile w' = .ok clauses' ∧ clauses = lits :: clauses'
  := by
  rw [readDimacsFromFile_eq] at h
  cases hw : skipWhitespace w with
  | nil =>
      rw [hw] at h
      exact Or.inl ⟨rfl, (Except.ok.inj h).symm⟩
  | cons b rest =>
      rw [hw] at h
      simp only at h
      split at h
      · next hb => exact Or.inr (Or.inl ⟨b, rest, rfl, hb, h⟩)
      · obtain ⟨⟨lits, w'⟩, hlits, h⟩ := Except.of_bind_eq_ok h
        obtain ⟨clauses', hclauses, rfl⟩ := Except.of_map_eq_ok h
        rw [← hw, readLits_skipWhitespace] at hlits
        exact Or.inr (Or.inr ⟨b, rest, lits, w', clauses', rfl, hlits, hclauses, rfl⟩)

/-! ### Dropping the rest of a line -/

/-- How many numbers the clauses were read from, with the zeros that end them. -/
def numbers (clauses : List (List Int)) : Nat :=
  (clauses.map (fun lits => lits.length + 1)).sum

/-- A clause has a number for each literal and one for its end. -/
theorem numbers_cons (lits : List Int) (clauses : List (List Int)) :
  numbers (lits :: clauses) = lits.length + 1 + numbers clauses
  := by
  rw [numbers, List.map_cons, List.sum_cons]
  rfl

/-- Reading clauses from the inside of a clause on gives no more numbers than what was left of
the clause. -/
theorem readDimacsFromFile_of_readLits {w w' : List UInt8} {lits : List Int}
    {clauses : List (List Int)} (h : readLits w = .ok (lits, w'))
    (hclauses : readDimacsFromFile w' = .ok clauses) :
  ∃ clauses', readDimacsFromFile w = .ok clauses'
    ∧ numbers clauses' ≤ numbers (lits :: clauses)
  := by
  cases hw : skipWhitespace w with
  | nil => exact ⟨[], readDimacsFromFile_nil hw, Nat.zero_le _⟩
  | cons b rest =>
      refine ⟨lits :: clauses, ?_, le_rfl⟩
      rw [readDimacsFromFile_clause hw h, hclauses]
      rfl

/-- What `skipLine` makes of a position in front of a number on the same line. -/
theorem readInteger_skipLine {w w' : List UInt8} {n : Int} (h : readInteger w = (.ok n, w'))
    (hline : OnLine w) :
  skipLine w' = skipLine w
  := by
  by_cases hne : skipWhitespace w = []
  · rw [readInteger_of_nil hne] at h
    rw [skipLine_eq_nil hne, ← (Prod.mk.inj h).2]
    rfl
  · obtain ⟨x, hx, -, hall⟩ := of_readInteger h hne
    rw [← skipLine_skipWhitespace hline, hx, skipLine_append]
    exact fun b hb => inLine_of_not_isspace (isspace_of_numeral (hall b hb))

/-- Skipping a line from the inside of a clause gives no more numbers, if skipping a line from
the positions behind does not. -/
theorem readLits_skipLine {w w' : List UInt8} {lits : List Int} {clauses : List (List Int)}
    (h : readLits w = .ok (lits, w')) (hclauses : readDimacsFromFile w' = .ok clauses)
    (hlater : ∀ {v : List UInt8} {cs : List (List Int)}, v.length < w.length →
      readDimacsFromFile v = .ok cs →
      ∃ cs', readDimacsFromFile (skipLine v) = .ok cs' ∧ numbers cs' ≤ numbers cs) :
  ∃ clauses', readDimacsFromFile (skipLine w) = .ok clauses'
    ∧ numbers clauses' ≤ numbers (lits :: clauses)
  := by
  induction lits generalizing w with
  | nil =>
      by_cases hline : OnLine w
      · by_cases hne : skipWhitespace w = []
        · rw [skipLine_eq_nil hne]
          exact ⟨[], readDimacsFromFile_nil rfl, Nat.zero_le _⟩
        obtain ⟨hzero, -⟩ | ⟨n, rest, lits', -, -, -, hlits⟩ := of_readLits h
        · obtain ⟨cs, hcs, hle⟩ := hlater (length_readInteger_lt hzero (Or.inr hne)) hclauses
          rw [readInteger_skipLine hzero hline] at hcs
          refine ⟨cs, hcs, ?_⟩
          rw [numbers_cons]
          omega
        · cases hlits
      · rw [skipLine_of_not_onLine hline, readDimacsFromFile_skipWhitespace]
        exact readDimacsFromFile_of_readLits h hclauses
  | cons n lits ih =>
      by_cases hline : OnLine w
      · obtain ⟨-, hlits⟩ | ⟨n', rest, lits', hn', hn, hrest, hlits⟩ := of_readLits h
        · cases hlits
        · obtain ⟨rfl, rfl⟩ := List.cons.inj hlits
          have hlt := length_readInteger_lt hn (Or.inl hn')
          obtain ⟨cs, hcs, hle⟩ := ih hrest (fun hv => hlater (hv.trans hlt))
          rw [readInteger_skipLine hn hline] at hcs
          refine ⟨cs, hcs, ?_⟩
          rw [numbers_cons] at hle ⊢
          rw [List.length_cons]
          omega
      · rw [skipLine_of_not_onLine hline, readDimacsFromFile_skipWhitespace]
        exact readDimacsFromFile_of_readLits h hclauses

/-- Skipping the rest of the line first gives no more numbers. -/
theorem readDimacsFromFile_skipLine {w : List UInt8} {clauses : List (List Int)}
    (h : readDimacsFromFile w = .ok clauses) :
  ∃ clauses', readDimacsFromFile (skipLine w) = .ok clauses' ∧ numbers clauses' ≤ numbers clauses
  := by
  induction hlen : w.length using Nat.strongRecOn generalizing w clauses with
  | ind m ih =>
      subst hlen
      by_cases hline : OnLine w
      · obtain ⟨hnil, -⟩ | ⟨b, rest, hw, hb, hrest⟩ | ⟨b, rest, lits, w', cs, hw, hlits, hcs, rfl⟩ :=
          of_readDimacsFromFile h
        · rw [skipLine_eq_nil hnil]
          exact ⟨[], readDimacsFromFile_nil rfl, Nat.zero_le _⟩
        · rw [← skipLine_skipWhitespace hline, hw]
          exact ⟨clauses, hrest, le_rfl⟩
        · apply readLits_skipLine hlits hcs
          intro v cs' hv hcs'
          exact ih _ hv hcs' rfl
      · rw [skipLine_of_not_onLine hline, readDimacsFromFile_skipWhitespace]
        exact ⟨clauses, h, le_rfl⟩

/-- Skipping the rest of the line behind a number instead of in front of it gives fewer
numbers if the number is on a later line. -/
theorem readDimacsFromFile_skipLine_readInteger {w w' : List UInt8} {n : Int}
    (h : readInteger w = (.ok n, w')) {clauses : List (List Int)}
    (hclauses : readDimacsFromFile (skipLine w) = .ok clauses) :
  ∃ clauses', readDimacsFromFile (skipLine w') = .ok clauses'
    ∧ numbers clauses' ≤ numbers clauses ∧ (¬ OnLine w → numbers clauses' < numbers clauses)
  := by
  by_cases hline : OnLine w
  · rw [readInteger_skipLine h hline]
    exact ⟨clauses, hclauses, le_rfl, fun hnot => absurd hline hnot⟩
  · have hne : skipWhitespace w ≠ [] := fun hnil => hline (Or.inl hnil)
    obtain ⟨x, hx, hxne, hall⟩ := of_readInteger h hne
    obtain ⟨b, x, rfl⟩ := List.exists_cons_of_ne_nil hxne
    rw [skipLine_of_not_onLine hline, readDimacsFromFile_skipWhitespace] at hclauses
    obtain ⟨hnil, -⟩ | ⟨d, rest, hw, hd, -⟩ | ⟨d, rest, lits, w'', cs, hw, hlits, hcs, rfl⟩ :=
      of_readDimacsFromFile hclauses
    · exact absurd hnil hne
    · exfalso
      rw [hw, List.cons_append] at hx
      rw [(List.cons.inj hx).1] at hd
      exact not_line_of_numeral (hall b List.mem_cons_self) hd
    · obtain ⟨hzero, rfl⟩ | ⟨n', t, lits', -, hn', ht, rfl⟩ := of_readLits hlits
      · rw [h] at hzero
        obtain ⟨-, rfl⟩ := Prod.mk.inj hzero
        obtain ⟨cs', hcs', hle⟩ := readDimacsFromFile_skipLine hcs
        rw [numbers_cons]
        exact ⟨cs', hcs', by omega, by omega⟩
      · rw [h] at hn'
        obtain ⟨-, rfl⟩ := Prod.mk.inj hn'
        obtain ⟨cs', hcs', hle⟩ := readLits_skipLine ht hcs
          (fun _ hv => readDimacsFromFile_skipLine hv)
        rw [numbers_cons] at hle ⊢
        rw [List.length_cons]
        exact ⟨cs', hcs', by omega, by omega⟩

/-! ### Written numbers -/

/-- The numbers that `readInteger` returns. -/
def InRange (n : Int) : Prop :=
  n.natAbs < 2 ^ 31 - 1

instance (n : Int) : Decidable (InRange n) :=
  inferInstanceAs (Decidable (n.natAbs < 2 ^ 31 - 1))

/-- Numbers that are read are in range. -/
theorem inRange_of_readInteger {w w' : List UInt8} {n : Int} (h : readInteger w = (.ok n, w')) :
  InRange n
  := by
  rw [readInteger] at h
  cases hw : skipWhitespace w with
  | nil =>
      rw [hw] at h
      obtain ⟨hn, -⟩ := Prod.mk.inj h
      rw [← Except.ok.inj hn]
      decide
  | cons b rest =>
      rw [hw] at h
      simp only at h
      cases hint : integerOf (strtol (b :: rest)) b with
      | error e =>
          rw [hint] at h
          cases h
      | ok m =>
          rw [hint] at h
          obtain ⟨hn, -⟩ := Prod.mk.inj h
          rw [← Except.ok.inj hn]
          exact (of_integerOf hint).2

theorem signed_ne_nil (n : Int) :
  signed n ≠ []
  := by
  rw [signed]
  split
  · exact List.cons_ne_nil _ _
  · exact decimal_ne_nil _

theorem numeral_of_mem_signed {n : Int} {b : UInt8} (h : b ∈ signed n) :
  numeral b = true
  := by
  have hdecimal : ∀ {m : Nat} {b : UInt8}, b ∈ decimal m → numeral b = true := by
    intro m b hb
    rw [numeral, isdigit_of_mem_decimal hb]
    rfl
  rw [signed] at h
  split at h
  · obtain rfl | h := List.mem_cons.mp h
    · rfl
    · exact hdecimal h
  · exact hdecimal h

/-- A number that is written starts without white space. -/
theorem skipWhitespace_signed (n : Int) (rest : List UInt8) :
  skipWhitespace (signed n ++ rest) = signed n ++ rest
  := by
  obtain ⟨b, bs, hbs⟩ := List.exists_cons_of_ne_nil (signed_ne_nil n)
  have hb : numeral b = true := numeral_of_mem_signed (hbs ▸ List.mem_cons_self)
  rw [hbs, List.cons_append, skipWhitespace_cons (isspace_of_numeral hb)]

/-- A written number is read back. -/
theorem readInteger_signed {n : Int} (hn : InRange n) {rest : List UInt8}
    (hrest : ∀ b ∈ rest.head?, isdigit b = false) :
  readInteger (signed n ++ rest) = (.ok n, rest)
  := by
  have hstrtol := strtol_signed (n := n) (by rw [InRange] at hn; omega) hrest
  have hpos : 0 < (signed n).length := List.length_pos_iff.mpr (signed_ne_nil n)
  have hinteger : ∀ b, integerOf ⟨n, false, (signed n).length⟩ b = .ok n := by
    intro b
    have hmin : n ≠ -2 ^ 63 := by
      rintro rfl
      revert hn
      decide
    rw [InRange] at hn
    have hmod : n.bmod (2 ^ 32) = n := by
      apply Int.bmod_eq_of_le <;> omega
    rw [integerOf]
    simp only [hmin, if_false, Bool.false_eq_true, false_or]
    rw [if_neg (by omega), if_pos hpos, hmod]
  rw [readInteger, skipWhitespace_signed]
  obtain ⟨b, bs, hbs⟩ := List.exists_cons_of_ne_nil (signed_ne_nil n)
  rw [hbs, List.cons_append]
  rw [hbs, List.cons_append] at hstrtol
  simp only [hstrtol]
  rw [← hbs, hinteger]
  simp only [← List.cons_append, ← hbs]
  rw [List.drop_left]

/-- The literals of a clause, each with a space behind it. -/
def writeLits (lits : List Int) : List UInt8 :=
  lits.flatMap (fun plit => signed plit ++ [' '.toUInt8])

/-- The literals that clauses consist of. -/
def IsLit (n : Int) : Prop :=
  n ≠ 0 ∧ InRange n

/-- The literals that are read are nonzero and in range. -/
theorem isLit_of_readLits {w w' : List UInt8} {lits : List Int}
    (h : readLits w = .ok (lits, w')) :
  ∀ n ∈ lits, IsLit n
  := by
  induction lits generalizing w with
  | nil => exact fun n hn => absurd hn List.not_mem_nil
  | cons m lits ih =>
      obtain ⟨-, hlits⟩ | ⟨n', rest, lits', hne, hn, hrest, hlits⟩ := of_readLits h
      · cases hlits
      · obtain ⟨rfl, rfl⟩ := List.cons.inj hlits
        intro n hmem
        obtain rfl | hmem := List.mem_cons.mp hmem
        · exact ⟨hne, inRange_of_readInteger hn⟩
        · exact ih hrest n hmem

/-- The literals of every clause that is read are literals. -/
theorem isLit_of_readDimacsFromFile {w : List UInt8} {clauses : List (List Int)}
    (h : readDimacsFromFile w = .ok clauses) :
  ∀ lits ∈ clauses, ∀ n ∈ lits, IsLit n
  := by
  induction hlen : w.length using Nat.strongRecOn generalizing w clauses with
  | ind m ih =>
      subst hlen
      have hle := length_skipWhitespace_le w
      obtain ⟨-, rfl⟩ | ⟨b, rest, hw, hb, hrest⟩ | ⟨b, rest, lits, w', cs, hw, hlits, hcs, rfl⟩ :=
        of_readDimacsFromFile h
      · exact fun lits hlits => absurd hlits List.not_mem_nil
      · rw [hw] at hle
        have hlt := length_skipLine_lt (inLine_of_not_isspace (isspace_of_skipWhitespace hw)) rest
        exact ih _ (hlt.trans_le hle) hrest rfl
      · intro lits' hlits'
        obtain rfl | hlits' := List.mem_cons.mp hlits'
        · exact isLit_of_readLits hlits
        · exact ih _ (of_readLits_cons hlits hw).2 hcs rfl lits' hlits'

theorem readLits_space (w : List UInt8) :
  readLits (' '.toUInt8 :: w) = readLits w
  := by
  rw [← readLits_skipWhitespace, ← readLits_skipWhitespace w]
  rfl

/-- A written clause is read back. -/
theorem readLits_writeLits {lits : List Int} (h : ∀ n ∈ lits, IsLit n) {rest : List UInt8}
    (hrest : ∀ b ∈ rest.head?, isdigit b = false) :
  readLits (writeLits lits ++ (signed 0 ++ rest)) = .ok (lits, rest)
  := by
  induction lits with
  | nil =>
      rw [writeLits, List.flatMap_nil, List.nil_append, readLits_eq,
        readInteger_signed (by decide) hrest]
      rfl
  | cons n lits ih =>
      obtain ⟨hne, hrange⟩ := h n List.mem_cons_self
      have hblank : isdigit ' '.toUInt8 = false := rfl
      have hcons : writeLits (n :: lits) ++ (signed 0 ++ rest)
          = signed n ++ ' '.toUInt8 :: (writeLits lits ++ (signed 0 ++ rest)) := by
        simp [writeLits]
      rw [hcons, readLits_eq, readInteger_signed hrange (by simpa using hblank)]
      simp only
      rw [if_pos hne, readLits_space, ih (fun m hm => h m (List.mem_cons_of_mem n hm))]
      rfl

end Whole

end CnfTools
