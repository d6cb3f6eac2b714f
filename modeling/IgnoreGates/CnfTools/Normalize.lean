import IgnoreGates.CnfTools.GBDHash

/-!
# Normalisation

`normalize` writes the clauses of a file one to a line, the headers with single spaces, and
the comments in front of the first header with positive numbers.  A comment ends where its line
ends, as for `gbd_hash_from_dimacs`.  A header, however, is read number by number here and is
skipped as a line there.

What `normalize` reads is a sequence of items.  `Items` relates a file to them; an item is
read back from what is written for it.  The written file has the hash of the original exactly
when no header is continued on a later line.
-/

namespace CnfTools

open Ctype

namespace Whole

/-! ### The program -/

/-- The variables of `normalize` and what it has written. -/
structure Normalizer where
  nv : Int := 0
  nc : Int := 0
  rv : Int := 0
  rc : Int := 0
  out : List UInt8 := []
  deriving DecidableEq

/-- The branch for a header, behind its `p`. -/
def readHeader (content : List UInt8) : Except ParserException (Int × Int × List UInt8) := do
  let content ← skipString (bytesOf ['c', 'n', 'f']) (skipWhitespace content)
  let nv ← (readInteger content).1
  let content := (readInteger content).2
  let nc ← (readInteger content).1
  return (nv, nc, skipLine (readInteger content).2)

def writeHeader (nv nc : Int) : List UInt8 :=
  bytesOf ['p', ' ', 'c', 'n', 'f', ' '] ++ signed nv ++ [' '.toUInt8] ++ signed nc
    ++ ['\n'.toUInt8]

def writeComment (text : List UInt8) : List UInt8 :=
  text ++ ['\n'.toUInt8]

def writeClause (lits : List Int) : List UInt8 :=
  writeLits lits ++ ['0'.toUInt8] ++ ['\n'.toUInt8]

def Normalizer.addComment (s : Normalizer) (text : List UInt8) : Normalizer :=
  { s with out := s.out ++ writeComment text }

def Normalizer.addHeader (s : Normalizer) (nv nc : Int) : Normalizer :=
  { s with nv, nc, out := s.out ++ writeHeader nv nc }

def Normalizer.addClause (s : Normalizer) (lits : List Int) : Normalizer :=
  { s with
    rv := lits.foldl (fun rv plit => max (plit.natAbs : Int) rv) s.rv
    rc := s.rc + 1
    out := s.out ++ writeClause lits }

/-- The warning about a header that does not fit the clauses. -/
def Normalizer.warning (s : Normalizer) (filename : String) : Option String :=
  if s.rc ≠ s.nc ∨ s.rv > s.nv then
    some ("c Warning (" ++ filename ++ "), header is: p cnf " ++ toString s.nv ++ " "
      ++ toString s.nc ++ ", but correct would be: p cnf " ++ toString s.rv ++ " "
      ++ toString s.rc ++ "\n")
  else
    none

/-- A string that is skipped has been there. -/
theorem of_skipString {str w w' : List UInt8} (h : skipString str w = .ok w') :
  w = str ++ w'
  := by
  induction str generalizing w with
  | nil => exact Except.ok.inj h
  | cons c str ih =>
      rw [skipString] at h
      split at h
      · next hc =>
          obtain ⟨d, w, rfl⟩ : ∃ d v, w = d :: v := by
            apply List.exists_cons_of_ne_nil
            rintro rfl
            cases hc
          have hcd : d = c := Option.some_inj.mp hc
          have hw : w = str ++ w' := ih h
          rw [hcd, hw, List.cons_append]
      · cases h

/-- A string that is there is skipped. -/
theorem skipString_append (str w : List UInt8) :
  skipString str (str ++ w) = .ok w
  := by
  induction str with
  | nil => rfl
  | cons c str ih =>
      rw [List.cons_append, skipString, if_pos List.head?_cons]
      exact ih

/-- The steps of reading a header. -/
theorem of_readHeader {w w' : List UInt8} {nv nc : Int} (h : readHeader w = .ok (nv, nc, w')) :
  ∃ w₂ w₃ w₄, skipWhitespace w = bytesOf ['c', 'n', 'f'] ++ w₂ ∧ readInteger w₂ = (.ok nv, w₃)
    ∧ readInteger w₃ = (.ok nc, w₄) ∧ w' = skipLine w₄
  := by
  obtain ⟨w₂, hw₂, h⟩ := Except.of_bind_eq_ok h
  obtain ⟨nv', hnv, h⟩ := Except.of_bind_eq_ok h
  obtain ⟨nc', hnc, h⟩ := Except.of_bind_eq_ok h
  obtain ⟨rfl, heq⟩ := Prod.mk.inj (Except.ok.inj h)
  obtain ⟨rfl, rfl⟩ := Prod.mk.inj heq
  exact ⟨w₂, (readInteger w₂).2, _, of_skipString hw₂, Prod.ext hnv rfl, Prod.ext hnc rfl, rfl⟩

/-- Reading the header consumes bytes. -/
theorem length_readHeader_le {w w' : List UInt8} {nv nc : Int}
    (h : readHeader w = .ok (nv, nc, w')) :
  w'.length ≤ w.length
  := by
  obtain ⟨w₂, w₃, w₄, hw, hnv, hnc, rfl⟩ := of_readHeader h
  have hle := length_skipWhitespace_le w
  rw [hw, List.length_append] at hle
  have hle₃ := length_readInteger_le hnv
  have hle₄ := length_readInteger_le hnc
  have hle' := length_skipLine_le w₄
  omega

/-- The loop of `normalize`. -/
def normalizeLoop (s : Normalizer) (content : List UInt8) : Except ParserException Normalizer :=
  match _h : skipWhitespace content with
  | [] => .ok s
  | b :: rest =>
      if b = 'c'.toUInt8 then
        if s.nv > 0 ∧ s.nc > 0 then
          normalizeLoop s (skipLine (b :: rest))
        else
          normalizeLoop (s.addComment ((b :: rest).takeWhile inLine))
            (skipWhitespace ((b :: rest).dropWhile inLine))
      else if b = 'p'.toUInt8 then
        match _hheader : readHeader rest with
        | .error e => .error e
        | .ok (nv, nc, content') => normalizeLoop (s.addHeader nv nc) content'
      else
        match _hlits : readLits (b :: rest) with
        | .error e => .error e
        | .ok (lits, content') => normalizeLoop (s.addClause lits) content'
termination_by content.length
decreasing_by
  all_goals
    have hle := length_skipWhitespace_le content
    rw [_h] at hle
    have hspace := isspace_of_skipWhitespace _h
    apply Nat.lt_of_lt_of_le _ hle
  · exact length_skipLine_lt (inLine_of_not_isspace hspace) rest
  · exact length_skipLine_lt (inLine_of_not_isspace hspace) rest
  · exact Nat.lt_succ_of_le (length_readHeader_le _hheader)
  · exact (of_readLits_cons _hlits (skipWhitespace_cons hspace rest)).2

def normalize (content : List UInt8) : Except ParserException Normalizer :=
  normalizeLoop {} content

/-- The loop by the kinds of lines: comments, headers and clauses. -/
theorem normalizeLoop_eq (s : Normalizer) (w : List UInt8) :
  normalizeLoop s w = match skipWhitespace w with
    | [] => .ok s
    | b :: rest =>
        if b = 'c'.toUInt8 then
          if s.nv > 0 ∧ s.nc > 0 then normalizeLoop s (skipLine (b :: rest))
          else normalizeLoop (s.addComment ((b :: rest).takeWhile inLine)) (skipLine (b :: rest))
        else if b = 'p'.toUInt8 then
          (readHeader rest).bind (fun p => normalizeLoop (s.addHeader p.1 p.2.1) p.2.2)
        else
          (readLits (b :: rest)).bind (fun p => normalizeLoop (s.addClause p.1) p.2)
  := by
  rw [normalizeLoop]
  split
  · next heq => rw [heq]
  · next b rest heq =>
      rw [heq]
      simp only
      split
      · rfl
      · split
        · split
          · next hheader => rw [hheader]; rfl
          · next hheader => rw [hheader]; rfl
        · split
          · next hlits => rw [hlits]; rfl
          · next hlits => rw [hlits]; rfl

/-! ### Items -/

/-- What `normalize` writes. -/
inductive Item where
  | comment (text : List UInt8)
  | header (nv nc : Int)
  | clause (lits : List Int)

namespace Item

def write : Item → List UInt8
  | comment text => writeComment text
  | header nv nc => writeHeader nv nc
  | clause lits => writeClause lits

def add (s : Normalizer) : Item → Normalizer
  | comment text => s.addComment text
  | header nv nc => s.addHeader nv nc
  | clause lits => s.addClause lits

/-- The clauses among the items. -/
def clauses (items : List Item) : List (List Int) :=
  items.filterMap (fun item => match item with
    | clause lits => some lits
    | _ => none)

/-- Adding an item writes it behind what has been written. -/
theorem add_out (s : Normalizer) (item : Item) :
  (item.add s).out = s.out ++ item.write
  := by
  cases item <;> rfl

/-- Adding items writes them one behind the other. -/
theorem foldl_add_out (s : Normalizer) (items : List Item) :
  (items.foldl add s).out = s.out ++ items.flatMap write
  := by
  induction items generalizing s with
  | nil => simp
  | cons item items ih =>
      rw [List.foldl_cons, ih, add_out, List.flatMap_cons, List.append_assoc]

end Item

/-- The items that `normalize` reads and writes, where the numbers are those of the last
header. -/
inductive Items : Int → Int → List UInt8 → List Item → Prop where
  | nil {nv nc : Int} {w : List UInt8} : skipWhitespace w = [] → Items nv nc w []
  | skip {nv nc : Int} {w rest : List UInt8} {items : List Item} :
      skipWhitespace w = 'c'.toUInt8 :: rest → nv > 0 ∧ nc > 0 →
      Items nv nc (skipLine ('c'.toUInt8 :: rest)) items → Items nv nc w items
  | comment {nv nc : Int} {w rest : List UInt8} {items : List Item} :
      skipWhitespace w = 'c'.toUInt8 :: rest → ¬ (nv > 0 ∧ nc > 0) →
      Items nv nc (skipLine ('c'.toUInt8 :: rest)) items →
      Items nv nc w (.comment (('c'.toUInt8 :: rest).takeWhile inLine) :: items)
  | header {nv nc nv' nc' : Int} {w w' rest : List UInt8} {items : List Item} :
      skipWhitespace w = 'p'.toUInt8 :: rest → readHeader rest = .ok (nv', nc', w') →
      Items nv' nc' w' items → Items nv nc w (.header nv' nc' :: items)
  | clause {nv nc : Int} {w w' rest : List UInt8} {b : UInt8} {lits : List Int}
      {items : List Item} :
      skipWhitespace w = b :: rest → readLits w = .ok (lits, w') → Items nv nc w' items →
      Items nv nc w (.clause lits :: items)

/-- `normalize` writes the items of the file. -/
theorem of_normalizeLoop {s r : Normalizer} {w : List UInt8} (h : normalizeLoop s w = .ok r) :
  ∃ items, Items s.nv s.nc w items ∧ r = items.foldl Item.add s
  := by
  induction hlen : w.length using Nat.strongRecOn generalizing s w with
  | ind m ih =>
      subst hlen
      have hle := length_skipWhitespace_le w
      rw [normalizeLoop_eq] at h
      cases hw : skipWhitespace w with
      | nil =>
          rw [hw] at h
          exact ⟨[], .nil hw, (Except.ok.inj h).symm⟩
      | cons b rest =>
          rw [hw] at h hle
          have hspace := isspace_of_skipWhitespace hw
          have hline := length_skipLine_lt (inLine_of_not_isspace hspace) rest
          simp only at h
          by_cases hc : b = 'c'.toUInt8
          · rw [if_pos hc] at h
            subst hc
            split at h
            · next hpos =>
                obtain ⟨items, hitems, hr⟩ := ih _ (hline.trans_le hle) h rfl
                exact ⟨items, .skip hw hpos hitems, hr⟩
            · next hpos =>
                obtain ⟨items, hitems, hr⟩ := ih _ (hline.trans_le hle) h rfl
                exact ⟨_, .comment hw hpos hitems, hr⟩
          · rw [if_neg hc] at h
            by_cases hp : b = 'p'.toUInt8
            · rw [if_pos hp] at h
              subst hp
              obtain ⟨⟨nv, nc, w'⟩, hheader, h⟩ := Except.of_bind_eq_ok h
              have hlt := Nat.lt_succ_of_le (length_readHeader_le hheader)
              obtain ⟨items, hitems, hr⟩ := ih _ (hlt.trans_le hle) h rfl
              exact ⟨_, .header hw hheader hitems, hr⟩
            · rw [if_neg hp] at h
              obtain ⟨⟨lits, w'⟩, hlits, h⟩ := Except.of_bind_eq_ok h
              rw [← hw, readLits_skipWhitespace] at hlits
              obtain ⟨items, hitems, hr⟩ := ih _ (of_readLits_cons hlits hw).2 h rfl
              exact ⟨_, .clause hw hlits hitems, hr⟩

/-- The items of a file are what `normalize` writes. -/
theorem Items.normalizeLoop {nv nc : Int} {w : List UInt8} {items : List Item}
    (h : Items nv nc w items) {s : Normalizer} (hs : s.nv = nv ∧ s.nc = nc) :
  normalizeLoop s w = .ok (items.foldl Item.add s)
  := by
  induction h generalizing s with
  | nil hw => rw [normalizeLoop_eq, hw]; rfl
  | skip hw hpos hitems ih =>
      rw [normalizeLoop_eq, hw]
      simp only [if_true]
      rw [hs.1, hs.2, if_pos hpos]
      exact ih hs
  | comment hw hpos hitems ih =>
      rw [normalizeLoop_eq, hw]
      simp only [if_true]
      rw [hs.1, hs.2, if_neg hpos]
      exact ih hs
  | header hw hheader hitems ih =>
      rw [normalizeLoop_eq, hw]
      simp only [if_true]
      rw [if_neg (by decide), hheader]
      exact ih ⟨rfl, rfl⟩
  | clause hw hlits hitems ih =>
      have hnumeral := not_line_of_numeral (of_readLits_cons hlits hw).1
      rw [not_or] at hnumeral
      rw [normalizeLoop_eq, hw]
      simp only
      rw [if_neg hnumeral.2, if_neg hnumeral.1, ← hw, readLits_skipWhitespace, hlits]
      exact ih hs

/-! ### What is written is read back -/

/-- White space in front plays no part in the items of a file. -/
theorem Items.skipWhitespace {nv nc : Int} {w : List UInt8} {items : List Item} :
  Items nv nc (skipWhitespace w) items ↔ Items nv nc w items
  := by
  constructor
  · intro h
    cases h with
    | nil hw => exact .nil (skipWhitespace_idem w ▸ hw)
    | skip hw hpos hitems => exact .skip (skipWhitespace_idem w ▸ hw) hpos hitems
    | comment hw hpos hitems => exact .comment (skipWhitespace_idem w ▸ hw) hpos hitems
    | header hw hheader hitems => exact .header (skipWhitespace_idem w ▸ hw) hheader hitems
    | clause hw hlits hitems =>
        exact .clause (skipWhitespace_idem w ▸ hw) (readLits_skipWhitespace w ▸ hlits) hitems
  · intro h
    cases h with
    | nil hw => exact .nil (skipWhitespace_idem w |>.trans hw)
    | skip hw hpos hitems => exact .skip (skipWhitespace_idem w |>.trans hw) hpos hitems
    | comment hw hpos hitems => exact .comment (skipWhitespace_idem w |>.trans hw) hpos hitems
    | header hw hheader hitems =>
        exact .header (skipWhitespace_idem w |>.trans hw) hheader hitems
    | clause hw hlits hitems =>
        exact .clause (skipWhitespace_idem w |>.trans hw)
          (readLits_skipWhitespace w |>.trans hlits) hitems

/-- A line without an end in it is skipped up to the next line. -/
theorem skipLine_newline {x : List UInt8} (hx : ∀ b ∈ x, inLine b = true) (tail : List UInt8) :
  skipLine (x ++ '\n'.toUInt8 :: tail) = Whole.skipWhitespace tail
  := by
  rw [skipLine_append hx]
  rfl

/-- A line is read up to its end. -/
theorem takeWhile_newline {x : List UInt8} (hx : ∀ b ∈ x, inLine b = true) (tail : List UInt8) :
  (x ++ '\n'.toUInt8 :: tail).takeWhile inLine = x
  := by
  rw [List.takeWhile_append_of_pos hx]
  exact List.append_nil x

/-- An empty line in front is not seen by the reader. -/
theorem readDimacsFromFile_newline (w : List UInt8) :
  readDimacsFromFile ('\n'.toUInt8 :: w) = readDimacsFromFile w
  := by
  rw [← readDimacsFromFile_skipWhitespace, ← readDimacsFromFile_skipWhitespace w]
  rfl

/-- A space in front is not seen when a number is read. -/
theorem readInteger_space (w : List UInt8) :
  readInteger (' '.toUInt8 :: w) = readInteger w
  := by
  rw [← readInteger_skipWhitespace, ← readInteger_skipWhitespace w]
  rfl

/-- The header line without its end. -/
def headerLine (nv nc : Int) : List UInt8 :=
  bytesOf ['c', 'n', 'f', ' '] ++ signed nv ++ [' '.toUInt8] ++ signed nc

theorem writeHeader_append (nv nc : Int) (tail : List UInt8) :
  writeHeader nv nc ++ tail
    = 'p'.toUInt8 :: ' '.toUInt8 :: (headerLine nv nc ++ '\n'.toUInt8 :: tail)
  := by
  simp [writeHeader, headerLine, bytesOf]

/-- The header is written on one line. -/
theorem inLine_of_mem_headerLine {nv nc : Int} :
  ∀ b ∈ 'p'.toUInt8 :: ' '.toUInt8 :: headerLine nv nc, inLine b = true
  := by
  have hsigned : ∀ n : Int, ∀ b ∈ signed n, inLine b = true :=
    fun n b hb => inLine_of_not_isspace (isspace_of_numeral (numeral_of_mem_signed hb))
  have hcnf : ∀ b ∈ bytesOf ['c', 'n', 'f', ' '], inLine b = true := by
    simp only [bytesOf, List.map_cons, List.map_nil, List.forall_mem_cons]
    exact ⟨rfl, rfl, rfl, rfl, List.forall_mem_nil _⟩
  simp only [headerLine, List.mem_cons, List.mem_append, List.not_mem_nil, or_false]
  rintro b (rfl | rfl | ((hb | hb) | rfl) | hb)
  · rfl
  · rfl
  · exact hcnf b hb
  · exact hsigned nv b hb
  · rfl
  · exact hsigned nc b hb

/-- A written header is read back. -/
theorem readHeader_headerLine {nv nc : Int} (hnv : InRange nv) (hnc : InRange nc)
    (tail : List UInt8) :
  readHeader (' '.toUInt8 :: (headerLine nv nc ++ '\n'.toUInt8 :: tail))
    = .ok (nv, nc, Whole.skipWhitespace tail)
  := by
  have hsplit : Whole.skipWhitespace (' '.toUInt8 :: (headerLine nv nc ++ '\n'.toUInt8 :: tail))
      = bytesOf ['c', 'n', 'f'] ++ ' '.toUInt8 :: (signed nv
        ++ ' '.toUInt8 :: (signed nc ++ '\n'.toUInt8 :: tail)) := by
    have hheader : headerLine nv nc ++ '\n'.toUInt8 :: tail
        = bytesOf ['c', 'n', 'f'] ++ ' '.toUInt8 :: (signed nv
          ++ ' '.toUInt8 :: (signed nc ++ '\n'.toUInt8 :: tail)) := by
      simp [headerLine, bytesOf]
    rw [hheader]
    rfl
  have hblank : isdigit ' '.toUInt8 = false := rfl
  have hnewline : isdigit '\n'.toUInt8 = false := rfl
  have hreadNv : readInteger (' '.toUInt8 :: (signed nv
      ++ ' '.toUInt8 :: (signed nc ++ '\n'.toUInt8 :: tail)))
      = (.ok nv, ' '.toUInt8 :: (signed nc ++ '\n'.toUInt8 :: tail)) := by
    rw [readInteger_space, readInteger_signed hnv (by simpa using hblank)]
  have hreadNc : readInteger (' '.toUInt8 :: (signed nc ++ '\n'.toUInt8 :: tail))
      = (.ok nc, '\n'.toUInt8 :: tail) := by
    rw [readInteger_space, readInteger_signed hnc (by simpa using hnewline)]
  rw [readHeader, hsplit, skipString_append]
  change ((readInteger _).1.bind _ : Except ParserException _) = _
  rw [hreadNv]
  change ((readInteger _).1.bind _ : Except ParserException _) = _
  rw [hreadNc]
  rfl

/-- The items are read back from what is written for them, and their clauses are the clauses
of the written file. -/
theorem Items.write {nv nc : Int} {w : List UInt8} {items : List Item}
    (h : Items nv nc w items) :
  Items nv nc (items.flatMap Item.write) items
    ∧ readDimacsFromFile (items.flatMap Item.write) = .ok (Item.clauses items)
  := by
  induction h with
  | nil hw => exact ⟨.nil rfl, readDimacsFromFile_nil rfl⟩
  | skip hw hpos hitems ih => exact ih
  | @comment nv nc w rest items hw hpos hitems ih =>
      have hc : inLine 'c'.toUInt8 = true := rfl
      have htext : ('c'.toUInt8 :: rest).takeWhile inLine
          = 'c'.toUInt8 :: rest.takeWhile inLine := by
        rw [List.takeWhile_cons, if_pos hc]
      have hline : ∀ b ∈ 'c'.toUInt8 :: rest.takeWhile inLine, inLine b = true := by
        intro b hb
        rw [← htext] at hb
        exact List.mem_takeWhile_imp hb
      have hbytes : (Item.comment (('c'.toUInt8 :: rest).takeWhile inLine) :: items).flatMap
          Item.write = 'c'.toUInt8 :: (rest.takeWhile inLine
            ++ '\n'.toUInt8 :: items.flatMap Item.write) := by
        rw [List.flatMap_cons, Item.write, writeComment, htext, List.append_assoc]
        rfl
      have hskip : Whole.skipWhitespace ('c'.toUInt8 :: (rest.takeWhile inLine
          ++ '\n'.toUInt8 :: items.flatMap Item.write))
          = 'c'.toUInt8 :: (rest.takeWhile inLine
            ++ '\n'.toUInt8 :: items.flatMap Item.write) := rfl
      have hskipLine : skipLine ('c'.toUInt8 :: (rest.takeWhile inLine
          ++ '\n'.toUInt8 :: items.flatMap Item.write))
          = Whole.skipWhitespace (items.flatMap Item.write) := skipLine_newline hline _
      have htake : ('c'.toUInt8 :: (rest.takeWhile inLine
          ++ '\n'.toUInt8 :: items.flatMap Item.write)).takeWhile inLine
          = 'c'.toUInt8 :: rest.takeWhile inLine := takeWhile_newline hline _
      rw [hbytes]
      constructor
      · rw [htext, ← htake]
        apply Items.comment hskip hpos
        rw [hskipLine]
        exact Items.skipWhitespace.mpr ih.1
      · rw [readDimacsFromFile_line hskip (Or.inr rfl), hskipLine,
          readDimacsFromFile_skipWhitespace, ih.2]
        rfl
  | @header nv nc nv' nc' w w' rest items hw hheader hitems ih =>
      obtain ⟨w₂, w₃, w₄, -, hnv, hnc, -⟩ := of_readHeader hheader
      have hbytes : (Item.header nv' nc' :: items).flatMap Item.write
          = 'p'.toUInt8 :: ' '.toUInt8 :: (headerLine nv' nc'
            ++ '\n'.toUInt8 :: items.flatMap Item.write) := by
        rw [List.flatMap_cons, Item.write, writeHeader_append]
      have hskip : Whole.skipWhitespace ('p'.toUInt8 :: ' '.toUInt8 :: (headerLine nv' nc'
            ++ '\n'.toUInt8 :: items.flatMap Item.write))
          = 'p'.toUInt8 :: ' '.toUInt8 :: (headerLine nv' nc'
            ++ '\n'.toUInt8 :: items.flatMap Item.write) := rfl
      have hskipLine : skipLine ('p'.toUInt8 :: ' '.toUInt8 :: (headerLine nv' nc'
            ++ '\n'.toUInt8 :: items.flatMap Item.write))
          = Whole.skipWhitespace (items.flatMap Item.write) :=
        skipLine_newline inLine_of_mem_headerLine _
      rw [hbytes]
      constructor
      · apply Items.header hskip (readHeader_headerLine (inRange_of_readInteger hnv)
          (inRange_of_readInteger hnc) _)
        exact Items.skipWhitespace.mpr ih.1
      · rw [readDimacsFromFile_line hskip (Or.inl rfl), hskipLine,
          readDimacsFromFile_skipWhitespace, ih.2]
        rfl
  | @clause nv nc w w' rest b lits items hw hlits hitems ih =>
      have hnewline : isdigit '\n'.toUInt8 = false := rfl
      have hzero : signed 0 = ['0'.toUInt8] := by decide
      have hbytes : (Item.clause lits :: items).flatMap Item.write
          = writeLits lits ++ (signed 0 ++ '\n'.toUInt8 :: items.flatMap Item.write) := by
        rw [List.flatMap_cons, Item.write, writeClause, hzero]
        simp
      have hislit := isLit_of_readLits hlits
      have hhead : ∀ d ∈ ('\n'.toUInt8 :: items.flatMap Item.write).head?, isdigit d = false := by
        simpa using hnewline
      rw [hbytes]
      constructor
      · obtain ⟨d, tail, hd⟩ := exists_cons_writeLits lits
          ('\n'.toUInt8 :: items.flatMap Item.write)
        apply Items.clause hd (readLits_writeLits hislit hhead)
        apply Items.skipWhitespace.mp
        change Items nv nc (Whole.skipWhitespace (items.flatMap Item.write)) items
        exact Items.skipWhitespace.mpr ih.1
      · rw [readDimacsFromFile_writeLits hislit hhead, readDimacsFromFile_newline, ih.2]
        rfl

/-! ### Headers on one line -/

/-- The header behind its `p` is not continued on a later line: its numbers are on the line of
`cnf`, or the file ends before them. -/
def HeaderOnLine (rest : List UInt8) : Prop :=
  OnLine ((skipWhitespace rest).drop 3)
    ∧ OnLine (readInteger ((skipWhitespace rest).drop 3)).2

instance (rest : List UInt8) : Decidable (HeaderOnLine rest) :=
  inferInstanceAs (Decidable (_ ∧ _))

/-- What follows the `p` of each header of a file. -/
def headers (content : List UInt8) : List (List UInt8) :=
  match _h : skipWhitespace content with
  | [] => []
  | b :: rest =>
      if b = 'c'.toUInt8 then
        headers (skipLine (b :: rest))
      else if b = 'p'.toUInt8 then
        match _hheader : readHeader rest with
        | .error _ => []
        | .ok (_, _, content') => rest :: headers content'
      else
        match _hlits : readLits (b :: rest) with
        | .error _ => []
        | .ok (_, content') => headers content'
termination_by content.length
decreasing_by
  all_goals
    have hle := length_skipWhitespace_le content
    rw [_h] at hle
    have hspace := isspace_of_skipWhitespace _h
    apply Nat.lt_of_lt_of_le _ hle
  · exact length_skipLine_lt (inLine_of_not_isspace hspace) rest
  · exact Nat.lt_succ_of_le (length_readHeader_le _hheader)
  · exact (of_readLits_cons _hlits (skipWhitespace_cons hspace rest)).2

/-- No header of the file is continued on a later line. -/
def HeadersOnLine (w : List UInt8) : Prop :=
  ∀ rest ∈ headers w, HeaderOnLine rest

instance (w : List UInt8) : Decidable (HeadersOnLine w) :=
  inferInstanceAs (Decidable (∀ rest ∈ headers w, HeaderOnLine rest))

/-- A file of white space has no headers. -/
theorem headersOnLine_nil {w : List UInt8} (hw : skipWhitespace w = []) :
  HeadersOnLine w
  := by
  have hheaders : headers w = [] := by
    rw [headers]
    split
    · rfl
    · next heq => rw [hw] at heq; cases heq
  rw [HeadersOnLine, hheaders]
  exact fun rest hrest => absurd hrest List.not_mem_nil

/-- Comments play no part in where the headers stand. -/
theorem headersOnLine_comment {w rest : List UInt8}
    (hw : skipWhitespace w = 'c'.toUInt8 :: rest) :
  HeadersOnLine w ↔ HeadersOnLine (skipLine ('c'.toUInt8 :: rest))
  := by
  have hheaders : headers w = headers (skipLine ('c'.toUInt8 :: rest)) := by
    rw [headers]
    split
    · next heq => rw [hw] at heq; cases heq
    · next heq =>
        rw [hw] at heq
        obtain ⟨rfl, rfl⟩ := List.cons.inj heq
        exact if_pos rfl
  rw [HeadersOnLine, hheaders]
  rfl

/-- A header has to stand on its line, and those behind it too. -/
theorem headersOnLine_header {w w' rest : List UInt8} {nv nc : Int}
    (hw : skipWhitespace w = 'p'.toUInt8 :: rest) (hheader : readHeader rest = .ok (nv, nc, w')) :
  HeadersOnLine w ↔ HeaderOnLine rest ∧ HeadersOnLine w'
  := by
  have hheaders : headers w = rest :: headers w' := by
    rw [headers]
    split
    · next heq => rw [hw] at heq; cases heq
    · next heq =>
        rw [hw] at heq
        obtain ⟨rfl, rfl⟩ := List.cons.inj heq
        rw [if_neg (by decide), if_pos rfl]
        split
        · next herror => rw [hheader] at herror; cases herror
        · next heq' =>
            rw [hheader] at heq'
            obtain ⟨rfl, hrest⟩ := Prod.mk.inj (Except.ok.inj heq')
            obtain ⟨rfl, rfl⟩ := Prod.mk.inj hrest
            rfl
  rw [HeadersOnLine, hheaders, List.forall_mem_cons]
  rfl

/-- Clauses play no part in where the headers stand. -/
theorem headersOnLine_clause {w w' rest : List UInt8} {b : UInt8} {lits : List Int}
    (hw : skipWhitespace w = b :: rest) (hlits : readLits w = .ok (lits, w')) :
  HeadersOnLine w ↔ HeadersOnLine w'
  := by
  have hnumeral := not_line_of_numeral (of_readLits_cons hlits hw).1
  rw [not_or] at hnumeral
  have hheaders : headers w = headers w' := by
    rw [← readLits_skipWhitespace, hw] at hlits
    rw [headers]
    split
    · next heq => rw [hw] at heq; cases heq
    · next heq =>
        rw [hw] at heq
        obtain ⟨rfl, rfl⟩ := List.cons.inj heq
        rw [if_neg hnumeral.2, if_neg hnumeral.1]
        split
        · next herror => rw [hlits] at herror; cases herror
        · next heq' =>
            rw [hlits] at heq'
            obtain ⟨rfl, rfl⟩ := Prod.mk.inj (Except.ok.inj heq')
            rfl
  rw [HeadersOnLine, hheaders]
  rfl

/-- Skipping the line of a header leads behind the line of its `cnf`. -/
theorem readDimacsFromFile_header {rest w₂ : List UInt8}
    (h : skipWhitespace rest = bytesOf ['c', 'n', 'f'] ++ w₂) :
  readDimacsFromFile (skipLine ('p'.toUInt8 :: rest)) = readDimacsFromFile (skipLine w₂)
  := by
  have hcnf : ∀ b ∈ bytesOf ['c', 'n', 'f'], inLine b = true := by
    simp only [bytesOf, List.map_cons, List.map_nil, List.forall_mem_cons]
    exact ⟨rfl, rfl, rfl, List.forall_mem_nil _⟩
  have hskip : skipLine (skipWhitespace rest) = skipLine w₂ := by
    rw [h, skipLine_append hcnf]
  rw [skipLine_cons rfl]
  by_cases hline : OnLine rest
  · rw [← skipLine_skipWhitespace hline, hskip]
  · -- the line of the `p` ends here, and `cnf` starts a line that is skipped as a comment
    rw [skipLine_of_not_onLine hline]
    have hcons : skipWhitespace (skipWhitespace rest)
        = 'c'.toUInt8 :: ('n'.toUInt8 :: 'f'.toUInt8 :: w₂) := by
      rw [skipWhitespace_idem, h]
      rfl
    rw [readDimacsFromFile_line hcons (Or.inr rfl), ← hskip, h]
    rfl

/-- The clauses among the items of a file are the clauses that are read from it, as long as no
header is continued on a later line, and otherwise there are more numbers in the latter. -/
theorem Items.readDimacsFromFile {nv nc : Int} {w : List UInt8} {items : List Item}
    (h : Items nv nc w items) :
  (HeadersOnLine w → Whole.readDimacsFromFile w = .ok (Item.clauses items))
    ∧ ∀ clauses, Whole.readDimacsFromFile w = .ok clauses →
      numbers (Item.clauses items) ≤ numbers clauses
      ∧ (¬ HeadersOnLine w → numbers (Item.clauses items) < numbers clauses)
  := by
  induction h with
  | nil hw =>
      refine ⟨fun _ => readDimacsFromFile_nil hw, fun clauses _ => ⟨Nat.zero_le _, ?_⟩⟩
      exact fun hnot => absurd (headersOnLine_nil hw) hnot
  | skip hw hpos hitems ih =>
      rw [readDimacsFromFile_line hw (Or.inr rfl), headersOnLine_comment hw]
      exact ih
  | comment hw hpos hitems ih =>
      rw [readDimacsFromFile_line hw (Or.inr rfl), headersOnLine_comment hw]
      exact ih
  | header hw hheader hitems ih =>
      obtain ⟨w₂, w₃, w₄, hcnf, hnv, hnc, rfl⟩ := of_readHeader hheader
      have hdrop : (Whole.skipWhitespace _).drop 3 = w₂ := (congrArg (List.drop 3) hcnf).trans rfl
      rw [headersOnLine_header hw hheader, HeaderOnLine, hdrop, hnv,
        readDimacsFromFile_line hw (Or.inl rfl), readDimacsFromFile_header hcnf]
      constructor
      · rintro ⟨⟨hline₂, hline₃⟩, hlines⟩
        rw [← readInteger_skipLine hnv hline₂, ← readInteger_skipLine hnc hline₃]
        exact ih.1 hlines
      · intro clauses hclauses
        obtain ⟨clauses₃, hclauses₃, hle₃, hlt₃⟩ :=
          readDimacsFromFile_skipLine_readInteger hnv hclauses
        obtain ⟨clauses₄, hclauses₄, hle₄, hlt₄⟩ :=
          readDimacsFromFile_skipLine_readInteger hnc hclauses₃
        obtain ⟨hle, hlt⟩ := ih.2 clauses₄ hclauses₄
        refine ⟨hle.trans (hle₄.trans hle₃), ?_⟩
        intro hnot
        by_cases hline₂ : OnLine w₂
        · by_cases hline₃ : OnLine w₃
          · exact (hlt (fun hlines => hnot ⟨⟨hline₂, hline₃⟩, hlines⟩)).trans_le (hle₄.trans hle₃)
          · exact hle.trans_lt ((hlt₄ hline₃).trans_le hle₃)
        · exact (hle.trans hle₄).trans_lt (hlt₃ hline₂)
  | @clause nv nc w w' rest b lits items hw hlits hitems ih =>
      rw [readDimacsFromFile_clause hw hlits, headersOnLine_clause hw hlits]
      constructor
      · intro hlines
        rw [ih.1 hlines]
        rfl
      · intro clauses hclauses
        obtain ⟨clauses', hclauses', rfl⟩ := Except.of_map_eq_ok hclauses
        obtain ⟨hle, hlt⟩ := ih.2 clauses' hclauses'
        have hcons : Item.clauses (Item.clause lits :: items) = lits :: Item.clauses items := rfl
        rw [hcons, numbers_cons, numbers_cons]
        exact ⟨by omega, fun hnot => by have := hlt hnot; omega⟩

/-! ### Agreement with the hash -/

/-- Normalisation and hash agree on the file `w`, for which `normalize` ends with `r`. -/
structure Agrees (w : List UInt8) (r : Normalizer) : Prop where
  /-- the written file has the same stream -/
  hash : gbdHashFromDimacs r.out = gbdHashFromDimacs w
  /-- the stream determines the clauses, and the clauses the stream -/
  decodable : ∀ (v : List UInt8) (clauses clauses' : List (List Int)),
    readDimacsFromFile w = .ok clauses → readDimacsFromFile v = .ok clauses' →
    (gbdHashFromDimacs w = gbdHashFromDimacs v ↔ clauses = clauses')
  /-- normalising again changes nothing -/
  idempotent : (normalize r.out).map Normalizer.out = .ok r.out

/-- For every file that `normalize` processes, normalisation and hash agree if and only if no
header is continued on a later line. -/
theorem normalize_iff {w : List UInt8} {r : Normalizer} (h : normalize w = .ok r) :
  Agrees w r ↔ HeadersOnLine w
  := by
  obtain ⟨items, hitems, hr⟩ := of_normalizeLoop h
  have hout : r.out = items.flatMap Item.write := by
    rw [hr, Item.foldl_add_out]
    rfl
  obtain ⟨hwritten, hclauses⟩ := hitems.write
  constructor
  · intro hagrees
    by_contra hnot
    have hhash : gbdHashFromDimacs (items.flatMap Item.write) = gbdHashFromDimacs w :=
      hout ▸ hagrees.hash
    obtain ⟨clauses, hread⟩ : ∃ clauses, readDimacsFromFile w = .ok clauses := by
      rw [gbdHashFromDimacs_eq, hclauses, gbdHashFromDimacs_eq] at hhash
      obtain ⟨clauses, hread, -⟩ := Except.of_map_eq_ok hhash.symm
      exact ⟨clauses, hread⟩
    have hlt := (hitems.readDimacsFromFile.2 clauses hread).2 hnot
    rw [(gbdHashFromDimacs_eq_iff hread hclauses).mp hhash.symm] at hlt
    exact Nat.lt_irrefl _ hlt
  · intro hlines
    constructor
    · rw [hout, gbdHashFromDimacs_eq, gbdHashFromDimacs_eq, hclauses,
        hitems.readDimacsFromFile.1 hlines]
    · intro v clauses clauses' hw hv
      exact gbdHashFromDimacs_eq_iff hw hv
    · rw [hout, normalize, hwritten.normalizeLoop ⟨rfl, rfl⟩]
      change Except.ok (items.foldl Item.add {}).out = _
      rw [Item.foldl_add_out]
      rfl

/-- A header and a clause. -/
def oneClause : List UInt8 :=
  bytesOf ['p', ' ', 'c', 'n', 'f', ' ', '1', ' ', '1', '\n', '1', ' ', '0', '\n']

/-- Normalisation and hash agree on a header on one line. -/
theorem normalize_iff_oneClause :
  Agrees oneClause ⟨1, 1, 1, 1, oneClause⟩ ↔ HeadersOnLine oneClause
  := normalize_iff (by decide +kernel)

/-- A header whose numbers are on the next line. -/
def brokenHeader : List UInt8 :=
  bytesOf ['p', ' ', 'c', 'n', 'f', '\n', '1', ' ', '1', '\n', '1', ' ', '0', '\n']

/-- The numbers of the broken header are hashed as literals. -/
theorem not_agrees_brokenHeader :
  ¬ ∀ (w : List UInt8) (r : Normalizer), normalize w = .ok r → Agrees w r
  := by
  intro h
  have hagrees := h brokenHeader ⟨1, 1, 1, 1, oneClause⟩ (by decide +kernel)
  have hhash := hagrees.hash
  revert hhash
  decide +kernel

end Whole

end CnfTools
