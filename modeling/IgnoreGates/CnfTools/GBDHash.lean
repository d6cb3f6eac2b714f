import IgnoreGates.CnfTools.ReadDimacs

/-!
# The hash of a formula

`gbd_hash_from_dimacs` writes every clause as text and gives the texts to `md5.process`, the
second and every later one with a space in front.  The digest depends on the concatenation of
the texts only, which is what `gbd_hash_from_dimacs` returns here.

The stream is again a text from which the clauses can be read, so it determines them.
-/

namespace CnfTools

open Ctype

namespace Whole

/-- The loop of `gbd_hash_from_dimacs`: the bytes that are given to `md5.process`, where
`clause` is the text that the next clause is appended to. -/
def hashLoop (clause content : List UInt8) : Except ParserException (List UInt8) :=
  match _h : skipWhitespace content with
  | [] => .ok []
  | b :: rest =>
      if b = 'p'.toUInt8 ∨ b = 'c'.toUInt8 then
        hashLoop clause (skipLine (b :: rest))
      else
        match _hlits : readLits (b :: rest) with
        | .error e => .error e
        | .ok (lits, content') => do
            let clause := clause ++ writeLits lits ++ ['0'.toUInt8]
            let later ← hashLoop [' '.toUInt8] content'
            return clause ++ later
termination_by content.length
decreasing_by
  · have hle := length_skipWhitespace_le content
    rw [_h] at hle
    exact (length_skipLine_lt (inLine_of_not_isspace (isspace_of_skipWhitespace _h)) rest).trans_le
      hle
  · have hle := length_skipWhitespace_le content
    rw [_h] at hle
    have hidem := skipWhitespace_cons (isspace_of_skipWhitespace _h) rest
    exact (of_readLits_cons _hlits hidem).2.trans_le hle

def gbdHashFromDimacs (content : List UInt8) : Except ParserException (List UInt8) :=
  hashLoop [] content

/-- The stream for a sequence of clauses, the first of them behind the text `clause`. -/
def stream (clause : List UInt8) : List (List Int) → List UInt8
  | [] => []
  | lits :: clauses =>
      clause ++ writeLits lits ++ ['0'.toUInt8] ++ stream [' '.toUInt8] clauses

theorem hashLoop_eq (clause w : List UInt8) :
  hashLoop clause w = match skipWhitespace w with
    | [] => .ok []
    | b :: rest =>
        if b = 'p'.toUInt8 ∨ b = 'c'.toUInt8 then hashLoop clause (skipLine (b :: rest))
        else (readLits (b :: rest)).bind (fun p => (hashLoop [' '.toUInt8] p.2).map
          (fun later => clause ++ writeLits p.1 ++ ['0'.toUInt8] ++ later))
  := by
  rw [hashLoop]
  split
  · next heq => rw [heq]
  · next b rest heq =>
      rw [heq]
      simp only
      split
      · rfl
      · split
        · next hlits => rw [hlits]; rfl
        · next lits content hlits =>
            rw [hlits]
            change _ = (hashLoop [' '.toUInt8] content).map _
            cases hashLoop [' '.toUInt8] content <;> rfl

/-- The stream depends only on the clauses that are read. -/
theorem hashLoop_eq_stream (clause w : List UInt8) :
  hashLoop clause w = (readDimacsFromFile w).map (stream clause)
  := by
  induction hlen : w.length using Nat.strongRecOn generalizing clause w with
  | ind m ih =>
      subst hlen
      have hle := length_skipWhitespace_le w
      rw [hashLoop_eq, readDimacsFromFile_eq]
      cases hw : skipWhitespace w with
      | nil => rfl
      | cons b rest =>
          rw [hw] at hle
          have hspace := isspace_of_skipWhitespace hw
          simp only
          split
          · exact ih _ ((length_skipLine_lt (inLine_of_not_isspace hspace) rest).trans_le hle) _ _
              rfl
          · cases hlits : readLits (b :: rest) with
            | error e => rfl
            | ok p =>
                have hlt := (of_readLits_cons hlits (skipWhitespace_cons hspace rest)).2
                change (hashLoop [' '.toUInt8] p.2).map _
                  = ((readDimacsFromFile p.2).map (fun clauses => p.1 :: clauses)).map
                    (stream clause)
                rw [ih _ (hlt.trans_le hle) _ _ rfl]
                cases readDimacsFromFile p.2 <;> rfl

theorem gbdHashFromDimacs_eq (w : List UInt8) :
  gbdHashFromDimacs w = (readDimacsFromFile w).map (stream [])
  := hashLoop_eq_stream [] w

theorem readDimacsFromFile_space (w : List UInt8) :
  readDimacsFromFile (' '.toUInt8 :: w) = readDimacsFromFile w
  := by
  rw [← readDimacsFromFile_skipWhitespace, ← readDimacsFromFile_skipWhitespace w]
  rfl

theorem exists_cons_writeLits (lits : List Int) (rest : List UInt8) :
  ∃ b tail, skipWhitespace (writeLits lits ++ (signed 0 ++ rest)) = b :: tail
  := by
  apply List.exists_cons_of_ne_nil
  cases lits with
  | nil =>
      rw [writeLits, List.flatMap_nil, List.nil_append, skipWhitespace_signed]
      simp [signed_ne_nil]
  | cons n lits =>
      rw [writeLits, List.flatMap_cons, List.append_assoc, List.append_assoc,
        skipWhitespace_signed]
      simp [signed_ne_nil]

/-- A clause that is written in front of a text without a leading digit is read first. -/
theorem readDimacsFromFile_writeLits {lits : List Int} (h : ∀ n ∈ lits, IsLit n)
    {rest : List UInt8} (hrest : ∀ b ∈ rest.head?, isdigit b = false) :
  readDimacsFromFile (writeLits lits ++ (signed 0 ++ rest))
    = (readDimacsFromFile rest).map (fun clauses => lits :: clauses)
  := by
  obtain ⟨b, tail, hw⟩ := exists_cons_writeLits lits rest
  exact readDimacsFromFile_clause hw (readLits_writeLits h hrest)

/-- The clauses are read back from the stream. -/
theorem readDimacsFromFile_stream {clauses : List (List Int)}
    (h : ∀ lits ∈ clauses, ∀ n ∈ lits, IsLit n) {clause : List UInt8}
    (hclause : clause = [] ∨ clause = [' '.toUInt8]) :
  readDimacsFromFile (stream clause clauses) = .ok clauses
  := by
  induction clauses generalizing clause with
  | nil => exact readDimacsFromFile_nil rfl
  | cons lits clauses ih =>
      have htail := ih (fun lits' hlits' => h lits' (List.mem_cons_of_mem lits hlits'))
        (Or.inr rfl)
      have hrest : ∀ b ∈ (stream [' '.toUInt8] clauses).head?, isdigit b = false := by
        intro b hb
        cases clauses with
        | nil => cases hb
        | cons lits' clauses =>
            have heq : b = ' '.toUInt8 := by simpa [stream, eq_comm] using hb
            rw [heq]
            rfl
      have hskip : readDimacsFromFile (stream clause (lits :: clauses))
          = readDimacsFromFile (writeLits lits ++ (signed 0 ++ stream [' '.toUInt8] clauses)) := by
        have hzero : signed 0 = ['0'.toUInt8] := by decide
        rw [stream, hzero, List.append_assoc, List.append_assoc]
        obtain rfl | rfl := hclause
        · rfl
        · exact readDimacsFromFile_space _
      rw [hskip, readDimacsFromFile_writeLits (h lits List.mem_cons_self) hrest, htail]
      rfl

/-- Files from which clauses can be read have the same stream exactly when the clauses are
the same. -/
theorem gbdHashFromDimacs_eq_iff {w v : List UInt8} {clauses clauses' : List (List Int)}
    (hw : readDimacsFromFile w = .ok clauses) (hv : readDimacsFromFile v = .ok clauses') :
  gbdHashFromDimacs w = gbdHashFromDimacs v ↔ clauses = clauses'
  := by
  rw [gbdHashFromDimacs_eq, gbdHashFromDimacs_eq, hw, hv]
  constructor
  · intro h
    have hstream : stream [] clauses = stream [] clauses' := Except.ok.inj h
    have hback := readDimacsFromFile_stream (isLit_of_readDimacsFromFile hw) (Or.inl rfl)
    rw [hstream, readDimacsFromFile_stream (isLit_of_readDimacsFromFile hv) (Or.inl rfl)] at hback
    exact (Except.ok.inj hback).symm
  · rintro rfl
    rfl

end Whole

end CnfTools
