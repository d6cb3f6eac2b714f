import IgnoreGates.CnfTools.ChunkedReading
import IgnoreGates.CnfTools.ReadTokens

/-!
# Reading DIMACS files in chunks

The loops of `readDimacsFromFile` on a stream buffer.  On files without overlong words they read what
is read from the whole file, continued by the digits that stand behind the last chunk if the file
does not end in white space.  A word that fills the whole buffer is never passed.
-/

namespace CnfTools

open Ctype

/-! ### Digits behind a file -/

namespace Whole

variable {content stale : List UInt8}

theorem runOn_of_endsInWord (h : EndsInWord content) :
  runOn content stale = content ++ stale.takeWhile isdigit
  := if_pos h

theorem runOn_of_not_endsInWord (h : ¬ EndsInWord content) :
  runOn content stale = content
  := if_neg h

@[simp]
theorem runOn_nil :
  runOn [] stale = []
  := by
  apply runOn_of_not_endsInWord
  rintro ⟨b, hb, -⟩
  cases hb

/-- Skipping the bytes of a kind, if the digits behind the file are skipped with its last word. -/
theorem runOn_dropWhile {p : UInt8 → Bool}
    (hp : EndsInWord content → content.dropWhile p = [] → ∀ d, isdigit d = true → p d = true) :
  (runOn content stale).dropWhile p = runOn (content.dropWhile p) stale
  := by
  by_cases hword : EndsInWord content
  · rw [runOn_of_endsInWord hword, List.dropWhile_append]
    cases hrest : content.dropWhile p with
    | nil =>
        rw [runOn_nil, if_pos (by rfl)]
        apply List.dropWhile_eq_nil_iff.mpr
        exact fun d hd => hp hword hrest d (List.mem_takeWhile_imp hd)
    | cons b rest =>
        rw [if_neg (by simp), runOn_of_endsInWord]
        apply (endsInWord_of_suffix (hrest ▸ List.dropWhile_suffix p) (List.cons_ne_nil b rest)).mpr
        exact hword
  · rw [runOn_of_not_endsInWord hword]
    cases hrest : content.dropWhile p with
    | nil => rw [runOn_nil]
    | cons b rest =>
        rw [runOn_of_not_endsInWord]
        rwa [endsInWord_of_suffix (hrest ▸ List.dropWhile_suffix p) (List.cons_ne_nil b rest)]

/-- White space is skipped on the continued file as on the file. -/
theorem runOn_skipWhitespace :
  skipWhitespace (runOn content stale) = runOn (skipWhitespace content) stale
  := by
  apply runOn_dropWhile
  rintro ⟨b, hb, hspace⟩ hnil
  have hall := List.dropWhile_eq_nil_iff.mp hnil b (List.mem_of_mem_getLast? hb)
  rw [hspace] at hall
  cases hall

/-- Lines are skipped on the continued file as on the file. -/
theorem runOn_skipLine :
  skipLine (runOn content stale) = runOn (skipLine content) stale
  := by
  rw [skipLine, skipLine, runOn_dropWhile, runOn_skipWhitespace]
  intro _ _ d hd
  rw [not_isspace_of_isdigit hd]
  rfl

/-- White space in a text stops `strtol` before the end. -/
theorem not_overruns {b : UInt8} {tail x : List UInt8} (htail : ∃ d ∈ tail, isspace d = true)
    (hb : isspace b = false) :
  ¬ Overruns (b :: tail) x
  := by
  rintro ⟨hdigits, -⟩
  obtain ⟨d, hd, hspace⟩ := htail
  have hmem : d ∈ afterSign (b :: tail) := by
    rw [afterSign, List.dropWhile_cons_of_neg (by rw [hb]; exact Bool.false_ne_true), sign]
    split
    · exact hd
    · exact List.mem_cons_of_mem b hd
  have hdigit := hdigits d hmem
  rw [not_isdigit_of_isspace hspace] at hdigit
  cases hdigit

/-- White space is skipped up to a byte that is none. -/
theorem dropWhile_ne_nil {b : UInt8} {tail : List UInt8} (hb : isspace b = false) :
  (b :: tail).dropWhile isspace ≠ []
  := by
  rw [List.dropWhile_cons_of_neg (by rw [hb]; exact Bool.false_ne_true)]
  exact List.cons_ne_nil b tail

/-- Where white space follows, what stands behind the file does not matter. -/
theorem strtol_runOn_of_isspace {b : UInt8} {tail : List UInt8}
    (htail : ∃ d ∈ tail, isspace d = true) (hb : isspace b = false) :
  strtol (runOn (b :: tail) stale) = strtol (b :: tail)
  := by
  rw [runOn]
  split
  · exact strtol_append (dropWhile_ne_nil hb) (not_overruns htail hb)
  · rfl

/-- `strtol` reads the digits behind the file, and no other bytes there. -/
theorem strtol_append_stale {b : UInt8} {tail : List UInt8} (hb : isspace b = false) :
  strtol (b :: tail ++ stale) = strtol (runOn (b :: tail) stale)
  := by
  by_cases hword : EndsInWord (b :: tail)
  · rw [runOn_of_endsInWord hword]
    conv_lhs =>
      rw [← List.takeWhile_append_dropWhile (p := isdigit) (l := stale), ← List.append_assoc]
    apply strtol_append
    · rw [List.cons_append]
      exact dropWhile_ne_nil hb
    · rintro ⟨-, d, hd, hdigit⟩
      cases hrest : stale.dropWhile isdigit with
      | nil =>
          rw [hrest] at hd
          cases hd
      | cons c rest =>
          have hc := List.head_dropWhile_not isdigit (l := stale)
            (by rw [hrest]; exact List.cons_ne_nil c rest)
          simp only [hrest, List.head_cons] at hc
          rw [hrest] at hd
          obtain rfl := Option.some_inj.mp hd
          rw [hc] at hdigit
          cases hdigit
  · rw [runOn_of_not_endsInWord hword]
    apply strtol_append (dropWhile_ne_nil hb)
    apply not_overruns _ hb
    have hlast := List.getLast?_eq_some_getLast (List.cons_ne_nil b tail)
    have hspace : isspace ((b :: tail).getLast (List.cons_ne_nil b tail)) = true := by
      by_contra hnot
      exact hword ⟨_, hlast, by simpa using hnot⟩
    refine ⟨_, ?_, hspace⟩
    obtain heq | hmem := List.mem_cons.mp (List.getLast_mem (List.cons_ne_nil b tail))
    · rw [heq, hb] at hspace
      cases hspace
    · exact hmem

/-- A number at the end of the file takes all digits behind it. -/
theorem runOn_drop {length : Nat} (hlength : length = (strtol (runOn content stale)).length)
    (hpos : 0 < length) :
  (runOn content stale).drop length = runOn (content.drop length) stale
  := by
  by_cases hword : EndsInWord content
  · obtain hlt | hle := Nat.lt_or_ge length content.length
    · have hne : content.drop length ≠ [] := by
        intro hnil
        rw [List.drop_eq_nil_iff] at hnil
        omega
      rw [runOn_of_endsInWord hword, List.drop_append_of_le_length hlt.le, runOn_of_endsInWord]
      rwa [endsInWord_of_suffix (List.drop_suffix length content) hne]
    · rw [List.drop_eq_nil_of_le hle, runOn_nil]
      have hstop := (strtol_rest (hlength ▸ hpos)).1
      rw [← hlength] at hstop
      have hdigits : (runOn content stale).drop length
          = (stale.takeWhile isdigit).drop (length - content.length) := by
        rw [runOn_of_endsInWord hword, List.drop_append, List.drop_eq_nil_of_le hle, List.nil_append]
      cases hrest : (runOn content stale).drop length with
      | nil => rfl
      | cons d rest =>
          exfalso
          have hd : isdigit d = true := by
            have hmem : d ∈ (runOn content stale).drop length := by
              rw [hrest]
              exact List.mem_cons_self
            rw [hdigits] at hmem
            exact List.mem_takeWhile_imp (List.mem_of_mem_drop hmem)
          rw [hrest] at hstop
          have hhead := List.head_dropWhile_not isdigit (l := afterSign (runOn content stale))
            (by rw [← hstop]; exact List.cons_ne_nil d rest)
          simp only [← hstop, List.head_cons] at hhead
          rw [hd] at hhead
          cases hhead
  · rw [runOn_of_not_endsInWord hword]
    cases hrest : content.drop length with
    | nil => rw [runOn_nil]
    | cons b rest =>
        rw [runOn_of_not_endsInWord]
        rwa [endsInWord_of_suffix (hrest ▸ List.drop_suffix length content) (List.cons_ne_nil b rest)]

/-- What `readInteger` returns and leaves in front of a byte that is not skipped. -/
theorem readInteger_cons {b : UInt8} (hb : isspace b = false) (rest : List UInt8) :
  (readInteger (b :: rest)).1 = integerOf (strtol (b :: rest)) b
    ∧ ∀ n, (readInteger (b :: rest)).1 = .ok n →
      (readInteger (b :: rest)).2 = (b :: rest).drop (strtol (b :: rest)).length
  := by
  rw [readInteger, skipWhitespace_cons hb]
  simp only
  cases integerOf (strtol (b :: rest)) b with
  | error e =>
      refine ⟨rfl, ?_⟩
      intro n hn
      cases hn
  | ok n =>
      refine ⟨rfl, ?_⟩
      intro _ _
      rfl

end Whole

namespace StreamBuffer

/-- The loop over the literals of a clause, for a bounded number of iterations. -/
def readLits : Nat → StreamBuffer →
    Except ReadFault (Except ParserException (List Int) × StreamBuffer)
  | 0, _ => .error .outOfFuel
  | n + 1, s => do
      let (plit, s) ← s.readInteger
      match plit with
      | .error e => return (.error e, s)
      | .ok plit =>
          if plit ≠ 0 then
            let (lits, s) ← readLits n s
            return (lits.map (fun lits => plit :: lits), s)
          else
            return (.ok [], s)

/-- The loop of `readDimacsFromFile`, for a bounded number of iterations. -/
def readClauses : Nat → StreamBuffer → Except ReadFault (Except ParserException (List (List Int)))
  | 0, _ => .error .outOfFuel
  | n + 1, s => do
      if s.eof then
        return .ok []
      else
        let s ← s.skipWhitespace
        if s.eof then
          return .ok []
        else if s.deref = 'p'.toUInt8 ∨ s.deref = 'c'.toUInt8 then
          readClauses n (← s.skipLine)
        else
          let (clause, s) ← s.readLits (s.unread + 1)
          match clause with
          | .error e => return .error e
          | .ok clause =>
              let clauses ← readClauses n s
              return clauses.map (fun clauses => clause :: clauses)

/-- `readDimacsFromFile`: the clauses that are passed to `readClause`, for the bytes of the file and
those of the memory from the start of the buffer on. -/
def readDimacsFromFile (file memory : List UInt8) :
    Except ReadFault (Except ParserException (List (List Int))) := do
  let s ← init file memory
  s.readClauses (s.unread + 1)

/-! ### The bytes behind the last chunk -/

/-- The bytes that stand behind the last chunk once it has been read. -/
inductive Behind : StreamBuffer → List UInt8 → Prop where
  | last {s : StreamBuffer} (h : s.endOfFile = true) : Behind s (s.buffer.drop s.end_)
  | refill {s s' : StreamBuffer} {stale : List UInt8} (h : s.endOfFile = false)
      (hrefill : checkRefillBuffer { s with pos := s.end_ } = .ok s') (h' : Behind s' stale) :
      Behind s stale

variable {s s' : StreamBuffer} {content stale : List UInt8}

/-- The position plays no part in what stands behind the bytes. -/
theorem Behind.of_pos (h : Behind s stale) (pos : Nat) :
  Behind { s with pos } stale
  := by
  cases h with
  | last h => exact Behind.last (s := { s with pos }) h
  | refill h hrefill h' => exact Behind.refill (s := { s with pos }) h hrefill h'

/-- Which chunk comes next does not depend on the position. -/
theorem Behind.incPos (h : Behind s stale) {k : Nat} (hinc : s.incPos k = .ok s') :
  Behind s' stale
  := by
  by_cases hrefill : s.end_ ≤ s.pos + k ∧ s.endOfFile = false
  · cases h with
    | last h =>
        rw [hrefill.2] at h
        cases h
    | refill h heq h' =>
        have hfill : s.incPos k = checkRefillBuffer { s with pos := s.end_ } :=
          (if_pos hrefill).trans (if_pos (α := Except ReadFault StreamBuffer) ⟨le_rfl, h⟩).symm
        rw [hfill, heq] at hinc
        rwa [← Except.ok.inj hinc]
  · rw [StreamBuffer.incPos, checkRefillBuffer, if_neg hrefill] at hinc
    rw [← Except.ok.inj hinc]
    exact h.of_pos _

/-- What moving the position keeps is kept while bytes of a kind are skipped. -/
theorem skipWhile_keeps {P : StreamBuffer → Prop}
    (hP : ∀ s s' k, P s → s.incPos k = .ok s' → P s') (h : P s)
    {p : UInt8 → Bool} {n : Nat} (hskip : skipWhile p n s = .ok s') :
  P s'
  := by
  induction n generalizing s with
  | zero =>
      rw [StreamBuffer.skipWhile] at hskip
      split at hskip
      · cases hskip
      · rwa [← Except.ok.inj hskip]
  | succ n ih =>
      rw [StreamBuffer.skipWhile] at hskip
      split at hskip
      · obtain ⟨s₁, hinc, hskip⟩ := Except.of_bind_eq_ok hskip
        exact ih (hP s s₁ 1 h hinc) hskip
      · rwa [← Except.ok.inj hskip]

/-- What `incPos` keeps is kept by skipping a line. -/
theorem skipLine_keeps {P : StreamBuffer → Prop}
    (hP : ∀ s s' k, P s → s.incPos k = .ok s' → P s') (h : P s)
    (hskip : s.skipLine = .ok s') :
  P s'
  := by
  rw [StreamBuffer.skipLine] at hskip
  obtain ⟨s₁, hline, hspace⟩ := Except.of_bind_eq_ok hskip
  exact skipWhile_keeps hP (skipWhile_keeps hP h hline) hspace

/-- A refill reads some bytes of the file, or it reads the last chunk. -/
theorem check_refill_progress (hmore : s.endOfFile = false) (hpos : 0 < s.end_)
    (hsize : s.bufferSize ≤ s.buffer.length) (hle : s.end_ ≤ s.bufferSize)
    (hrefill : checkRefillBuffer { s with pos := s.end_ } = .ok s') :
  s'.endOfFile = true ∨ s'.file.length < s.file.length
  := by
  have hcut : s.cutOff.length < s.bufferSize := by
    rw [cutOff]
    split
    · rw [List.length_drop, List.length_take]
      omega
    · exact hpos.trans_le hle
  rw [checkRefillBuffer, if_pos ⟨le_rfl, hmore⟩] at hrefill
  have hfile : (fill { s with pos := s.end_ }).file = s.file.drop (s.bufferSize - s.cutOff.length) :=
    rfl
  have hend : (fill { s with pos := s.end_ }).end_
      = s.cutOff.length + (s.file.take (s.bufferSize - s.cutOff.length)).length := rfl
  have hbuffer : (fill { s with pos := s.end_ }).bufferSize = s.bufferSize := rfl
  revert hrefill hfile hend hbuffer
  generalize fill { s with pos := s.end_ } = t
  intro hrefill hfile hend hbuffer
  simp only at hrefill
  split at hrefill
  · left
    rw [← Except.ok.inj hrefill]
  · next hfull =>
      right
      obtain ⟨m, -, hs'⟩ := Except.of_bind_eq_ok hrefill
      obtain rfl := Except.ok.inj hs'
      change t.file.length < _
      rw [hbuffer, hend, List.length_take] at hfull
      rw [hfile, List.length_drop]
      omega

/-- There is a last chunk. -/
theorem Reads.exists_behind (h : Reads s content) :
  ∃ stale, Behind s stale
  := by
  induction hlen : s.file.length using Nat.strongRecOn generalizing s content with
  | ind n ih =>
      subst hlen
      cases hlast : s.endOfFile with
      | true => exact ⟨_, .last hlast⟩
      | false =>
          obtain ⟨hpos, hle, -, -⟩ := h.more hlast
          obtain ⟨s', hinc, h'⟩ := h.incPos (k := s.end_ - s.pos) (fun _ => by omega)
          have hrefill : checkRefillBuffer { s with pos := s.end_ } = .ok s' := by
            rw [StreamBuffer.incPos, show s.pos + (s.end_ - s.pos) = s.end_ by omega] at hinc
            exact hinc
          obtain hlast' | hlt := check_refill_progress hlast (by omega) h.size_le hle hrefill
          · exact ⟨_, .refill hlast hrefill (.last hlast')⟩
          · obtain ⟨stale, hstale⟩ := ih _ hlt h' rfl
            exact ⟨stale, .refill hlast hrefill hstale⟩

/-! ### Reading -/

/-- The bytes `content` are left to be read, and the bytes `stale` stand behind them. -/
structure ReadsOn (s : StreamBuffer) (content stale : List UInt8) : Prop where
  reads : Reads s content
  behind : Behind s stale

/-- White space is skipped, and the bytes behind stay. -/
theorem ReadsOn.skipWhitespace (h : ReadsOn s content stale) :
  ∃ s', s.skipWhitespace = .ok s' ∧ ReadsOn s' (Whole.skipWhitespace content) stale
  := by
  obtain ⟨s', hskip, h'⟩ := h.reads.skipWhitespace
  exact ⟨s', hskip, h',
    skipWhile_keeps (P := (Behind · stale)) (fun _ _ _ h => h.incPos) h.behind hskip⟩

/-- A line is skipped, and the bytes behind stay. -/
theorem ReadsOn.skipLine (h : ReadsOn s content stale) :
  ∃ s', s.skipLine = .ok s' ∧ ReadsOn s' (Whole.skipLine content) stale
  := by
  obtain ⟨s', hskip, h'⟩ := h.reads.skipLine
  exact ⟨s', hskip, h',
    skipLine_keeps (P := (Behind · stale)) (fun _ _ _ h => h.incPos) h.behind hskip⟩

/-- What `strtol` reads in memory. -/
theorem ReadsOn.strtol {b : UInt8} {tail : List UInt8} (h : ReadsOn s (b :: tail) stale)
    (hb : isspace b = false) :
  Ctype.strtol (s.buffer.drop s.pos) = Ctype.strtol (Whole.runOn (b :: tail) stale)
    ∧ (s.endOfFile = false →
      s.pos + (Ctype.strtol (Whole.runOn (b :: tail) stale)).length ≤ s.end_)
  := by
  cases hlast : s.endOfFile with
  | true =>
      refine ⟨?_, fun hfalse => by cases hfalse⟩
      obtain ⟨-, hend, hcontent⟩ := h.reads.last hlast
      have hstale : stale = s.buffer.drop s.end_ := by
        cases h.behind with
        | last _ => rfl
        | refill hfalse _ _ =>
            rw [hlast] at hfalse
            cases hfalse
      have hlen := congrArg List.length hcontent
      rw [List.length_cons, List.length_drop, List.length_take] at hlen
      rw [drop_eq_append (m := s.end_) (by omega) (hend.le.trans h.reads.size_le), ← hcontent,
        ← hstale]
      exact Whole.strtol_append_stale hb
  | false =>
      obtain ⟨hstrtol, hinside⟩ := h.reads.strtol hb (fun hrun => by
        rw [RunsOn, hlast] at hrun
        exact Bool.false_ne_true hrun.1)
      obtain ⟨hpos, hend, hspace, hcontent⟩ := h.reads.more hlast
      -- the white space at the end of the chunk is in the file
      have htail : ∃ d ∈ tail, isspace d = true := by
        refine ⟨_, ?_, hspace⟩
        have hsize := h.reads.size_le
        have hmem : s.byte (s.end_ - 1) ∈ b :: tail := by
          rw [hcontent, StreamBuffer.byte, List.getD_eq_getElem _ 0 (by omega)]
          apply List.mem_append_left
          rw [List.mem_iff_getElem]
          refine ⟨s.end_ - 1 - s.pos, ?_, ?_⟩
          · rw [List.length_drop, List.length_take]
            omega
          · rw [List.getElem_drop, List.getElem_take]
            congr 1
            omega
        obtain heq | hmem := List.mem_cons.mp hmem
        · rw [heq, hb] at hspace
          cases hspace
        · exact hmem
      rw [Whole.strtol_runOn_of_isspace htail hb]
      exact ⟨hstrtol, fun _ => hinside hlast⟩

/-- A number is read as from the file that is continued by the digits behind the last chunk. -/
theorem ReadsOn.readInteger (h : ReadsOn s content stale) :
  ∃ s', s.readInteger = .ok ((Whole.readInteger (Whole.runOn content stale)).1, s')
    ∧ ∀ n, (Whole.readInteger (Whole.runOn content stale)).1 = .ok n →
      ∃ content', ReadsOn s' content' stale
        ∧ (Whole.readInteger (Whole.runOn content stale)).2 = Whole.runOn content' stale
        ∧ content'.length ≤ content.length
        ∧ (Whole.skipWhitespace content ≠ [] → content'.length < content.length)
        ∧ (Whole.skipWhitespace content = [] → n = 0)
  := by
  obtain ⟨s₁, hskip, h₁⟩ := h.skipWhitespace
  have hlen := Whole.length_skipWhitespace_le content
  rw [StreamBuffer.readInteger, hskip, ← Whole.readInteger_skipWhitespace, Whole.runOn_skipWhitespace]
  simp only [bind, Except.bind]
  cases hcontent : Whole.skipWhitespace content with
  | nil =>
      rw [hcontent] at h₁
      have heof : s₁.eof = true := h₁.reads.eof
      rw [Whole.runOn_nil]
      refine ⟨s₁, if_pos heof, ?_⟩
      intro n hn
      refine ⟨[], h₁, Whole.runOn_nil.symm, Nat.zero_le _, fun hne => absurd rfl hne, ?_⟩
      intro _
      exact (Except.ok.inj hn).symm
  | cons b tail =>
      rw [hcontent] at h₁ hlen
      have heof : s₁.eof = false := h₁.reads.eof
      have hb := Whole.isspace_of_skipWhitespace hcontent
      obtain ⟨hstrtol, hinside⟩ := h₁.strtol hb
      obtain ⟨tail', htail'⟩ : ∃ tail', Whole.runOn (b :: tail) stale = b :: tail' := by
        rw [Whole.runOn]
        split
        · exact ⟨_, List.cons_append⟩
        · exact ⟨tail, rfl⟩
      obtain ⟨hfirst, hrest⟩ := Whole.readInteger_cons hb tail'
      rw [← htail'] at hfirst hrest
      rw [hfirst, h₁.reads.byte, hstrtol]
      rw [hfirst] at hrest
      simp only [heof, Bool.false_eq_true, if_false]
      cases hint : integerOf (Ctype.strtol (Whole.runOn (b :: tail) stale)) b with
      | error e => exact ⟨s₁, rfl, fun n hn => by cases hn⟩
      | ok number =>
          have hpos := (Whole.of_integerOf hint).1
          obtain ⟨s₂, hinc, h₂⟩ := h₁.reads.incPos hinside
          refine ⟨s₂, ?_, ?_⟩
          · simp only [hinc]
            rfl
          · intro n _
            rw [hrest number hint]
            refine ⟨_, ⟨h₂, h₁.behind.incPos hinc⟩, Whole.runOn_drop rfl hpos, ?_, ?_, ?_⟩
            · rw [List.length_drop]
              omega
            · intro _
              rw [List.length_drop]
              rw [List.length_cons] at hlen ⊢
              omega
            · intro hnil
              cases hnil

/-- A clause is read as from the continued file. -/
theorem ReadsOn.readLits (h : ReadsOn s content stale) {n : Nat} (hn : content.length < n) :
  ∃ r s', s.readLits n = .ok (r, s')
    ∧ r = (Whole.readLits (Whole.runOn content stale)).map Prod.fst
    ∧ ∀ lits w', Whole.readLits (Whole.runOn content stale) = .ok (lits, w') →
      ∃ content', ReadsOn s' content' stale ∧ w' = Whole.runOn content' stale
        ∧ content'.length ≤ content.length
        ∧ (Whole.skipWhitespace content ≠ [] → content'.length < content.length)
  := by
  induction n generalizing s content with
  | zero => exact absurd hn (Nat.not_lt_zero _)
  | succ n ih =>
      obtain ⟨s₁, hinteger, hnext⟩ := h.readInteger
      rw [StreamBuffer.readLits, hinteger, Whole.readLits_eq]
      revert hnext
      generalize Whole.readInteger (Whole.runOn content stale) = p
      obtain ⟨r, w₁⟩ := p
      intro hnext
      simp only [bind, Except.bind]
      cases r with
      | error e => exact ⟨.error e, s₁, rfl, rfl, fun lits w' hlits => by cases hlits⟩
      | ok plit =>
          obtain ⟨content₁, h₁, rfl, hle, hlt, hzero⟩ := hnext plit rfl
          simp only
          by_cases hplit : plit ≠ 0
          · have hless : content₁.length < content.length := hlt (fun hnil => hplit (hzero hnil))
            obtain ⟨r₂, s₂, hlits, hr₂, hnext₂⟩ := ih h₁ (by omega)
            rw [if_pos hplit, if_pos hplit, hlits]
            refine ⟨r₂.map (fun lits => plit :: lits), s₂, rfl, ?_, ?_⟩
            · rw [hr₂]
              cases Whole.readLits (Whole.runOn content₁ stale) <;> rfl
            · intro lits w' hw'
              obtain ⟨⟨lits₂, w₂⟩, hw₂, heq⟩ := Except.of_map_eq_ok hw'
              obtain ⟨-, rfl⟩ := Prod.mk.inj heq
              obtain ⟨content', h', hrun, hle', -⟩ := hnext₂ lits₂ w₂ hw₂
              exact ⟨content', h', hrun, by omega, fun _ => by omega⟩
          · rw [if_neg hplit, if_neg hplit]
            refine ⟨.ok [], s₁, rfl, rfl, ?_⟩
            intro lits w' hw'
            obtain ⟨-, rfl⟩ := Prod.mk.inj (Except.ok.inj hw')
            exact ⟨content₁, h₁, rfl, hle, hlt⟩

theorem Reads.deref {b : UInt8} {rest : List UInt8} (h : Reads s (b :: rest)) :
  s.deref = b
  := by
  have heof : s.eof = false := h.eof
  rw [StreamBuffer.deref, heof, if_neg Bool.false_ne_true, h.byte]

/-- The clauses are read as from the continued file. -/
theorem ReadsOn.readClauses (h : ReadsOn s content stale) {n : Nat} (hn : content.length < n) :
  s.readClauses n = .ok (Whole.readDimacsFromFile (Whole.runOn content stale))
  := by
  induction n generalizing s content with
  | zero => exact absurd hn (Nat.not_lt_zero _)
  | succ n ih =>
      rw [StreamBuffer.readClauses, h.reads.eof]
      cases content with
      | nil =>
          rw [Whole.runOn_nil, Whole.readDimacsFromFile_nil rfl]
          rfl
      | cons b content =>
          obtain ⟨s₁, hskip, h₁⟩ := h.skipWhitespace
          have hlen := Whole.length_skipWhitespace_le (b :: content)
          rw [hskip]
          simp only [List.isEmpty_cons, Bool.false_eq_true, if_false, bind, Except.bind]
          rw [h₁.reads.eof, Whole.readDimacsFromFile_eq, Whole.runOn_skipWhitespace]
          cases hcontent : Whole.skipWhitespace (b :: content) with
          | nil =>
              rw [Whole.runOn_nil]
              rfl
          | cons d rest =>
              rw [hcontent] at h₁ hlen
              have hd := Whole.isspace_of_skipWhitespace hcontent
              obtain ⟨rest', hrest'⟩ : ∃ rest', Whole.runOn (d :: rest) stale = d :: rest' := by
                rw [Whole.runOn]
                split
                · exact ⟨_, List.cons_append⟩
                · exact ⟨rest, rfl⟩
              rw [hrest', h₁.reads.deref]
              simp only [List.isEmpty_cons, Bool.false_eq_true, if_false]
              split
              · obtain ⟨s₂, hline, h₂⟩ := h₁.skipLine
                have hless := Whole.length_skipLine_lt (Whole.inLine_of_not_isspace hd) rest
                rw [hline, ← hrest', Whole.runOn_skipLine]
                exact ih h₂ (by omega)
              · obtain ⟨r, s₂, hlits, hr, hnext⟩ :=
                  h₁.readLits (Nat.lt_succ_of_le h₁.reads.length_le_unread)
                rw [hlits, ← hrest']
                revert hr hnext
                cases Whole.readLits (Whole.runOn (d :: rest) stale) with
                | error e =>
                    rintro rfl -
                    rfl
                | ok p =>
                    obtain ⟨lits, w'⟩ := p
                    rintro rfl hnext
                    obtain ⟨content', h', rfl, -, hlt⟩ := hnext lits w' rfl
                    have hless := hlt (by
                      rw [Whole.skipWhitespace_cons hd]
                      exact List.cons_ne_nil d rest)
                    have hclauses := ih h' (by omega)
                    simp only [Except.map, Except.bind, pure, Except.pure, hclauses]

/-- On a file whose words are shorter than the buffer, the clauses are read as from the file that is
continued by the digits behind the last chunk. -/
theorem readDimacsFromFile_eq {file memory : List UInt8} (hmemory : 16384 ≤ memory.length)
    (hshort : ShortRuns 16384 file) :
  ∃ s stale, init file memory = .ok s ∧ Behind s stale
    ∧ readDimacsFromFile file memory = .ok (Whole.readDimacsFromFile (Whole.runOn file stale))
  := by
  obtain ⟨s, hinit, hreads⟩ := init_spec hmemory hshort
  obtain ⟨stale, hstale⟩ := hreads.exists_behind
  have hclauses := ReadsOn.readClauses ⟨hreads, hstale⟩
    (Nat.lt_succ_of_le hreads.length_le_unread)
  refine ⟨s, stale, hinit, hstale, ?_⟩
  rw [readDimacsFromFile, hinit]
  exact hclauses

/-! ### Overlong words -/

/-- A word that fills the buffer is still to be read. -/
structure Blocked (s : StreamBuffer) : Prop where
  more : s.endOfFile = false
  size_le : s.bufferSize ≤ s.buffer.length
  end_le : s.end_ ≤ s.bufferSize
  long : ¬ ShortRuns s.bufferSize (s.cutOff ++ s.file)

/-- The buffer is cut right behind white space. -/
theorem of_align {buffer : List UInt8} {n m : Nat} (h : align buffer n = .ok m) :
  0 < m ∧ m ≤ n ∧ isspace (buffer.getD (m - 1) 0) = true
  := by
  induction n with
  | zero => cases h
  | succ n ih =>
      rw [align] at h
      split at h
      · next hspace =>
          obtain rfl := Except.ok.inj h
          exact ⟨Nat.succ_pos n, le_rfl, hspace⟩
      · obtain ⟨hpos, hle, hspace⟩ := ih h
        exact ⟨hpos, hle.trans (Nat.le_succ n), hspace⟩

/-- No refill passes the word. -/
theorem Blocked.check_refill (h : Blocked s) (hrefill : checkRefillBuffer s = .ok s') :
  Blocked s'
  := by
  rw [checkRefillBuffer] at hrefill
  split at hrefill
  · have hcut : s.cutOff.length ≤ s.bufferSize := by
      rw [cutOff]
      split
      · rw [List.length_drop, List.length_take]
        omega
      · exact Nat.zero_le _
    have hend : s.fill.end_
        = s.cutOff.length + (s.file.take (s.bufferSize - s.cutOff.length)).length := rfl
    have hfile : s.fill.file = s.file.drop (s.bufferSize - s.cutOff.length) := rfl
    have hbuffer : s.fill.buffer = s.cutOff ++ s.file.take (s.bufferSize - s.cutOff.length)
        ++ s.buffer.drop (s.cutOff.length + (s.file.take (s.bufferSize - s.cutOff.length)).length) :=
      rfl
    have hsize : s.fill.bufferSize = s.bufferSize := rfl
    have hmore : s.fill.endOfFile = false := h.more
    have hlength := h.size_le
    have hlong := h.long
    revert hrefill hend hfile hbuffer hsize hmore
    generalize s.fill = t
    intro hrefill hend hfile hbuffer hsize hmore
    simp only at hrefill
    split at hrefill
    · next hlast =>
        exfalso
        apply hlong
        intro run hrun _
        have hle := hrun.length_le
        rw [hsize, hend, List.length_take] at hlast
        rw [List.length_append] at hle
        omega
    · next hfull =>
        obtain ⟨m, halign, hs'⟩ := Except.of_bind_eq_ok hrefill
        obtain rfl := Except.ok.inj hs'
        obtain ⟨hpos, hle, hspace⟩ := of_align halign
        rw [hsize] at hfull
        have hend' : t.end_ = s.bufferSize := by
          rw [hend, List.length_take] at hfull ⊢
          omega
        rw [hend'] at hle
        have htake : t.buffer.take s.bufferSize
            = s.cutOff ++ s.file.take (s.bufferSize - s.cutOff.length) := by
          rw [hbuffer]
          apply List.take_left'
          rw [List.length_append, ← hend, hend']
        have htlength : s.bufferSize ≤ t.buffer.length := by
          rw [hbuffer, List.length_append, List.length_append, ← hend, hend']
          exact Nat.le_add_right _ _
        have hcontent : s.cutOff ++ s.file
            = t.buffer.take (m - 1) ++ t.buffer.getD (m - 1) 0
              :: ((t.buffer.take s.bufferSize).drop m ++ t.file) := by
          have hsplit := List.take_append_drop (m - 1) (t.buffer.take s.bufferSize)
          rw [List.take_take, Nat.min_eq_left (by omega), List.drop_eq_getElem_cons
            (by rw [List.length_take]; omega), List.getElem_take, show m - 1 + 1 = m by omega] at hsplit
          rw [List.getD_eq_getElem _ 0 (by omega), ← List.cons_append, ← List.append_assoc, hsplit,
            htake, hfile, List.append_assoc, List.take_append_drop]
        have hcutOff : cutOff { t with end_ := m } = (t.buffer.take s.bufferSize).drop m := by
          rw [cutOff]
          change (if 0 < m ∧ m < t.bufferSize then (t.buffer.take t.bufferSize).drop m else []) = _
          rw [hsize]
          split
          · rfl
          · rw [List.drop_eq_nil_of_le]
            rw [List.length_take]
            omega
        refine ⟨hmore, hsize ▸ htlength, hsize ▸ hle, ?_⟩
        rw [hcutOff]
        change ¬ ShortRuns t.bufferSize (_ ++ t.file)
        rw [hsize]
        intro hshort
        apply hlong
        intro run hrun hall
        rw [hcontent] at hrun
        obtain hleft | hright := infix_of_not_mem hrun (fun hmem => by
          rw [hall _ hmem] at hspace
          cases hspace)
        · have hlen := hleft.length_le
          rw [List.length_take] at hlen
          omega
        · exact hshort run hright hall
  · obtain rfl := Except.ok.inj hrefill
    exact h

/-- Moving on does not help, as the word still has to be read. -/
theorem Blocked.incPos (h : Blocked s) {k : Nat} (hinc : s.incPos k = .ok s') :
  Blocked s'
  := Blocked.check_refill (s := { s with pos := s.pos + k }) ⟨h.more, h.size_le, h.end_le, h.long⟩
    hinc

/-- The end of the file is not reached. -/
theorem Blocked.eof (h : Blocked s) :
  s.eof = false
  := by
  rw [StreamBuffer.eof, h.more]
  simp

/-- Reading a number leaves the word to be read. -/
theorem Blocked.readInteger (h : Blocked s) {r : Except ParserException Int}
    (hread : s.readInteger = .ok (r, s')) :
  Blocked s'
  := by
  rw [StreamBuffer.readInteger] at hread
  obtain ⟨s₁, hskip, hread⟩ := Except.of_bind_eq_ok hread
  have h₁ : Blocked s₁ := skipWhile_keeps (fun _ _ _ h => h.incPos) h hskip
  rw [h₁.eof] at hread
  simp only [Bool.false_eq_true, if_false] at hread
  split at hread
  · obtain ⟨s₂, hinc, hread⟩ := Except.of_bind_eq_ok hread
    obtain ⟨-, rfl⟩ := Prod.mk.inj (Except.ok.inj hread)
    exact h₁.incPos hinc
  · obtain ⟨-, rfl⟩ := Prod.mk.inj (Except.ok.inj hread)
    exact h₁

/-- Reading a clause leaves the word to be read. -/
theorem Blocked.readLits (h : Blocked s) {n : Nat} {r : Except ParserException (List Int)}
    (hread : s.readLits n = .ok (r, s')) :
  Blocked s'
  := by
  induction n generalizing s r with
  | zero => cases hread
  | succ n ih =>
      rw [StreamBuffer.readLits] at hread
      obtain ⟨⟨plit, s₁⟩, hinteger, hread⟩ := Except.of_bind_eq_ok hread
      have h₁ := h.readInteger hinteger
      cases plit with
      | error e =>
          obtain ⟨-, rfl⟩ := Prod.mk.inj (Except.ok.inj hread)
          exact h₁
      | ok plit =>
          simp only at hread
          split at hread
          · obtain ⟨⟨lits, s₂⟩, hlits, hread⟩ := Except.of_bind_eq_ok hread
            obtain ⟨-, rfl⟩ := Prod.mk.inj (Except.ok.inj hread)
            exact ih h₁ hlits
          · obtain ⟨-, rfl⟩ := Prod.mk.inj (Except.ok.inj hread)
            exact h₁

/-- A file with such a word is not read to its end. -/
theorem Blocked.readClauses (h : Blocked s) (n : Nat) (clauses : List (List Int)) :
  s.readClauses n ≠ .ok (.ok clauses)
  := by
  induction n generalizing s clauses with
  | zero => nofun
  | succ n ih =>
      intro hread
      rw [StreamBuffer.readClauses, h.eof] at hread
      simp only [Bool.false_eq_true, if_false] at hread
      obtain ⟨s₁, hskip, hread⟩ := Except.of_bind_eq_ok hread
      have h₁ : Blocked s₁ := skipWhile_keeps (fun _ _ _ h => h.incPos) h hskip
      rw [h₁.eof] at hread
      simp only [Bool.false_eq_true, if_false] at hread
      split at hread
      · obtain ⟨s₂, hline, hread⟩ := Except.of_bind_eq_ok hread
        exact ih (skipLine_keeps (fun _ _ _ h => h.incPos) h₁ hline) clauses hread
      · obtain ⟨⟨clause, s₂⟩, hlits, hread⟩ := Except.of_bind_eq_ok hread
        have h₂ := h₁.readLits hlits
        cases clause with
        | error e => cases hread
        | ok clause =>
            simp only at hread
            obtain ⟨r, hr, hread⟩ := Except.of_bind_eq_ok hread
            obtain ⟨cs, rfl, -⟩ := Except.of_map_eq_ok (Except.ok.inj hread)
            exact ih h₂ cs hr

/-- A file that is read without an exception has no word that fills the buffer. -/
theorem shortRuns_of_readDimacsFromFile {file memory : List UInt8}
    (hmemory : 16384 ≤ memory.length) {clauses : List (List Int)}
    (h : readDimacsFromFile file memory = .ok (.ok clauses)) :
  ShortRuns 16384 file
  := by
  by_contra hlong
  rw [readDimacsFromFile] at h
  obtain ⟨s, hinit, hclauses⟩ := Except.of_bind_eq_ok h
  have hstart : Blocked (start file memory) := ⟨rfl, hmemory, Nat.zero_le _, hlong⟩
  exact (hstart.check_refill hinit).readClauses _ clauses hclauses

/-- The clauses of a file are read if and only if its words are shorter than the buffer and they are
read from the file as the bytes behind its last chunk continue it. -/
theorem readDimacsFromFile_iff {file memory : List UInt8} (hmemory : 16384 ≤ memory.length)
    (clauses : List (List Int)) :
  readDimacsFromFile file memory = .ok (.ok clauses) ↔ ShortRuns 16384 file
    ∧ ∀ s stale, init file memory = .ok s → Behind s stale →
      Whole.readDimacsFromFile (Whole.runOn file stale) = .ok clauses
  := by
  constructor
  · intro h
    have hshort := shortRuns_of_readDimacsFromFile hmemory h
    refine ⟨hshort, ?_⟩
    intro s stale hinit hstale
    obtain ⟨s', hinit', hreads⟩ := init_spec hmemory hshort
    obtain rfl := Except.ok.inj (hinit.symm.trans hinit')
    have hclauses := ReadsOn.readClauses ⟨hreads, hstale⟩
      (Nat.lt_succ_of_le hreads.length_le_unread)
    rw [readDimacsFromFile, hinit] at h
    exact Except.ok.inj (hclauses.symm.trans h)
  · rintro ⟨hshort, hall⟩
    obtain ⟨s, stale, hinit, hstale, heq⟩ := readDimacsFromFile_eq hmemory hshort
    rw [heq, hall s stale hinit hstale]

end StreamBuffer

end CnfTools
