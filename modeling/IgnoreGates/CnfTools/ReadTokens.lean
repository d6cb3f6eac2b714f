import IgnoreGates.CnfTools.ReadDimacs
import IgnoreGates.Text.Tokens

/-!
# Reading tokens

What `readDimacsFromFile` makes of a text in DIMACS format.  It looks at lines only between two
clauses, and it takes every line break for the end of a line, not only the line feed.  So it reads
the numbers of a text if and only if its lines stand between clauses, the line breaks inside a line
are followed by another line or by nothing, and the numbers are in range.
-/

namespace CnfTools

namespace Whole

open Ctype Dimacs

/-! ### Numbers -/

/-- What `readInteger` makes of a number.  As `std::abs` leaves the smallest `long` as it is, that
passes the check of the range and is returned as an `int`. -/
def asRead (n : Int) : Int :=
  if n = -2 ^ 63 then 0 else n

/-- The numbers for which `readInteger` does not throw. -/
def Readable (n : Int) : Prop :=
  InRange n ∨ n = -2 ^ 63

/-- A number in the range of a literal is read as it is. -/
theorem asRead_of_inRange {n : Int} (h : InRange n) :
  asRead n = n
  := by
  rw [asRead, if_neg]
  rintro rfl
  revert h
  decide

/-- A number that `strtol` reports is accepted exactly when it is readable, and then it is read as
`asRead` says. -/
theorem integerOf_toLong (n : Int) {length : Nat} (hlength : 0 < length) (next : UInt8) :
  (Readable n → integerOf ⟨(toLong n).1, (toLong n).2, length⟩ next = .ok (asRead n))
    ∧ (¬ Readable n → ∃ e, integerOf ⟨(toLong n).1, (toLong n).2, length⟩ next = .error e)
  := by
  have hlarge : ∀ m : Int, m ≠ -2 ^ 63 → 2 ^ 31 - 1 ≤ m.natAbs → ∀ erange,
      ∃ e, integerOf ⟨m, erange, length⟩ next = .error e := by
    intro m hmin hm erange
    rw [integerOf]
    simp only [hmin, if_false]
    rw [if_pos (Or.inr (by omega))]
    exact ⟨_, rfl⟩
  by_cases hmin : n = -2 ^ 63
  · subst hmin
    refine ⟨fun _ => ?_, fun hnot => absurd (Or.inr rfl) hnot⟩
    have hlong : toLong (-2 ^ 63) = (-2 ^ 63, false) := by decide
    rw [hlong, integerOf]
    simp only [if_true, Bool.false_eq_true, false_or]
    rw [if_neg (by decide), if_pos hlength]
    rfl
  · by_cases hrange : InRange n
    · refine ⟨fun _ => ?_, fun hnot => absurd (Or.inl hrange) hnot⟩
      rw [asRead_of_inRange hrange]
      rw [InRange] at hrange
      have hlong : toLong n = (n, false) := by
        rw [toLong, if_neg (by omega), if_neg (by omega)]
      have hmod : n.bmod (2 ^ 32) = n := by
        apply Int.bmod_eq_of_le <;> omega
      rw [hlong, integerOf]
      simp only [hmin, if_false, Bool.false_eq_true, false_or]
      rw [if_neg (by omega), if_pos hlength, hmod]
    · refine ⟨fun h => absurd h (by simp only [Readable, hmin, hrange, or_self, not_false_eq_true]),
        fun _ => ?_⟩
      rw [InRange, Nat.not_lt] at hrange
      rw [toLong]
      split
      · exact hlarge _ (by decide) (by decide) _
      · split
        · rw [integerOf]
          simp only [true_or, if_true]
          exact ⟨_, rfl⟩
        · exact hlarge n hmin hrange _

variable {minus : Bool} {digits : List UInt8} {rest : List UInt8}

theorem numeral_of_mem_spelling (minus : Bool) (hdigits : ∀ d ∈ digits, isdigit d = true) {b : UInt8}
    (hb : b ∈ spelling minus digits) :
  numeral b = true
  := by
  have hdigit : ∀ d ∈ digits, numeral d = true := by
    intro d hd
    rw [numeral, hdigits d hd]
    rfl
  cases minus with
  | true =>
      obtain rfl | hb := List.mem_cons.mp hb
      · rfl
      · exact hdigit b hb
  | false => exact hdigit b hb

theorem spelling_ne_nil (minus : Bool) (hne : digits ≠ []) :
  spelling minus digits ≠ []
  := by
  cases minus with
  | true => exact List.cons_ne_nil _ _
  | false => exact hne

/-- A number is read up to its last digit. -/
theorem readInteger_spelling (minus : Bool) (hdigits : ∀ d ∈ digits, isdigit d = true)
    (hne : digits ≠ []) (hrest : ∀ b ∈ rest.head?, isdigit b = false) :
  (Readable (value minus digits) →
      readInteger (spelling minus digits ++ rest) = (.ok (asRead (value minus digits)), rest))
    ∧ (¬ Readable (value minus digits) →
      ∃ e, (readInteger (spelling minus digits ++ rest)).1 = .error e)
  := by
  have hstrtol := strtol_spelling minus hdigits hne hrest
  obtain ⟨b, s, hs⟩ := List.exists_cons_of_ne_nil (spelling_ne_nil minus hne)
  have hb : isspace b = false :=
    isspace_of_numeral (numeral_of_mem_spelling minus hdigits (hs ▸ List.mem_cons_self))
  have hskip : skipWhitespace (spelling minus digits ++ rest) = b :: (s ++ rest) := by
    rw [hs, List.cons_append, skipWhitespace_cons hb]
  have hpos : 0 < (spelling minus digits).length := by
    rw [hs]
    exact Nat.succ_pos _
  have hcons : b :: (s ++ rest) = spelling minus digits ++ rest := by
    rw [hs]
    rfl
  obtain ⟨hread, herror⟩ := integerOf_toLong (value minus digits) hpos b
  rw [readInteger, hskip]
  simp only [hcons, hstrtol]
  constructor
  · intro h
    rw [hread h]
    simp only
    rw [List.drop_left]
  · intro h
    obtain ⟨e, he⟩ := herror h
    rw [he]
    exact ⟨e, rfl⟩

/-! ### Reading from the inside of a clause -/

/-- What is read from the inside of a clause, or from between two clauses. -/
def readFrom (inClause : Bool) (w : List UInt8) : Except ParserException (List (List Int)) :=
  if inClause then
    (readLits w).bind (fun p => (readDimacsFromFile p.2).map (fun clauses => p.1 :: clauses))
  else
    readDimacsFromFile w

theorem readFrom_false (w : List UInt8) :
  readFrom false w = readDimacsFromFile w
  := rfl

/-- White space in front does not matter. -/
theorem readFrom_skipWhitespace (inClause : Bool) (w : List UInt8) :
  readFrom inClause (skipWhitespace w) = readFrom inClause w
  := by
  rw [readFrom, readFrom, readLits_skipWhitespace, readDimacsFromFile_skipWhitespace]

theorem readFrom_blank (inClause : Bool) {b : UInt8} (hb : isspace b = true) (w : List UInt8) :
  readFrom inClause (b :: w) = readFrom inClause w
  := by
  have hskip : skipWhitespace (b :: w) = skipWhitespace w := List.dropWhile_cons_of_pos hb
  rw [← readFrom_skipWhitespace, hskip, readFrom_skipWhitespace]

/-- Reading from the inside of a clause ends this clause. -/
theorem ne_nil_of_readFrom_true {w : List UInt8} {clauses : List (List Int)}
    (h : readFrom true w = .ok clauses) :
  clauses ≠ []
  := by
  rw [readFrom, if_pos rfl] at h
  obtain ⟨p, -, h⟩ := Except.of_bind_eq_ok h
  obtain ⟨cs, -, rfl⟩ := Except.of_map_eq_ok h
  exact List.cons_ne_nil _ _

/-- In front of a numeral a clause is read, whether it has already been started or not. -/
theorem readFrom_numeral (inClause : Bool) {b : UInt8} (hb : numeral b = true) (w : List UInt8) :
  readFrom inClause (b :: w) = readFrom true (b :: w)
  := by
  cases inClause with
  | true => rfl
  | false =>
      have hskip := skipWhitespace_cons (isspace_of_numeral hb) w
      rw [readFrom_false, readDimacsFromFile_eq, hskip]
      simp only
      rw [if_neg (not_line_of_numeral hb)]
      rfl

/-- A number is passed to the clause that is being read, or ends it. -/
theorem readFrom_number (inClause : Bool) (hdigits : ∀ d ∈ digits, isdigit d = true)
    (hne : digits ≠ []) (hrest : ∀ b ∈ rest.head?, isdigit b = false)
    (h : Readable (value minus digits)) :
  readFrom inClause (spelling minus digits ++ rest)
    = if asRead (value minus digits) = 0 then (readFrom false rest).map (fun cs => [] :: cs)
      else (readFrom true rest).map (consLit (asRead (value minus digits)))
  := by
  have hread := (readInteger_spelling minus hdigits hne hrest).1 h
  have hlits := readLits_eq (spelling minus digits ++ rest)
  rw [hread] at hlits
  obtain ⟨b, s, hs⟩ := List.exists_cons_of_ne_nil (spelling_ne_nil minus hne)
  have hb := numeral_of_mem_spelling minus hdigits (b := b) (hs ▸ List.mem_cons_self)
  have hclause : readFrom inClause (spelling minus digits ++ rest)
      = readFrom true (spelling minus digits ++ rest) := by
    rw [hs, List.cons_append]
    exact readFrom_numeral inClause hb (s ++ rest)
  rw [hclause, readFrom, if_pos rfl, hlits]
  simp only
  by_cases hzero : asRead (value minus digits) = 0
  · rw [if_neg (not_not.mpr hzero), if_pos hzero]
    rfl
  · rw [if_pos hzero, if_neg hzero, readFrom, if_pos rfl]
    cases readLits rest with
    | error e => rfl
    | ok p =>
        change (readDimacsFromFile p.2).map _ = ((readDimacsFromFile p.2).map _).map _
        cases readDimacsFromFile p.2 <;> rfl

/-- A number that is not readable ends the reading with an error. -/
theorem readFrom_number_error (inClause : Bool) (hdigits : ∀ d ∈ digits, isdigit d = true)
    (hne : digits ≠ []) (hrest : ∀ b ∈ rest.head?, isdigit b = false)
    (h : ¬ Readable (value minus digits)) :
  ∃ e, readFrom inClause (spelling minus digits ++ rest) = .error e
  := by
  obtain ⟨e, he⟩ := (readInteger_spelling minus hdigits hne hrest).2 h
  have hlits := readLits_eq (spelling minus digits ++ rest)
  revert he hlits
  generalize readInteger (spelling minus digits ++ rest) = r
  rintro he hlits
  obtain ⟨r, w⟩ := r
  obtain rfl : r = .error e := he
  obtain ⟨b, s, hs⟩ := List.exists_cons_of_ne_nil (spelling_ne_nil minus hne)
  have hb := numeral_of_mem_spelling minus hdigits (b := b) (hs ▸ List.mem_cons_self)
  use e
  rw [hs, List.cons_append, readFrom_numeral inClause hb, ← List.cons_append, ← hs, readFrom,
    if_pos rfl, hlits]
  rfl

/-- A letter inside a clause is an error. -/
theorem readFrom_true_line {b : UInt8} (hb : b = 'p'.toUInt8 ∨ b = 'c'.toUInt8) (w : List UInt8)
    (clauses : List (List Int)) :
  readFrom true (b :: w) ≠ .ok clauses
  := by
  intro h
  rw [readFrom, if_pos rfl] at h
  obtain ⟨⟨lits, w'⟩, hlits, -⟩ := Except.of_bind_eq_ok h
  have hspace : isspace b = false := by
    obtain rfl | rfl := hb <;> rfl
  exact not_line_of_numeral (of_readLits_cons hlits (skipWhitespace_cons hspace w)).1 hb

/-! ### Lines -/

/-- Behind every line break in the text, another line starts or there is only white space left. -/
def Harmless (text : List UInt8) : Prop :=
  ∀ b rest, b :: rest <:+ text → inLine b = false →
    ∀ d ∈ (skipWhitespace rest).head?, d = 'p'.toUInt8 ∨ d = 'c'.toUInt8

theorem Harmless.of_suffix {text text' : List UInt8} (h : Harmless text) (hsuffix : text' <:+ text) :
  Harmless text'
  := fun b rest hrest => h b rest (hrest.trans hsuffix)

theorem isspace_of_inLine {b : UInt8} (h : inLine b = false) :
  isspace b = true
  := by
  cases hb : isspace b with
  | true => rfl
  | false =>
      rw [inLine_of_not_isspace hb] at h
      cases h

/-- What stands behind a text: nothing or a line feed. -/
def LineEnd (rest : List UInt8) : Prop :=
  ∀ b ∈ rest.head?, b = '\n'.toUInt8

/-- At the end of a line, skipping the line is skipping white space. -/
theorem skipLine_of_lineEnd {rest : List UInt8} (h : LineEnd rest) :
  skipLine rest = skipWhitespace rest
  := by
  cases rest with
  | nil => rfl
  | cons b rest =>
      have hb : inLine b = false := by
        rw [h b rfl]
        rfl
      rw [skipLine]
      have hdrop : (b :: rest).dropWhile inLine = b :: rest :=
        List.dropWhile_cons_of_neg (by rw [hb]; exact Bool.false_ne_true)
      exact congrArg skipWhitespace hdrop

/-- White space is skipped within the first part, unless this part is nothing else. -/
theorem skipWhitespace_append {x : List UInt8} (rest : List UInt8) :
  (skipWhitespace x = [] → skipWhitespace (x ++ rest) = skipWhitespace rest)
    ∧ (skipWhitespace x ≠ [] → skipWhitespace (x ++ rest) = skipWhitespace x ++ rest)
  := by
  rw [skipWhitespace, skipWhitespace, List.dropWhile_append]
  constructor
  · intro h
    rw [if_pos (by rw [h]; rfl)]
    rfl
  · intro h
    rw [if_neg (by simpa using h)]

/-- A line ends at the first byte that is not in it. -/
theorem dropWhile_of_suffix {b : UInt8} {rest text : List UInt8} (h : b :: rest <:+ text)
    (hb : inLine b = false) :
  b :: rest <:+ text.dropWhile inLine
  := by
  induction text with
  | nil => exact h
  | cons x text ih =>
      obtain heq | h := List.suffix_cons_iff.mp h
      · obtain ⟨rfl, rfl⟩ := List.cons.inj heq
        have hdrop : (b :: rest).dropWhile inLine = b :: rest :=
          List.dropWhile_cons_of_neg (by rw [hb]; exact Bool.false_ne_true)
        exact hdrop.symm ▸ List.suffix_rfl
      · rw [List.dropWhile_cons]
        split
        · exact ih h
        · exact h.trans (List.suffix_cons x text)

/-- Skipping white space from a white space on ends where skipping it from before ends, or it has
not come that far. -/
theorem skipWhitespace_of_suffix {b : UInt8} {rest text : List UInt8} (h : b :: rest <:+ text)
    (hb : isspace b = true) :
  skipWhitespace rest = skipWhitespace text ∨ b :: rest <:+ skipWhitespace text
  := by
  induction text with
  | nil => exact Or.inr h
  | cons x text ih =>
      obtain heq | h := List.suffix_cons_iff.mp h
      · obtain ⟨rfl, rfl⟩ := List.cons.inj heq
        left
        rw [skipWhitespace, skipWhitespace, List.dropWhile_cons_of_pos hb]
      · cases hx : isspace x with
        | true =>
            have hskip : skipWhitespace (x :: text) = skipWhitespace text :=
              List.dropWhile_cons_of_pos hx
            rw [hskip]
            exact ih h
        | false =>
            right
            rw [skipWhitespace_cons hx]
            exact h.trans (List.suffix_cons x text)

/-- What is behind the first line break decides about the others. -/
theorem harmless_of_break {b : UInt8} {rest text : List UInt8}
    (hbreak : text.dropWhile inLine = b :: rest)
    (hnext : ∀ d ∈ (skipWhitespace rest).head?, d = 'p'.toUInt8 ∨ d = 'c'.toUInt8)
    (h : Harmless (skipWhitespace rest)) :
  Harmless text
  := by
  intro d rest' hsuffix hd
  have hfirst := dropWhile_of_suffix hsuffix hd
  rw [hbreak] at hfirst
  obtain heq | hlater := List.suffix_cons_iff.mp hfirst
  · obtain ⟨rfl, rfl⟩ := List.cons.inj heq
    exact hnext
  · obtain heq | hlater := skipWhitespace_of_suffix hlater (isspace_of_inLine hd)
    · rw [heq]
      exact hnext
    · exact h d rest' hlater hd

/-- A text within a line is harmless. -/
theorem harmless_of_inLine {text : List UInt8} (h : text.dropWhile inLine = []) :
  Harmless text
  := by
  intro b rest hsuffix hb
  have hfirst := dropWhile_of_suffix hsuffix hb
  rw [h] at hfirst
  exact absurd (List.suffix_nil.mp hfirst) (List.cons_ne_nil _ _)

/-- Where skipping a line stops in a text that goes up to a line end: behind the text, or in front
of a byte in it.  Then this byte starts another line, or there is harm. -/
theorem skipLine_text (text : List UInt8) :
  (Harmless text ∧ ∀ rest, LineEnd rest → skipLine (text ++ rest) = skipWhitespace rest)
    ∨ ∃ b t, b :: t <:+ text ∧ (b :: t).length < text.length ∧ isspace b = false
      ∧ (∀ rest, skipLine (text ++ rest) = b :: t ++ rest)
      ∧ ((b = 'p'.toUInt8 ∨ b = 'c'.toUInt8) ∧ (Harmless (b :: t) → Harmless text)
        ∨ ¬ (b = 'p'.toUInt8 ∨ b = 'c'.toUInt8) ∧ ¬ Harmless text)
  := by
  have hsplit : ∀ rest, skipLine (text ++ rest) = skipLine (text.dropWhile inLine ++ rest) := by
    intro rest
    conv_lhs => rw [← List.takeWhile_append_dropWhile (p := inLine) (l := text), List.append_assoc]
    exact skipLine_append (fun b hb => List.mem_takeWhile_imp hb) _
  cases hbreak : text.dropWhile inLine with
  | nil =>
      left
      refine ⟨harmless_of_inLine hbreak, ?_⟩
      intro rest hrest
      rw [hsplit, hbreak]
      exact skipLine_of_lineEnd hrest
  | cons br t =>
      have hbr : inLine br = false := by
        have hhead := List.head_dropWhile_not inLine (l := text) (by rw [hbreak]; exact List.cons_ne_nil _ _)
        simp only [hbreak, List.head_cons] at hhead
        exact hhead
      have hsuffix : br :: t <:+ text := hbreak ▸ List.dropWhile_suffix inLine
      have hskip : ∀ rest, skipLine (text ++ rest) = skipWhitespace (t ++ rest) := by
        intro rest
        have hdrop : (br :: (t ++ rest)).dropWhile inLine = br :: (t ++ rest) :=
          List.dropWhile_cons_of_neg (by rw [hbr]; exact Bool.false_ne_true)
        rw [hsplit, hbreak, List.cons_append, skipLine]
        refine (congrArg skipWhitespace hdrop).trans ?_
        rw [skipWhitespace, List.dropWhile_cons_of_pos (isspace_of_inLine hbr)]
        rfl
      cases hnext : skipWhitespace t with
      | nil =>
          left
          refine ⟨harmless_of_break hbreak ?_ ?_, ?_⟩
          · rw [hnext]
            exact fun d hd => absurd hd (Option.not_mem_none d)
          · rw [hnext]
            exact fun d rest hd => absurd (List.suffix_nil.mp hd) (List.cons_ne_nil _ _)
          · intro rest _
            rw [hskip, (skipWhitespace_append rest).1 hnext]
      | cons b u =>
          right
          have hu : b :: u <:+ t := hnext ▸ List.dropWhile_suffix isspace
          refine ⟨b, u, hu.trans ((List.suffix_cons br t).trans hsuffix), ?_,
            isspace_of_skipWhitespace hnext, ?_, ?_⟩
          · have hle := hu.length_le
            have hle' := hsuffix.length_le
            rw [List.length_cons] at hle'
            omega
          · intro rest
            rw [hskip, (skipWhitespace_append rest).2 (by rw [hnext]; exact List.cons_ne_nil _ _),
              hnext]
          · by_cases hb : b = 'p'.toUInt8 ∨ b = 'c'.toUInt8
            · refine Or.inl ⟨hb, fun h => harmless_of_break hbreak ?_ (hnext ▸ h)⟩
              rw [hnext]
              intro d hd
              rwa [← Option.some_inj.mp hd]
            · refine Or.inr ⟨hb, fun h => hb ?_⟩
              apply h br t hsuffix hbr
              rw [hnext]
              rfl

/-- A line that starts with `p` or `c` is skipped. -/
theorem readDimacsFromFile_line_cons {b : UInt8} (hb : b = 'p'.toUInt8 ∨ b = 'c'.toUInt8)
    (w : List UInt8) :
  readDimacsFromFile (b :: w) = readDimacsFromFile (skipLine (b :: w))
  := by
  have hspace : isspace b = false := by
    obtain rfl | rfl := hb <;> rfl
  exact readDimacsFromFile_line (skipWhitespace_cons hspace w) hb

/-- A harmless line is skipped. -/
theorem readDimacsFromFile_harmless {text rest : List UInt8} (h : Harmless text)
    (hrest : LineEnd rest) :
  readDimacsFromFile (skipLine (text ++ rest)) = readDimacsFromFile rest
  := by
  induction hlen : text.length using Nat.strongRecOn generalizing text with
  | ind n ih =>
      subst hlen
      obtain ⟨-, hskip⟩ | ⟨b, t, hsuffix, hlt, -, hskip, ⟨hb, -⟩ | ⟨-, hharm⟩⟩ := skipLine_text text
      · rw [hskip rest hrest, readDimacsFromFile_skipWhitespace]
      · rw [hskip, List.cons_append, readDimacsFromFile_line_cons hb]
        exact ih _ hlt (h.of_suffix hsuffix) rfl
      · exact absurd h hharm

/-- A number in a text that goes up to a line end does not go beyond it. -/
theorem of_readInteger_text {text rest w' : List UInt8} {n : Int} {b : UInt8} {t : List UInt8}
    (hrest : LineEnd rest) (htext : text = b :: t) (hb : isspace b = false)
    (h : readInteger (text ++ rest) = (.ok n, w')) :
  ∃ t', w' = t' ++ rest ∧ t'.length < text.length
  := by
  have hskip : skipWhitespace (text ++ rest) = text ++ rest := by
    rw [htext, List.cons_append, skipWhitespace_cons hb]
  obtain ⟨x, hx, hxne, hall⟩ := of_readInteger h (by
    rw [hskip, htext]
    exact List.cons_ne_nil _ _)
  rw [hskip] at hx
  have hpos := List.length_pos_iff.mpr hxne
  obtain ⟨t', hx', hw'⟩ | ⟨c, hc, hw'⟩ := List.append_eq_append_iff.mp hx
  · -- The number ends behind the text, so it is the text.
    cases t' with
    | nil =>
        refine ⟨[], hw'.symm, ?_⟩
        rw [htext]
        exact Nat.succ_pos _
    | cons d t' =>
        exfalso
        have hd := hrest d (by rw [hw']; rfl)
        have hnumeral := hall d (by rw [hx']; exact List.mem_append_right _ List.mem_cons_self)
        rw [hd] at hnumeral
        revert hnumeral
        decide
  · refine ⟨c, hw', ?_⟩
    rw [hc, List.length_append]
    omega

/-- Not skipping a line up to its end gives no fewer numbers, and more if there is harm. -/
theorem readDimacsFromFile_skipLine_text {text rest : List UInt8} (hrest : LineEnd rest)
    {clauses : List (List Int)}
    (h : readDimacsFromFile (skipLine (text ++ rest)) = .ok clauses) :
  ∃ clauses', readDimacsFromFile rest = .ok clauses' ∧ numbers clauses' ≤ numbers clauses
    ∧ (¬ Harmless text → numbers clauses' < numbers clauses)
  := by
  induction hlen : text.length using Nat.strongRecOn generalizing text clauses with
  | ind n ih =>
      subst hlen
      obtain ⟨hharmless, hskip⟩ |
        ⟨b, t, hsuffix, hlt, hspace, hskip, ⟨hb, hharmless⟩ | ⟨hb, hharm⟩⟩ := skipLine_text text
      · rw [hskip rest hrest, readDimacsFromFile_skipWhitespace] at h
        exact ⟨clauses, h, le_rfl, fun hnot => absurd hharmless hnot⟩
      · rw [hskip, List.cons_append, readDimacsFromFile_line_cons hb] at h
        obtain ⟨clauses', hclauses', hle, hlt'⟩ := ih _ hlt h rfl
        exact ⟨clauses', hclauses', hle, fun hnot => hlt' (fun h => hnot (hharmless h))⟩
      · rw [hskip] at h
        have hw := skipWhitespace_cons hspace (t ++ rest)
        -- A number is read from the text, which the line end drops.
        obtain ⟨i, w', hinteger⟩ : ∃ i w', readInteger (b :: (t ++ rest)) = (.ok i, w') := by
          obtain ⟨hnil, -⟩ | ⟨d, u, hu, hd, -⟩ | ⟨d, u, lits, w', cs, hu, hlits, -, -⟩ :=
            of_readDimacsFromFile h
          · rw [List.cons_append, hw] at hnil
            cases hnil
          · rw [List.cons_append, hw] at hu
            rw [← (List.cons.inj hu).1] at hd
            exact absurd hd hb
          · obtain ⟨hzero, -⟩ | ⟨i, u', lits', -, hi, -, -⟩ := of_readLits hlits
            · exact ⟨0, w', hzero⟩
            · exact ⟨i, u', hi⟩
        have hbreak : skipWhitespace ('\n'.toUInt8 :: b :: (t ++ rest)) = b :: (t ++ rest) :=
          hw
        have hnot : ¬ OnLine ('\n'.toUInt8 :: b :: (t ++ rest)) := by
          rintro (hnil | hline)
          · rw [hbreak] at hnil
            cases hnil
          · exact absurd (hline '\n'.toUInt8 (by
              rw [List.takeWhile_cons_of_pos (by rfl)]
              exact List.mem_cons_self)) (by decide)
        have hinteger' : readInteger ('\n'.toUInt8 :: b :: (t ++ rest)) = (.ok i, w') := by
          rw [← readInteger_skipWhitespace, hbreak, hinteger]
        have hclauses : readDimacsFromFile (skipLine ('\n'.toUInt8 :: b :: (t ++ rest)))
            = .ok clauses := by
          rw [skipLine_of_not_onLine hnot, hbreak]
          exact h
        have htext : readInteger (b :: t ++ rest) = (.ok i, w') := hinteger
        obtain ⟨cs, hcs, -, hless⟩ := readDimacsFromFile_skipLine_readInteger hinteger' hclauses
        obtain ⟨t', rfl, hlt'⟩ := of_readInteger_text hrest rfl hspace htext
        obtain ⟨clauses', hclauses', hle, -⟩ := ih _ (hlt'.trans hlt) hcs rfl
        have hless' := hless hnot
        exact ⟨clauses', hclauses', by omega, fun _ => by omega⟩

/-! ### Texts -/

/-- A literal in front of a clause is one more number. -/
theorem numbers_consLit (n : Int) {clauses : List (List Int)} (h : clauses ≠ []) :
  numbers (consLit n clauses) = numbers clauses + 1
  := by
  obtain ⟨lits, clauses, rfl⟩ := List.exists_cons_of_ne_nil h
  rw [consLit, numbers_cons, numbers_cons, List.length_cons]
  omega

/-- The numbers of a text, as they are read. -/
def readNumbers (ts : List Token) : List Int :=
  (Dimacs.numbers ts).map asRead

/-- The lines of a text do no harm. -/
def HarmlessLines (ts : List Token) : Prop :=
  ∀ text, Token.line text ∈ ts → Harmless text

/-- What `readDimacsFromFile` expects of a text. -/
structure Expected (inClause : Bool) (ts : List Token) : Prop where
  readable : ∀ n ∈ Dimacs.numbers ts, Readable n
  harmless : HarmlessLines ts
  between : LinesBetween (fun n => asRead n = 0) inClause ts

theorem expected_nil (inClause : Bool) :
  Expected inClause []
  := ⟨fun _ hn => absurd hn List.not_mem_nil, fun _ htext => absurd htext List.not_mem_nil, trivial⟩

/-- Blanks do not matter to what is expected. -/
theorem expected_blank (inClause : Bool) (b : UInt8) (ts : List Token) :
  Expected inClause (.blank b :: ts) ↔ Expected inClause ts
  := by
  have hlines : HarmlessLines (.blank b :: ts) ↔ HarmlessLines ts := by
    simp [HarmlessLines]
  exact ⟨fun h => ⟨h.readable, hlines.mp h.harmless, h.between⟩,
    fun h => ⟨h.readable, hlines.mpr h.harmless, h.between⟩⟩

/-- A number is expected to be readable, and zero ends a clause. -/
theorem expected_number (inClause minus : Bool) (digits : List UInt8) (ts : List Token) :
  Expected inClause (.number minus digits :: ts) ↔ Readable (value minus digits)
    ∧ Expected (!decide (asRead (value minus digits) = 0)) ts
  := by
  have hlines : HarmlessLines (.number minus digits :: ts) ↔ HarmlessLines ts := by
    simp [HarmlessLines]
  constructor
  · intro h
    exact ⟨h.readable _ List.mem_cons_self, fun n hn => h.readable n (List.mem_cons_of_mem _ hn),
      hlines.mp h.harmless, h.between⟩
  · rintro ⟨hread, h⟩
    refine ⟨?_, hlines.mpr h.harmless, h.between⟩
    intro n hn
    obtain rfl | hn := List.mem_cons.mp hn
    · exact hread
    · exact h.readable n hn

/-- A line is expected between clauses, and it has to be harmless. -/
theorem expected_line (inClause : Bool) (text : List UInt8) (ts : List Token) :
  Expected inClause (.line text :: ts) ↔ inClause = false ∧ Harmless text ∧ Expected inClause ts
  := by
  have hlines : HarmlessLines (.line text :: ts) ↔ Harmless text ∧ HarmlessLines ts := by
    simp [HarmlessLines]
  constructor
  · intro h
    obtain ⟨hharmless, hrest⟩ := hlines.mp h.harmless
    exact ⟨h.between.1, hharmless, h.readable, hrest, h.between.2⟩
  · rintro ⟨hclause, hharmless, h⟩
    exact ⟨h.readable, hlines.mpr ⟨hharmless, h.harmless⟩, hclause, h.between⟩

variable {ts : List Token} {w : List UInt8} {inClause : Bool}

/-- What is read from a line. -/
theorem readFrom_line {text : List UInt8} (hline : Comment text ∨ Header text)
    (rest : List UInt8) :
  readFrom false (text ++ rest) = readDimacsFromFile (skipLine (text ++ rest))
    ∧ ∀ clauses, readFrom true (text ++ rest) ≠ .ok clauses
  := by
  obtain ⟨b, t, rfl, hb⟩ := line_eq_cons hline
  exact ⟨readDimacsFromFile_line_cons hb _, readFrom_true_line hb _⟩

/-- A text that is as expected is read. -/
theorem readFrom_expected (h : Written ts w) (hexpected : Expected inClause ts) :
  readFrom inClause w = .ok (clausesFrom inClause (readNumbers ts))
  := by
  induction h generalizing inClause with
  | nil =>
      cases inClause with
      | false => exact readDimacsFromFile_nil rfl
      | true =>
          rw [readFrom, if_pos rfl, readLits_eq]
          change (readDimacsFromFile []).map _ = _
          rw [readDimacsFromFile_nil rfl]
          rfl
  | @blank b ts w hb h ih =>
      rw [readFrom_blank inClause hb]
      exact ih ((expected_blank _ _ _).mp hexpected)
  | @number minus digits ts w hdigits hne hnext h ih =>
      obtain ⟨hread, hexpected⟩ := (expected_number _ _ _ _).mp hexpected
      rw [readFrom_number inClause hdigits hne hnext hread]
      have hnumbers : readNumbers (.number minus digits :: ts)
          = asRead (value minus digits) :: readNumbers ts := rfl
      rw [hnumbers]
      by_cases hzero : asRead (value minus digits) = 0
      · rw [decide_eq_true hzero, Bool.not_true] at hexpected
        rw [if_pos hzero, clausesFrom, if_pos hzero, ih hexpected]
        rfl
      · rw [decide_eq_false hzero, Bool.not_false] at hexpected
        rw [if_neg hzero, clausesFrom, if_neg hzero, ih hexpected]
        rfl
  | @line text ts w hline hnext h ih =>
      obtain ⟨rfl, hharmless, hexpected⟩ := (expected_line _ _ _).mp hexpected
      rw [(readFrom_line hline w).1, readDimacsFromFile_harmless hharmless hnext]
      exact ih hexpected

/-- No numbers of a text are lost, and more are read if a line does harm. -/
theorem numbers_le_of_readFrom (inClause : Bool) (h : Written ts w) {clauses : List (List Int)}
    (hclauses : readFrom inClause w = .ok clauses) :
  numbers (clausesFrom inClause (readNumbers ts)) ≤ numbers clauses
    ∧ (¬ HarmlessLines ts → numbers (clausesFrom inClause (readNumbers ts)) < numbers clauses)
  := by
  induction h generalizing inClause clauses with
  | nil =>
      have hlines : HarmlessLines [] := fun _ htext => absurd htext List.not_mem_nil
      rw [readFrom_expected .nil (expected_nil inClause)] at hclauses
      rw [Except.ok.inj hclauses]
      exact ⟨le_rfl, fun hnot => absurd hlines hnot⟩
  | @blank b ts w hb h ih =>
      have hlines : HarmlessLines (.blank b :: ts) ↔ HarmlessLines ts := by
        simp [HarmlessLines]
      rw [readFrom_blank inClause hb] at hclauses
      rw [hlines]
      exact ih _ hclauses
  | @number minus digits ts w hdigits hne hnext h ih =>
      have hlines : HarmlessLines (.number minus digits :: ts) ↔ HarmlessLines ts := by
        simp [HarmlessLines]
      have hnumbers : readNumbers (.number minus digits :: ts)
          = asRead (value minus digits) :: readNumbers ts := rfl
      have hread : Readable (value minus digits) := by
        by_contra hnot
        obtain ⟨e, he⟩ := readFrom_number_error inClause hdigits hne hnext hnot
        rw [he] at hclauses
        cases hclauses
      rw [readFrom_number inClause hdigits hne hnext hread] at hclauses
      rw [hlines, hnumbers, clausesFrom]
      split at hclauses
      · next hzero =>
          obtain ⟨clauses', hclauses', rfl⟩ := Except.of_map_eq_ok hclauses
          obtain ⟨hle, hlt⟩ := ih _ hclauses'
          rw [if_pos hzero, numbers_cons, numbers_cons]
          exact ⟨by omega, fun hnot => by have := hlt hnot; omega⟩
      · next hzero =>
          obtain ⟨clauses', hclauses', rfl⟩ := Except.of_map_eq_ok hclauses
          obtain ⟨hle, hlt⟩ := ih _ hclauses'
          rw [if_neg hzero, numbers_consLit _ (clausesFrom_true_ne_nil _),
            numbers_consLit _ (ne_nil_of_readFrom_true hclauses')]
          exact ⟨by omega, fun hnot => by have := hlt hnot; omega⟩
  | @line text ts w hline hnext h ih =>
      have hlines : HarmlessLines (.line text :: ts) ↔ Harmless text ∧ HarmlessLines ts := by
        simp [HarmlessLines]
      cases inClause with
      | true => exact absurd hclauses ((readFrom_line hline w).2 _)
      | false =>
          rw [(readFrom_line hline w).1] at hclauses
          obtain ⟨clauses', hclauses', hle', hlt'⟩ :=
            readDimacsFromFile_skipLine_text hnext hclauses
          obtain ⟨hle, hlt⟩ := ih false hclauses'
          change numbers (clausesFrom false (readNumbers ts)) ≤ _ ∧ (_ → _ < _)
          refine ⟨hle.trans hle', ?_⟩
          intro hnot
          rw [hlines, not_and_or] at hnot
          obtain hnot | hnot := hnot
          · exact hle.trans_lt (hlt' hnot)
          · exact (hlt hnot).trans_le hle'

/-- A text that is read and whose lines do no harm is as expected. -/
theorem expected_of_readFrom (h : Written ts w) (hlines : HarmlessLines ts)
    {clauses : List (List Int)} (hclauses : readFrom inClause w = .ok clauses) :
  Expected inClause ts
  := by
  induction h generalizing inClause clauses with
  | nil => exact expected_nil inClause
  | @blank b ts w hb h ih =>
      rw [readFrom_blank inClause hb] at hclauses
      apply (expected_blank _ _ _).mpr
      exact ih (fun text htext => hlines text (List.mem_cons_of_mem _ htext)) hclauses
  | @number minus digits ts w hdigits hne hnext h ih =>
      have hread : Readable (value minus digits) := by
        by_contra hnot
        obtain ⟨e, he⟩ := readFrom_number_error inClause hdigits hne hnext hnot
        rw [he] at hclauses
        cases hclauses
      have hlines' : HarmlessLines ts :=
        fun text htext => hlines text (List.mem_cons_of_mem _ htext)
      refine (expected_number _ _ _ _).mpr ⟨hread, ?_⟩
      rw [readFrom_number inClause hdigits hne hnext hread] at hclauses
      split at hclauses
      · next hzero =>
          obtain ⟨clauses', hclauses', -⟩ := Except.of_map_eq_ok hclauses
          rw [decide_eq_true hzero]
          exact ih hlines' hclauses'
      · next hzero =>
          obtain ⟨clauses', hclauses', -⟩ := Except.of_map_eq_ok hclauses
          rw [decide_eq_false hzero]
          exact ih hlines' hclauses'
  | @line text ts w hline hnext h ih =>
      cases inClause with
      | true => exact absurd hclauses ((readFrom_line hline w).2 _)
      | false =>
          have hharmless := hlines text List.mem_cons_self
          rw [(readFrom_line hline w).1, readDimacsFromFile_harmless hharmless hnext] at hclauses
          refine (expected_line _ _ _).mpr ⟨rfl, hharmless, ?_⟩
          exact ih (fun text htext => hlines text (List.mem_cons_of_mem _ htext)) hclauses

/-- The clauses of a text are read if and only if it is as expected. -/
theorem readFrom_written_iff (inClause : Bool) (h : Written ts w) :
  readFrom inClause w = .ok (clausesFrom inClause (readNumbers ts)) ↔ Expected inClause ts
  := by
  constructor
  · intro hclauses
    apply expected_of_readFrom h _ hclauses
    by_contra hnot
    exact absurd ((numbers_le_of_readFrom _ h hclauses).2 hnot) (Nat.lt_irrefl _)
  · exact readFrom_expected h

/-! ### Digits behind a text -/

/-- Digits behind a text that does not end in white space do no harm. -/
theorem harmless_extend {text ds : List UInt8} (hlast : ∀ b ∈ text.getLast?, isspace b = false)
    (hds : ∀ d ∈ ds, isdigit d = true) :
  Harmless (text ++ ds) ↔ Harmless text
  := by
  have hnext : ∀ b rest, b :: rest <:+ text → inLine b = false →
      (skipWhitespace (rest ++ ds)).head? = (skipWhitespace rest).head? := by
    intro b rest hsuffix hb
    have hne : skipWhitespace rest ≠ [] := by
      intro hnil
      have hall : ∀ d ∈ b :: rest, isspace d = true :=
        List.forall_mem_cons.mpr ⟨isspace_of_inLine hb, List.dropWhile_eq_nil_iff.mp hnil⟩
      obtain ⟨t, rfl⟩ := hsuffix
      have hspace := hlast _ (by
        rw [List.getLast?_append_of_ne_nil _ (List.cons_ne_nil b rest)]
        exact List.getLast?_eq_some_getLast (List.cons_ne_nil b rest))
      rw [hall _ (List.getLast_mem _)] at hspace
      cases hspace
    rw [(skipWhitespace_append ds).2 hne]
    exact head?_append_of_ne_nil hne
  constructor
  · intro h b rest hsuffix hb
    rw [← hnext b rest hsuffix hb]
    obtain ⟨t, rfl⟩ := hsuffix
    exact h b (rest ++ ds) ⟨t, by rw [List.append_assoc, List.cons_append]⟩ hb
  · rintro h b rest ⟨t, ht⟩ hb
    obtain ⟨u, rfl, hu⟩ | ⟨u, rfl, hu⟩ := List.append_eq_append_iff.mp ht
    · cases u with
      | nil =>
          have hdigit := hds b (by rw [← List.nil_append ds, ← hu]; exact List.mem_cons_self)
          rw [inLine_of_not_isspace (not_isspace_of_isdigit hdigit)] at hb
          cases hb
      | cons d u =>
          obtain ⟨rfl, rfl⟩ := List.cons.inj hu
          have hsuffix : b :: u <:+ t ++ b :: u := List.suffix_append t _
          change ∀ d ∈ (skipWhitespace (u ++ ds)).head?, _
          rw [hnext b u hsuffix hb]
          exact h b u hsuffix hb
    · have hdigit := hds b (by rw [hu]; exact List.mem_append_right _ List.mem_cons_self)
      rw [inLine_of_not_isspace (not_isspace_of_isdigit hdigit)] at hb
      cases hb

/-- How many numbers clauses were read from, if the last number is given. -/
theorem numbers_clausesFrom (inClause : Bool) (ns : List Int) (n : Int) :
  numbers (clausesFrom inClause (ns ++ [n])) = ns.length + 1 + if n = 0 then 0 else 1
  := by
  induction ns generalizing inClause with
  | nil =>
      rw [List.nil_append, clausesFrom]
      split <;> rfl
  | cons m ns ih =>
      rw [List.cons_append, clausesFrom]
      split
      · rw [numbers_cons, ih, List.length_cons, List.length_nil]
        omega
      · rw [numbers_consLit _ (clausesFrom_true_ne_nil _), ih, List.length_cons]
        omega

/-- What is read if `strtol` runs on into the bytes behind the end of a file: the digits there
belong to the last number. -/
def runOn (content stale : List UInt8) : List UInt8 :=
  if ∃ b ∈ content.getLast?, isspace b = false then content ++ stale.takeWhile isdigit else content

/-- Zero, with a sign or without one, is still read as zero with the digits behind it. -/
def ReadsZero (minus : Bool) (digits : List UInt8) : Prop :=
  ofDigits 0 digits = 0 ∨ minus = true ∧ ofDigits 0 digits = 2 ^ 63

/-- The texts whose clauses are read, with the bytes behind their end: the numbers are in range, the
lines do no harm and stand between clauses, and the last number does not run on. -/
structure CommonForm (ts : List Token) (stale : List UInt8) : Prop where
  inRange : ∀ n ∈ Dimacs.numbers ts, InRange n
  harmless : HarmlessLines ts
  between : LinesBetween (fun n => n = 0) false ts
  last : ∀ minus digits, ts.getLast? = some (.number minus digits) →
    ReadsZero minus (stale.takeWhile isdigit)

theorem asRead_of_ne {n : Int} (h : n ≠ -2 ^ 63) :
  asRead n = n
  := if_neg h

/-- Without the smallest number, the numbers are read as they are. -/
theorem readNumbers_eq (h : ∀ n ∈ Dimacs.numbers ts, n ≠ -2 ^ 63) :
  readNumbers ts = Dimacs.numbers ts
  := by
  have hread : (Dimacs.numbers ts).map asRead = (Dimacs.numbers ts).map id :=
    List.map_congr_left (fun n hn => asRead_of_ne (h n hn))
  rw [readNumbers, hread, List.map_id]

/-- Without the smallest `long`, the numbers are as they are read. -/
theorem expected_iff (h : ∀ n ∈ Dimacs.numbers ts, n ≠ -2 ^ 63) :
  Expected false ts ↔ (∀ n ∈ Dimacs.numbers ts, InRange n) ∧ HarmlessLines ts
    ∧ LinesBetween (fun n => n = 0) false ts
  := by
  have hbetween : LinesBetween (fun n => asRead n = 0) false ts
      ↔ LinesBetween (fun n => n = 0) false ts := by
    apply linesBetween_congr
    intro n hn
    simp only [asRead_of_ne (h n hn)]
  have hread : ∀ n ∈ Dimacs.numbers ts, Readable n ↔ InRange n := by
    intro n hn
    rw [Readable, or_iff_left (h n hn)]
  constructor
  · intro hexpected
    exact ⟨fun n hn => (hread n hn).mp (hexpected.readable n hn), hexpected.harmless,
      hbetween.mp hexpected.between⟩
  · rintro ⟨hrange, hharmless, hlines⟩
    exact ⟨fun n hn => Or.inl (hrange n hn), hharmless, hbetween.mpr hlines⟩

/-- Behind zeros, the value is that of the further digits. -/
theorem value_append {minus : Bool} {digits ds : List UInt8} (hzero : value minus digits = 0) :
  value minus (digits ++ ds) = value minus ds
  := by
  have hdigits : ofDigits 0 digits = 0 := by
    rw [value] at hzero
    split at hzero <;> omega
  have happend : ofDigits 0 (digits ++ ds) = ofDigits 0 ds := by
    rw [ofDigits, List.foldl_append]
    change ofDigits (ofDigits 0 digits) ds = _
    rw [hdigits]
  rw [value, value, happend]

/-- These are the numbers that are read as zero. -/
theorem readsZero_iff (minus : Bool) (digits : List UInt8) :
  ReadsZero minus digits ↔ asRead (value minus digits) = 0
  := by
  rw [ReadsZero, asRead, value]
  cases minus with
  | true =>
      simp
      omega
  | false => simp

theorem readable_of_asRead {n : Int} (h : asRead n = 0) :
  Readable n
  := by
  rw [asRead] at h
  split at h
  · next hmin => exact Or.inr hmin
  · rw [h]
    exact Or.inl (by decide)

/-- A text that ends in white space does not end in a number. -/
theorem not_mem_getLast?_of_isspace {w : List UInt8} (hw : ¬ ∃ b ∈ w.getLast?, isspace b = false)
    (h : Written ts w) (minus : Bool) (digits : List UInt8) :
  ts.getLast? ≠ some (.number minus digits)
  := by
  intro hlast
  obtain ⟨ts', rfl⟩ := List.getLast?_eq_some_iff.mp hlast
  obtain ⟨u, v, rfl, hv, -⟩ := h.replace_last
  cases hv with
  | number hdigits hne hnext h' =>
      cases h'
      apply hw
      have hnumber := spelling_ne_nil minus hne
      refine ⟨(spelling minus digits).getLast hnumber, ?_, ?_⟩
      · rw [List.append_nil, List.getLast?_append_of_ne_nil _ hnumber]
        exact List.getLast?_eq_some_getLast hnumber
      · exact isspace_of_numeral (numeral_of_mem_spelling minus hdigits (List.getLast_mem hnumber))

/-- Digits behind a text that ends between two clauses: they must not change the last number. -/
theorem readDimacsFromFile_append_iff {t : Token} {ds : List UInt8} (h : Written (ts ++ [t]) w)
    (hlast : ∀ b ∈ w.getLast?, isspace b = false) (hds : ∀ d ∈ ds, isdigit d = true)
    (hmin : ∀ n ∈ Dimacs.numbers (ts ++ [t]), n ≠ -2 ^ 63)
    (hclosed : ∀ n ∈ (Dimacs.numbers (ts ++ [t])).getLast?, n = 0) :
  readDimacsFromFile (w ++ ds) = .ok (clausesOf (Dimacs.numbers (ts ++ [t])))
    ↔ Expected false (ts ++ [t])
      ∧ ∀ minus digits, t = .number minus digits → ReadsZero minus ds
  := by
  obtain ⟨h', hblank, hline⟩ := h.extend hlast hds
  have hharmless : HarmlessLines (ts ++ [t.extend ds]) ↔ HarmlessLines (ts ++ [t]) := by
    have hsplit : ∀ t, HarmlessLines (ts ++ [t]) ↔ HarmlessLines ts ∧ HarmlessLines [t] := by
      intro t
      simp only [HarmlessLines, List.mem_append]
      exact ⟨fun h => ⟨fun text htext => h text (Or.inl htext), fun text htext => h text (Or.inr htext)⟩,
        fun h text htext => htext.elim (h.1 text) (h.2 text)⟩
    have hsingle : ∀ text, HarmlessLines [.line text] ↔ Harmless text := by
      intro text
      simp [HarmlessLines]
    rw [hsplit, hsplit]
    apply and_congr_right
    intro _
    cases t with
    | blank b => exact Iff.rfl
    | number minus digits => simp [HarmlessLines, Token.extend]
    | line text =>
        rw [Token.extend, hsingle, hsingle]
        exact harmless_extend (hline text rfl) hds
  have hbetween := linesBetween_extend (fun n => decide (asRead n = 0)) false ts t ds
  have hnumbers : ∀ t, readNumbers (ts ++ [t]) = readNumbers ts ++ readNumbers [t] := by
    intro t
    rw [readNumbers, numbers_append, List.map_append]
    rfl
  have hsame := readNumbers_eq hmin
  cases t with
  | blank b => exact absurd rfl (hblank b)
  | line text =>
      have heq : readNumbers (ts ++ [Token.extend ds (.line text)])
          = Dimacs.numbers (ts ++ [.line text]) := by
        rw [← hsame, hnumbers, hnumbers]
        rfl
      have hdigits : Dimacs.numbers (ts ++ [Token.extend ds (.line text)])
          = Dimacs.numbers (ts ++ [.line text]) := by
        rw [numbers_append, numbers_append]
        rfl
      rw [clausesOf, ← heq]
      refine (readFrom_written_iff false h').trans ?_
      constructor
      · intro hexpected
        exact ⟨⟨hdigits ▸ hexpected.readable, hharmless.mp hexpected.harmless,
          hbetween.mp hexpected.between⟩, nofun⟩
      · rintro ⟨hexpected, -⟩
        exact ⟨hdigits ▸ hexpected.readable, hharmless.mpr hexpected.harmless,
          hbetween.mpr hexpected.between⟩
  | number minus digits =>
      have hvalue : value minus digits = 0 := by
        apply hclosed
        rw [numbers_append]
        exact List.getLast?_concat
      have hextend : value minus (digits ++ ds) = value minus ds := value_append hvalue
      have hmem : ∀ n, n ∈ Dimacs.numbers (ts ++ [.number minus (digits ++ ds)])
          ↔ n ∈ Dimacs.numbers ts ∨ n = value minus ds := by
        intro n
        rw [numbers_append, List.mem_append, ← hextend]
        simp [Dimacs.numbers]
      have hmem' : ∀ n, n ∈ Dimacs.numbers (ts ++ [.number minus digits])
          ↔ n ∈ Dimacs.numbers ts ∨ n = 0 := by
        intro n
        rw [numbers_append, List.mem_append, ← hvalue]
        simp [Dimacs.numbers]
      by_cases hzero : ReadsZero minus ds
      · have hread := (readsZero_iff minus ds).mp hzero
        have heq : readNumbers (ts ++ [Token.extend ds (.number minus digits)])
            = Dimacs.numbers (ts ++ [.number minus digits]) := by
          rw [← hsame, hnumbers, hnumbers]
          congr 1
          change [asRead (value minus (digits ++ ds))] = [asRead (value minus digits)]
          rw [hextend, hread, hvalue]
          rfl
        rw [clausesOf, ← heq]
        refine (readFrom_written_iff false h').trans ?_
        constructor
        · intro hexpected
          refine ⟨⟨?_, hharmless.mp hexpected.harmless, hbetween.mp hexpected.between⟩, ?_⟩
          · intro n hn
            obtain hn | rfl := (hmem' n).mp hn
            · exact hexpected.readable n ((hmem n).mpr (Or.inl hn))
            · exact Or.inl (by decide)
          · intro minus' digits' hnumber
            rw [← (Token.number.inj hnumber).1]
            exact hzero
        · rintro ⟨hexpected, -⟩
          refine ⟨?_, hharmless.mpr hexpected.harmless, hbetween.mpr hexpected.between⟩
          intro n hn
          obtain hn | rfl := (hmem n).mp hn
          · exact hexpected.readable n ((hmem' n).mpr (Or.inl hn))
          · exact readable_of_asRead hread
      · -- One more number is read, to end the clause that the last number starts.
        refine iff_of_false ?_ (fun hand => hzero (hand.2 minus digits rfl))
        intro hclauses
        have hle := (numbers_le_of_readFrom false h' hclauses).1
        rw [hnumbers, show readNumbers [Token.extend ds (.number minus digits)]
            = [asRead (value minus (digits ++ ds))] from rfl, hextend, numbers_clausesFrom, clausesOf,
          ← hsame, hnumbers, show readNumbers [.number minus digits]
            = [asRead (value minus digits)] from rfl, hvalue, numbers_clausesFrom,
          if_neg (fun hread => hzero ((readsZero_iff minus ds).mpr hread)), if_pos (by rfl)] at hle
        omega

/-- The clauses of a text that ends between two clauses are read, with the bytes behind its end, if
and only if it has the common form. -/
theorem readDimacsFromFile_runOn_iff (h : Written ts w)
    (hmin : ∀ n ∈ Dimacs.numbers ts, n ≠ -2 ^ 63) (hclosed : ∀ n ∈ (Dimacs.numbers ts).getLast?, n = 0)
    (stale : List UInt8) :
  readDimacsFromFile (runOn w stale) = .ok (clausesOf (Dimacs.numbers ts)) ↔ CommonForm ts stale
  := by
  have hcommon : (∀ minus digits, ts.getLast? = some (.number minus digits) →
      ReadsZero minus (stale.takeWhile isdigit)) → (CommonForm ts stale ↔ Expected false ts) := by
    intro hlast
    rw [expected_iff hmin]
    exact ⟨fun h => ⟨h.inRange, h.harmless, h.between⟩,
      fun ⟨hrange, hharmless, hbetween⟩ => ⟨hrange, hharmless, hbetween, hlast⟩⟩
  rw [runOn]
  split
  · next hw =>
      obtain ⟨b, hb, hspace⟩ := hw
      have hlast : ∀ d ∈ w.getLast?, isspace d = false := by
        intro d hd
        rw [hb] at hd
        rwa [← Option.some_inj.mp hd]
      have hds : ∀ d ∈ stale.takeWhile isdigit, isdigit d = true :=
        fun d hd => List.mem_takeWhile_imp hd
      obtain rfl | ⟨ts', t, rfl⟩ := ts.eq_nil_or_concat
      · cases h
        cases hb
      · rw [List.concat_eq_append] at h hmin hclosed hcommon ⊢
        rw [readDimacsFromFile_append_iff h hlast hds hmin hclosed]
        constructor
        · rintro ⟨hexpected, hzero⟩
          refine (hcommon ?_).mpr hexpected
          intro minus digits hnumber
          rw [List.getLast?_concat] at hnumber
          exact hzero minus digits (Option.some_inj.mp hnumber)
        · intro hform
          refine ⟨(hcommon hform.last).mp hform, ?_⟩
          intro minus digits hnumber
          apply hform.last minus digits
          rw [List.getLast?_concat, hnumber]
  · next hw =>
      rw [hcommon (fun minus digits hnumber =>
        absurd hnumber (not_mem_getLast?_of_isspace hw h minus digits)),
        ← readFrom_written_iff false h, readNumbers_eq hmin]
      rfl

end Whole

end CnfTools
