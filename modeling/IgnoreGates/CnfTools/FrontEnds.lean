import IgnoreGates.Cadical.ParseDimacs
import IgnoreGates.CnfTools.ChunkedDimacs

/-!
# The two readers of a file

The solver and the gate analysis read the same file, each with its own parser.  A file with the
header `p cnf` that the solver accepts is a text in DIMACS format.  The analysis reads the same
clauses from it if and only if its lines stand between clauses, the header stands on one line and
the literals are in range.  This holds of files in which no comment is broken by another byte than a
line feed, no word is as long as the buffer, and no digit is left in the buffer behind a number at
the end of the file.
-/

namespace CnfTools

open Ctype Dimacs Whole

/-! ### Lines -/

/-- Behind a line break there is only white space. -/
def OneLine (text : List UInt8) : Prop :=
  ∀ b rest, b :: rest <:+ text → inLine b = false → ∀ d ∈ rest, isspace d = true

/-- Behind a line break in a header there are digits and white space. -/
theorem digits_of_header {text rest : List UInt8} {b : UInt8} (h : Header text)
    (hsuffix : b :: rest <:+ text) (hb : inLine b = false) :
  ∀ d ∈ rest, isspace d = true ∨ isdigit d = true
  := by
  obtain ⟨hblanks, hs₁, hvars, hvars_ne, hs₂, hs₂_ne, hclauses, hclauses_ne, hs₃⟩ := h
  rename_i blanks s₁ vars s₂ clauses s₃
  obtain ⟨t, ht⟩ := hsuffix
  have hline : ∀ d ∈ 'p'.toUInt8 :: (blanks ++ bytesOf ['c', 'n', 'f']), inLine d = true := by
    intro d hd
    obtain rfl | hd := List.mem_cons.mp hd
    · rfl
    · obtain hd | hd := List.mem_append.mp hd
      · rw [inLine, hblanks d hd, Bool.or_true]
      · simp only [bytesOf, List.map, List.mem_cons, List.not_mem_nil, or_false] at hd
        obtain rfl | rfl | rfl := hd <;> rfl
  have hnumbers : ∀ d ∈ s₁ ++ (vars ++ (s₂ ++ (clauses ++ s₃))),
      isspace d = true ∨ isdigit d = true := by
    simp only [List.mem_append]
    rintro d (hd | hd | hd | hd | hd)
    · exact Or.inl (hs₁ d hd)
    · exact Or.inr (hvars d hd)
    · exact Or.inl (hs₂ d hd)
    · exact Or.inr (hclauses d hd)
    · exact Or.inl (hs₃ d hd).1
  have hsplit : t ++ b :: rest = 'p'.toUInt8 :: (blanks ++ bytesOf ['c', 'n', 'f'])
      ++ (s₁ ++ (vars ++ (s₂ ++ (clauses ++ s₃)))) := by
    rw [ht, List.cons_append, List.append_assoc]
  intro d hd
  obtain ⟨u, hu, hrest⟩ | ⟨u, -, hu⟩ := List.append_eq_append_iff.mp hsplit
  · cases u with
    | nil =>
        apply hnumbers
        rw [List.nil_append] at hrest
        rw [← hrest]
        exact List.mem_cons_of_mem b hd
    | cons c u =>
        have hmem := List.mem_append_right t (List.mem_cons_self (a := c) (l := u))
        rw [← hu] at hmem
        rw [(List.cons.inj hrest).1, hline c hmem] at hb
        cases hb
  · apply hnumbers
    rw [hu]
    exact List.mem_append_right u (List.mem_cons_of_mem b hd)

/-- A header does no harm if and only if it stands on one line. -/
theorem harmless_iff_oneLine {text : List UInt8} (h : Header text) :
  Harmless text ↔ OneLine text
  := by
  constructor
  · intro hharmless b rest hsuffix hb d hd
    by_contra hspace
    have hne : skipWhitespace rest ≠ [] :=
      fun hnil => hspace (List.dropWhile_eq_nil_iff.mp hnil d hd)
    obtain ⟨c, u, hskip⟩ := List.exists_cons_of_ne_nil hne
    have hletter := hharmless b rest hsuffix hb c (by rw [hskip]; rfl)
    have hmem : c ∈ rest := by
      apply (List.dropWhile_suffix isspace).subset
      change c ∈ skipWhitespace rest
      rw [hskip]
      exact List.mem_cons_self
    have hnumbers := digits_of_header h hsuffix hb c hmem
    revert hnumbers
    obtain rfl | rfl := hletter <;> decide
  · intro hline b rest hsuffix hb d hd
    have hnil : skipWhitespace rest = [] :=
      List.dropWhile_eq_nil_iff.mpr (hline b rest hsuffix hb)
    rw [hnil] at hd
    cases hd

/-! ### Files that are accepted by both -/

/-- The files on which `StreamBuffer` does what its comments say: words are shorter than the buffer,
`skipLine` stops at the end of a comment and `strtol` at the end of the file. -/
structure Regular (file memory : List UInt8) (ts : List Token) : Prop where
  words : ShortRuns 16384 file
  comments : ∀ text, .line text ∈ ts → Comment text → Harmless text
  last : ∀ s stale, StreamBuffer.init file memory = .ok s → StreamBuffer.Behind s stale →
    ∀ minus digits, ts.getLast? = some (.number minus digits) → ∀ d ∈ stale.head?, isdigit d = false

/-- The texts for which `readDimacsFromFile` is made: numbers are in range, a header stands on one
line, and lines stand between clauses. -/
structure Supported (ts : List Token) : Prop where
  inRange : ∀ n ∈ numbers ts, InRange n
  header : ∀ text, .line text ∈ ts → Header text → OneLine text
  between : LinesBetween (fun n => n = 0) false ts

variable {file memory stale : List UInt8} {ts : List Token}

theorem commonForm_iff_supported {s : StreamBuffer} (hwritten : Written ts file)
    (h : Regular file memory ts) (hinit : StreamBuffer.init file memory = .ok s)
    (hstale : StreamBuffer.Behind s stale) :
  CommonForm ts stale ↔ Supported ts
  := by
  constructor
  · intro hform
    refine ⟨hform.inRange, ?_, hform.between⟩
    intro text hmem hheader
    exact (harmless_iff_oneLine hheader).mp (hform.harmless text hmem)
  · intro hsupported
    refine ⟨hsupported.inRange, ?_, hsupported.between, ?_⟩
    · intro text hmem
      obtain hcomment | hheader := hwritten.line_of_mem hmem
      · exact h.comments text hmem hcomment
      · exact (harmless_iff_oneLine hheader).mpr (hsupported.header text hmem hheader)
    · intro minus digits hlast
      have hnone : stale.takeWhile isdigit = [] := by
        have hhead := h.last s stale hinit hstale minus digits hlast
        cases stale with
        | nil => rfl
        | cons d stale => simp [hhead d rfl]
      rw [hnone]
      exact Or.inl rfl

/-- Which accepted files are read with the literals that are passed to the solver. -/
theorem readDimacsFromFile_accepted_iff {parseInccnfToo : Bool} {strict : Cadical.Strictness}
    (hstrict : strict ≠ .STRICT) {name : String} {r : Cadical.ParsedDimacs}
    (haccepted : Cadical.parseDimacsNonProfiled parseInccnfToo strict name file = .ok r)
    (hcnf : r.header.foundInccnfHeader = false) (hmemory : 16384 ≤ memory.length) :
  ∃ ts, Written ts file ∧ numbers ts = r.added
    ∧ (StreamBuffer.readDimacsFromFile file memory = .ok (.ok (clausesOf r.added))
      ↔ ShortRuns 16384 file ∧ ∀ s stale, StreamBuffer.init file memory = .ok s →
        StreamBuffer.Behind s stale → CommonForm ts stale)
  := by
  obtain ⟨ts, hwritten, hnumbers, hmax, hlast⟩ :=
    Cadical.written_of_parse_dimacs hstrict haccepted hcnf
  refine ⟨ts, hwritten, hnumbers, ?_⟩
  have hmin : ∀ n ∈ numbers ts, n ≠ -2 ^ 63 := by
    rintro n hn rfl
    rw [hnumbers] at hn
    exact absurd (hmax _ hn) (by decide)
  rw [StreamBuffer.readDimacsFromFile_iff hmemory]
  apply and_congr_right
  intro _
  apply forall₂_congr
  intro s stale
  apply forall₂_congr
  intro _ _
  rw [← hnumbers] at hlast ⊢
  exact readDimacsFromFile_runOn_iff hwritten hmin hlast stale

/-- On the files that the solver accepts with a header `p cnf`, the analysis reads the clauses of
the solver if and only if the text is supported. -/
theorem readDimacsFromFile_eq_added_iff {parseInccnfToo : Bool} {name : String}
    {r : Cadical.ParsedDimacs}
    (haccepted : Cadical.parseDimacsNonProfiled parseInccnfToo .RELAXED name file = .ok r)
    (hcnf : r.header.foundInccnfHeader = false) (hmemory : 16384 ≤ memory.length) :
  ∃ ts, Written ts file ∧ numbers ts = r.added ∧ (Regular file memory ts →
    (StreamBuffer.readDimacsFromFile file memory = .ok (.ok (clausesOf r.added)) ↔ Supported ts))
  := by
  have hstrict : Cadical.Strictness.RELAXED ≠ .STRICT := by
    decide
  obtain ⟨ts, hwritten, hnumbers, hiff⟩ :=
    readDimacsFromFile_accepted_iff hstrict haccepted hcnf hmemory
  refine ⟨ts, hwritten, hnumbers, ?_⟩
  intro hregular
  rw [hiff]
  constructor
  · rintro ⟨-, hall⟩
    obtain ⟨s, stale, hinit, hstale, -⟩ :=
      StreamBuffer.readDimacsFromFile_eq hmemory hregular.words
    exact (commonForm_iff_supported hwritten hregular hinit hstale).mp (hall s stale hinit hstale)
  · intro hsupported
    refine ⟨hregular.words, ?_⟩
    intro s stale hinit hstale
    exact (commonForm_iff_supported hwritten hregular hinit hstale).mpr hsupported

/-! ### A comment in an open clause -/

/-- `p cnf 1 1`. -/
def oneClause : List UInt8 :=
  bytesOf ['p', ' ', 'c', 'n', 'f', ' ', '1', ' ', '1']

/-- A file with a comment between its header and its clause. -/
def commentInFront : List UInt8 :=
  oneClause ++ bytesOf ['\n', 'c', '\n', '1', ' ', '0', '\n']

/-- A file with a comment between a literal and the zero behind it. -/
def commentInside : List UInt8 :=
  oneClause ++ bytesOf ['\n', '1', ' ', 'c', '\n', '0', '\n']

/-- The tokens of `commentInFront`. -/
def tokensInFront : List Token :=
  [.line oneClause, .blank '\n'.toUInt8, .line ['c'.toUInt8], .blank '\n'.toUInt8,
    .number false ['1'.toUInt8], .blank ' '.toUInt8, .number false ['0'.toUInt8],
    .blank '\n'.toUInt8]

/-- The tokens of `commentInside`. -/
def tokensInside : List Token :=
  [.line oneClause, .blank '\n'.toUInt8, .number false ['1'.toUInt8], .blank ' '.toUInt8,
    .line ['c'.toUInt8], .blank '\n'.toUInt8, .number false ['0'.toUInt8], .blank '\n'.toUInt8]

theorem header_oneClause :
  Header oneClause
  := by
  have hblank : ∀ b ∈ [' '.toUInt8], isblank b = true :=
    List.forall_mem_singleton.mpr rfl
  have hspace : ∀ b ∈ [' '.toUInt8], isspace b = true :=
    List.forall_mem_singleton.mpr rfl
  have hone : ∀ b ∈ ['1'.toUInt8], isdigit b = true :=
    List.forall_mem_singleton.mpr rfl
  have hend : ∀ b ∈ ([] : List UInt8), isspace b = true ∧ b ≠ '\n'.toUInt8 := by
    simp
  exact Header.mk hblank hspace hone (List.cons_ne_nil _ _) hspace (List.cons_ne_nil _ _) hone
    (List.cons_ne_nil _ _) hend

theorem comment_letter :
  Comment ['c'.toUInt8]
  := ⟨[], rfl, by simp⟩

theorem written_digit {d b : UInt8} {w : List UInt8} (hd : isdigit d = true)
    (hb : isdigit b = false) (h : Written ts (b :: w)) :
  Written (.number false [d] :: ts) (d :: b :: w)
  := by
  have hnext : ∀ c ∈ (b :: w).head?, isdigit c = false := by
    intro c hc
    rwa [← Option.some_inj.mp hc]
  have hnumber : Written (.number false [d] :: ts) (spelling false [d] ++ b :: w) :=
    .number (List.forall_mem_singleton.mpr hd) (List.cons_ne_nil d []) hnext h
  exact hnumber

theorem written_commentInFront :
  Written tokensInFront commentInFront
  := by
  apply Written.line (Or.inr header_oneClause) (head?_newline _)
  apply Written.blank rfl
  apply Written.line (Or.inl comment_letter) (head?_newline _)
  apply Written.blank rfl
  apply written_digit rfl rfl
  apply Written.blank rfl
  apply written_digit rfl rfl
  exact Written.blank rfl .nil

theorem written_commentInside :
  Written tokensInside commentInside
  := by
  apply Written.line (Or.inr header_oneClause) (head?_newline _)
  apply Written.blank rfl
  apply written_digit rfl rfl
  apply Written.blank rfl
  apply Written.line (Or.inl comment_letter) (head?_newline _)
  apply Written.blank rfl
  apply written_digit rfl rfl
  exact Written.blank rfl .nil

/-- What the solver makes of the two files. -/
def oneClauseParsed : Cadical.ParsedDimacs :=
  ⟨[], ⟨1, 1, false, .RELAXED⟩, 1, [1, 0], [], false⟩

theorem accepted_commentInFront :
  Cadical.parseDimacsNonProfiled false .RELAXED "" commentInFront = .ok oneClauseParsed
  := by rfl

theorem accepted_commentInside :
  Cadical.parseDimacsNonProfiled false .RELAXED "" commentInside = .ok oneClauseParsed
  := by rfl

/-- The file with the comment in front of the clause is read. -/
theorem readDimacsFromFile_commentInFront :
  StreamBuffer.readDimacsFromFile commentInFront (List.replicate 16384 0) = .ok (.ok [[1]])
  := by
  have hmemory : 16384 ≤ (List.replicate 16384 (0 : UInt8)).length := by
    rw [List.length_replicate]
  obtain ⟨ts, hwritten, -, hiff⟩ :=
    readDimacsFromFile_eq_added_iff accepted_commentInFront rfl hmemory
  obtain rfl := hwritten.unique written_commentInFront
  have hline : ∀ text, Token.line text ∈ tokensInFront → text.dropWhile inLine = [] := by
    intro text hmem
    simp only [tokensInFront, List.mem_cons, Token.line.injEq, reduceCtorEq, false_or,
      List.not_mem_nil, or_false] at hmem
    obtain rfl | rfl := hmem <;> decide
  have hregular : Regular commentInFront (List.replicate 16384 0) tokensInFront := by
    refine ⟨shortRuns_of_length_lt (by decide), ?_, ?_⟩
    · intro text hmem _
      exact harmless_of_inLine (hline text hmem)
    · intro s stale _ _ minus digits hlast
      cases hlast
  have hsupported : Supported tokensInFront := by
    refine ⟨by decide, ?_, ⟨rfl, rfl, trivial⟩⟩
    intro text hmem hheader
    exact (harmless_iff_oneLine hheader).mp (harmless_of_inLine (hline text hmem))
  exact (hiff hregular).mpr hsupported

/-- The solver accepts the file with the comment in the clause, whose clause is not read. -/
theorem not_readDimacsFromFile_eq_added :
  ¬ ∀ (parseInccnfToo : Bool) (name : String) (file memory : List UInt8)
      (r : Cadical.ParsedDimacs),
    Cadical.parseDimacsNonProfiled parseInccnfToo .RELAXED name file = .ok r →
    r.header.foundInccnfHeader = false → 16384 ≤ memory.length →
    StreamBuffer.readDimacsFromFile file memory = .ok (.ok (clausesOf r.added))
  := by
  intro h
  have hmemory : 16384 ≤ (List.replicate 16384 (0 : UInt8)).length := by
    rw [List.length_replicate]
  have hread := h false "" commentInside _ oneClauseParsed accepted_commentInside rfl hmemory
  obtain ⟨ts, hwritten, -, hiff⟩ :=
    readDimacsFromFile_accepted_iff (by decide) accepted_commentInside rfl hmemory
  obtain rfl := hwritten.unique written_commentInside
  obtain ⟨hshort, hform⟩ := hiff.mp hread
  obtain ⟨s, stale, hinit, hstale, -⟩ := StreamBuffer.readDimacsFromFile_eq hmemory hshort
  exact absurd (hform s stale hinit hstale).between.2.1 (by decide)

end CnfTools
