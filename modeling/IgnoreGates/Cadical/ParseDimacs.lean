import IgnoreGates.Cadical.ParseAux
import IgnoreGates.Text.Result
import IgnoreGates.Text.Tokens

/-!
# The parser of DIMACS files

`parse_dimacs_non_profiled` reads comments with embedded options, a header, the literals of the
clauses and, behind the header `p inccnf`, cubes.  The loops are bounded by a number of
iterations, which the length of the file suffices for.

A file with the header `p cnf` that is accepted is a text in DIMACS format, and the literals that
are passed to the solver are its numbers.
-/

namespace Cadical

open Ctype Dimacs

/-- How strictly a file is read. -/
inductive Strictness where
  | FORCED
  | RELAXED
  | STRICT
  deriving DecidableEq, Repr

/-- What the header says, and how strictly the file is read behind it. -/
structure DimacsHeader where
  vars : Nat
  clauses : Nat
  foundInccnfHeader : Bool
  strict : Strictness

/-- `vars`, `lit` and `parsed` behind the literals, with the literals that have been passed to the
solver, and the byte and the file at which the loop has been left. -/
structure DimacsBody where
  vars : Nat
  lit : Int
  parsed : Nat
  added : List Int
  ch : Option UInt8
  file : File

/-- `vars` and `lit` behind the cubes, with the literals of the cubes and the file behind them. -/
structure DimacsCubes where
  vars : Nat
  lit : Int
  cubes : List Int
  file : File

/-- What has been read from a file: the options in front of the header, the header, the number of
variables, what has been passed to the solver and to the list of cubes, and the value of
`parse_inccnf_too`. -/
structure ParsedDimacs where
  options : List (List UInt8)
  header : DimacsHeader
  vars : Nat
  added : List Int
  cubes : List Int
  parseInccnfToo : Bool

namespace File

/-! ### Bytes -/

/-- `do ch = parse_char (); while (p (ch));`, where `p` does not hold of `EOF`. -/
def skip (f : File) (p : UInt8 → Bool) : Option UInt8 × File :=
  { f with
    bytes := f.bytes.dropWhile p
    lineno := f.lineno + (f.bytes.takeWhile p).count '\n'.toUInt8 }.get

/-- `PER`. -/
def error {α : Type} (f : File) (text : String) : Except ParseError α :=
  .error (.message (f.per text))

/-- `if (!p (ch)) PER (text);`, where `p` does not hold of `EOF`. -/
def require (f : File) (p : UInt8 → Bool) (ch : Option UInt8) (text : String) :
    Except ParseError UInt8 :=
  match ch.filter p with
  | some b => .ok b
  | none => f.error text

/-- The characters that are passed over between literals, and in front of the header. -/
def isgap (b : UInt8) : Bool :=
  b = ' '.toUInt8 ∨ b = '\n'.toUInt8 ∨ b = '\t'.toUInt8 ∨ b = '\r'.toUInt8

/-- The bytes of a comment. -/
def inComment (b : UInt8) : Bool :=
  b ≠ '\n'.toUInt8

/-- `parse_string`. -/
def parseString : List Char → Char → File → Except ParseError File
  | [], _, f => .ok f
  | c :: cs, prev, f => do
      let _ ← f.get.2.require (· = c.toUInt8) f.get.1
        (if c = ' ' then "expected space after '" ++ toString prev ++ "'"
          else "expected '" ++ toString c ++ "' after '" ++ toString prev ++ "'")
      parseString cs c f.get.2

/-- `parse_positive_int`, with its error as a result of the parser. -/
def number (f : File) (ch : UInt8) (name : String) :
    Except ParseError (Nat × Option UInt8 × File) :=
  (f.parsePositiveInt ch name).mapError ParseError.message

/-! ### The header -/

/-- The option in a comment: what follows the first minus sign in front of the first zero byte. -/
def option (buf : List UInt8) : List (List UInt8) :=
  let o := (buf.takeWhile (· ≠ 0)).dropWhile (· ≠ '-'.toUInt8)
  if o = [] then [] else [o]

/-- The comments in front of the header: the options in them, and the byte behind them. -/
def headerComments (strict : Strictness) :
    Nat → File → Except ParseError (List (List UInt8) × Option UInt8 × File)
  | 0, _ => .error .outOfFuel
  | n + 1, f =>
      match f.get with
      | (none, f) => .ok ([], none, f)
      | (some ch, f) =>
          if strict ≠ .STRICT ∧ isgap ch then
            headerComments strict n f
          else if ch = 'c'.toUInt8 then do
            let buf := (f.bytes.takeWhile inComment).filter (· ≠ '\r'.toUInt8)
            let (ch, f) := f.skip inComment
            let _ ← f.require (fun _ => true) ch "unexpected end-of-file in header comment"
            let (options, ch, f) ← headerComments strict n f
            return (option buf ++ options, ch, f)
          else
            .ok ([], some ch, f)

/-- The white space behind `p`. -/
def behindP (strict : Strictness) (f : File) : Except ParseError (Option UInt8 × File) := do
  let (ch, f) := f.get
  if strict = .STRICT then
    let _ ← f.require (· = ' '.toUInt8) ch "expected space after 'p'"
    return f.get
  else
    let _ ← f.require isblank ch "expected white space after 'p'"
    return f.skip isblank

/-- `while (ch != '\n')`: the white space at the end of a header. -/
def restOfHeader (f : File) (ch : Option UInt8) (text : String) : Except ParseError File := do
  if ch = some '\n'.toUInt8 then
    return f
  else
    let _ ← f.require isspace ch text
    let (ch, f) := f.skip (fun b => isspace b && inComment b)
    let _ ← f.require (· = '\n'.toUInt8) ch text
    return f

/-- The header `p cnf` behind its `c`, without additional white space: the two numbers. -/
def strictHeader (f : File) : Except ParseError (Nat × Nat × File) := do
  let f ← parseString ['n', 'f', ' '] 'c' f
  let (ch, f) := f.get
  let ch ← f.require isdigit ch "expected digit after 'p cnf '"
  let (vars, ch, f) ← f.number ch "<max-var>"
  let _ ← f.require (· = ' '.toUInt8) ch ("expected ' ' after 'p cnf " ++ toString vars ++ "'")
  let (ch, f) := f.get
  let ch ← f.require isdigit ch ("expected digit after 'p cnf " ++ toString vars ++ " '")
  let (clauses, ch, f) ← f.number ch "<num-clauses>"
  let _ ← f.require (· = '\n'.toUInt8) ch
    ("expected new-line after 'p cnf " ++ toString vars ++ " " ++ toString clauses ++ "'")
  return (vars, clauses, f)

/-- The header `p cnf` behind its `c`, with additional white space: the two numbers. -/
def relaxedHeader (f : File) : Except ParseError (Nat × Nat × File) := do
  let (ch, f) := f.get
  let _ ← f.require (· = 'n'.toUInt8) ch "expected 'n' after 'p c'"
  let (ch, f) := f.get
  let _ ← f.require (· = 'f'.toUInt8) ch "expected 'f' after 'p cn'"
  let (ch, f) := f.get
  let _ ← f.require isspace ch "expected space after 'p cnf'"
  let (ch, f) := f.skip isspace
  let ch ← f.require isdigit ch "expected digit after 'p cnf '"
  let (vars, ch, f) ← f.number ch "<max-var>"
  let _ ← f.require isspace ch ("expected space after 'p cnf " ++ toString vars ++ "'")
  let (ch, f) := f.skip isspace
  let ch ← f.require isdigit ch ("expected digit after 'p cnf " ++ toString vars ++ " '")
  let (clauses, ch, f) ← f.number ch "<num-clauses>"
  let f ← f.restOfHeader ch
    ("expected new-line after 'p cnf " ++ toString vars ++ " " ++ toString clauses ++ "'")
  return (vars, clauses, f)

/-- The header `p inccnf` behind its `i`. -/
def inccnfHeader (strict : Strictness) (f : File) : Except ParseError File := do
  let f ← parseString ['n', 'c', 'c', 'n', 'f'] 'i' f
  let (ch, f) := f.get
  if strict = .STRICT then
    let _ ← f.require (· = '\n'.toUInt8) ch "expected new-line after 'p inccnf'"
    return f
  else
    f.restOfHeader ch "expected new-line after 'p inccnf'"

/-- The header, which starts with the byte `ch`. -/
def header (parseInccnfToo : Bool) (strict : Strictness) (ch : Option UInt8) (f : File) :
    Except ParseError (DimacsHeader × File) := do
  let _ ← f.require (· = 'p'.toUInt8) ch "expected 'c' or 'p'"
  let (ch, f) ← behindP strict f
  if ch = some 'c'.toUInt8 then
    let (vars, clauses, f) ← if strict = .STRICT then f.strictHeader else f.relaxedHeader
    return ({ vars, clauses, foundInccnfHeader := false, strict }, f)
  else if parseInccnfToo = false then
    f.error "expected 'c' after 'p '"
  else
    let _ ← f.require (· = 'i'.toUInt8) ch "expected 'c' or 'i' after 'p '"
    let f ← inccnfHeader strict f
    return ({ vars := 0, clauses := 0, foundInccnfHeader := true, strict := .FORCED }, f)

/-! ### Literals -/

/-- The error of `parse_lit` for the letter in front of a cube. -/
def cubeToken : String :=
  "unexpected 'a' in CNF"

/-- What may stand behind a literal, apart from a carriage return in front of it. -/
def isend (b : UInt8) : Bool :=
  b = 'c'.toUInt8 ∨ b = ' '.toUInt8 ∨ b = '\t'.toUInt8 ∨ b = '\n'.toUInt8

/-- The sign of a literal and its first digit, with the file behind it. -/
def firstDigit (f : File) (ch : Option UInt8) : Except ParseError (Bool × UInt8 × File) := do
  if ch = some '-'.toUInt8 then
    let (ch, f) := f.get
    let d ← f.require isdigit ch "expected digit after '-'"
    return (true, d, f)
  else
    let d ← f.require isdigit ch "expected digit or '-'"
    return (false, d, f)

/-- `parse_lit`: the literal, `vars`, the byte behind the literal and the file behind that.  The
loop is the one of `parse_positive_int`, with another text. -/
def parseLit (f : File) (ch : Option UInt8) (vars : Nat) (strict : Strictness) :
    Except ParseError (Int × Nat × Option UInt8 × File) :=
  if ch = some 'a'.toUInt8 then
    .error (.message cubeToken)
  else do
    let (minus, d, f) ← f.firstDigit ch
    let (n, ch, f) ← (f.parsePositiveInt d "").mapError
      (fun _ => ParseError.message (f.per "literal too large"))
    let lit : Int := if minus then -n else n
    let (ch, f) := if ch = some '\r'.toUInt8 then f.get else (ch, f)
    if ch.all isend = false then
      f.error ("expected white space after '" ++ toString lit ++ "'")
    else if n ≤ vars then
      return (lit, vars, ch, f)
    else if strict ≠ .FORCED then
      f.error ("literal " ++ toString lit ++ " exceeds maximum variable " ++ toString vars)
    else
      return (lit, n, ch, f)

/-- The comment directly behind a literal, if there is one. -/
def gluedComment (f : File) (ch : Option UInt8) : Except ParseError File := do
  if ch = some 'c'.toUInt8 then
    let (ch, f) := f.skip inComment
    let _ ← f.require (fun _ => true) ch "unexpected end-of-file in comment"
    return f
  else
    return f

/-- The loop over the literals of the clauses. -/
def body (h : DimacsHeader) : Nat → Nat → Int → Nat → File → Except ParseError DimacsBody
  | 0, _, _, _, _ => .error .outOfFuel
  | n + 1, vars, lit, parsed, f =>
      match f.get with
      | (none, file) => .ok { vars, lit, parsed, added := [], ch := none, file }
      | (some ch, f) =>
          if isgap ch then
            body h n vars lit parsed f
          else if ch = 'c'.toUInt8 then
            match f.skip inComment with
            | (none, file) => .ok { vars, lit, parsed, added := [], ch := none, file }
            | (some _, f) => body h n vars lit parsed f
          else if ch = 'a'.toUInt8 ∧ h.foundInccnfHeader then
            .ok { vars, lit, parsed, added := [], ch := some ch, file := f }
          else do
            let (lit, vars, ch, f) ← f.parseLit (some ch) vars h.strict
            let f ← f.gluedComment ch
            if h.foundInccnfHeader = false ∧ lit = 0 then
              if h.clauses ≤ parsed ∧ h.strict ≠ .FORCED then
                f.error "too many clauses"
              else
                let r ← body h n vars lit (parsed + 1) f
                return { r with added := lit :: r.added }
            else
              let r ← body h n vars lit parsed f
              return { r with added := lit :: r.added }

/-! ### Cubes -/

/-- The loop behind the zero of a cube: whether there is another cube, and the file behind its
letter or at the end.  Behind a comment the byte is the line end, which is no letter. -/
def behindZero : Nat → File → Except ParseError (Bool × File)
  | 0, _ => .error .outOfFuel
  | n + 1, f =>
      if f.get.1.any isgap then
        behindZero n f.get.2
      else do
        let (ch, f) := if f.get.1 = some 'c'.toUInt8 then f.get.2.skip inComment else f.get
        if ch = none then
          return (false, f)
        else
          let _ ← f.require (· = 'a'.toUInt8) ch "expected 'a' or end-of-file after zero"
          return (true, f)

/-- The loop over the literals of the cubes. -/
def cubes (strict : Strictness) : Nat → Nat → Int → File → Except ParseError DimacsCubes
  | 0, _, _, _ => .error .outOfFuel
  | n + 1, vars, lit, f =>
      if f.get.1.any isgap then
        cubes strict n vars lit f.get.2
      else if f.get.1 = some 'c'.toUInt8 then
        match f.get.2.skip inComment with
        | (none, file) => .ok { vars, lit, cubes := [], file }
        | (some _, f) => cubes strict n vars lit f
      else if f.get.1 = some 'a'.toUInt8 then
        f.get.2.error "two 'a' in a row"
      else do
        let (lit, vars, ch, f) ← f.get.2.parseLit f.get.1 vars strict
        let f ← f.gluedComment ch
        if lit ≠ 0 then
          let r ← cubes strict n vars lit f
          return { r with cubes := lit :: r.cubes }
        else
          let (more, f) ← behindZero n f
          if more then
            -- `INT_MIN`
            let r ← cubes strict n vars (-2147483648) f
            return { r with cubes := lit :: r.cubes }
          else
            return { vars, lit, cubes := [lit], file := f }

end File

/-- `parse_dimacs_non_profiled` on a file with the given name and bytes.  `parse_inccnf_too` says
whether the parser has been given a place for the flag of this name. -/
def parseDimacsNonProfiled (parseInccnfToo : Bool) (strict : Strictness) (name : String)
    (bytes : List UInt8) : Except ParseError ParsedDimacs := do
  let (options, ch, f) ← File.headerComments strict (bytes.length + 1) { name, bytes, lineno := 1 }
  let (header, f) ← f.header parseInccnfToo strict ch
  let body ← File.body header (f.bytes.length + 1) header.vars 0 0 f
  if body.lit ≠ 0 then
    body.file.error "last clause without terminating '0'"
  else if header.foundInccnfHeader = false ∧ body.parsed < header.clauses
      ∧ header.strict ≠ .FORCED then
    body.file.error "clause missing"
  else if body.ch = some 'a'.toUInt8 then
    let r ← File.cubes header.strict (body.file.bytes.length + 1) body.vars body.lit body.file
    if r.lit ≠ 0 then
      r.file.error "last cube without terminating '0'"
    else
      return ⟨options, header, r.vars, body.added, r.cubes, true⟩
  else
    return ⟨options, header, body.vars, body.added, [], false⟩

namespace File

/-! ### Iterations -/

variable {α : Type} {f : File}

theorem ok_ne (a : α) :
  (Except.ok a : Except ParseError α) ≠ .error .outOfFuel
  := nofun

theorem error_ne (text : String) :
  f.error (α := α) text ≠ .error .outOfFuel
  := by
  intro h
  cases Except.error.inj h

theorem require_ne (p : UInt8 → Bool) (ch : Option UInt8) (text : String) :
  f.require p ch text ≠ .error .outOfFuel
  := by
  rw [require]
  cases ch.filter p with
  | none => exact error_ne text
  | some b => exact nofun

theorem mapError_ne {ε : Type} (g : ε → ParseError) (hg : ∀ e, g e ≠ .outOfFuel)
    (x : Except ε α) :
  x.mapError g ≠ .error .outOfFuel
  := by
  cases x with
  | error e => exact fun h => hg e (Except.error.inj h)
  | ok a => exact nofun

/-- Reading a number takes as many iterations as there are bytes left. -/
theorem number_ne (ch : UInt8) (name : String) :
  f.number ch name ≠ .error .outOfFuel
  := mapError_ne ParseError.message (fun _ h => nomatch h) _

theorem parseString_ne (cs : List Char) (prev : Char) (f : File) :
  parseString cs prev f ≠ .error .outOfFuel
  := by
  induction cs generalizing prev f with
  | nil => exact nofun
  | cons c cs ih =>
      apply Except.bind_ne_error (require_ne _ _ _)
      intro _ _
      apply ih

theorem behindP_ne (strict : Strictness) :
  behindP strict f ≠ .error .outOfFuel
  := by
  rw [behindP]
  dsimp only
  split
  · exact Except.bind_ne_error (require_ne _ _ _) (fun _ _ => ok_ne _)
  · exact Except.bind_ne_error (require_ne _ _ _) (fun _ _ => ok_ne _)

/-- The rest of the header line ends within the bytes that are left. -/
theorem restOfHeader_ne (ch : Option UInt8) (text : String) :
  f.restOfHeader ch text ≠ .error .outOfFuel
  := by
  rw [restOfHeader]
  split
  · exact ok_ne _
  · apply Except.bind_ne_error (require_ne _ _ _)
    intro _ _
    exact Except.bind_ne_error (require_ne _ _ _) (fun _ _ => ok_ne _)

/-- Reading a strict header does not run out of fuel. -/
theorem strictHeader_ne :
  f.strictHeader ≠ .error .outOfFuel
  := by
  apply Except.bind_ne_error (parseString_ne _ _ _)
  intro f _
  apply Except.bind_ne_error (require_ne _ _ _)
  intro ch _
  apply Except.bind_ne_error (number_ne _ _)
  intro ⟨vars, ch, f⟩ _
  apply Except.bind_ne_error (require_ne _ _ _)
  intro _ _
  apply Except.bind_ne_error (require_ne _ _ _)
  intro ch _
  apply Except.bind_ne_error (number_ne _ _)
  intro ⟨clauses, ch, f⟩ _
  exact Except.bind_ne_error (require_ne _ _ _) (fun _ _ => ok_ne _)

/-- Reading a relaxed header does not run out of fuel. -/
theorem relaxedHeader_ne :
  f.relaxedHeader ≠ .error .outOfFuel
  := by
  apply Except.bind_ne_error (require_ne _ _ _)
  intro _ _
  apply Except.bind_ne_error (require_ne _ _ _)
  intro _ _
  apply Except.bind_ne_error (require_ne _ _ _)
  intro _ _
  apply Except.bind_ne_error (require_ne _ _ _)
  intro ch _
  apply Except.bind_ne_error (number_ne _ _)
  intro ⟨vars, ch, f⟩ _
  apply Except.bind_ne_error (require_ne _ _ _)
  intro _ _
  apply Except.bind_ne_error (require_ne _ _ _)
  intro ch _
  apply Except.bind_ne_error (number_ne _ _)
  intro ⟨clauses, ch, f⟩ _
  exact Except.bind_ne_error (restOfHeader_ne _ _) (fun _ _ => ok_ne _)

theorem inccnfHeader_ne (strict : Strictness) :
  inccnfHeader strict f ≠ .error .outOfFuel
  := by
  apply Except.bind_ne_error (parseString_ne _ _ _)
  intro f _
  dsimp only
  split
  · exact Except.bind_ne_error (require_ne _ _ _) (fun _ _ => ok_ne _)
  · exact restOfHeader_ne _ _

/-- Reading the header does not run out of fuel. -/
theorem header_ne (parseInccnfToo : Bool) (strict : Strictness) (ch : Option UInt8) :
  f.header parseInccnfToo strict ch ≠ .error .outOfFuel
  := by
  apply Except.bind_ne_error (require_ne _ _ _)
  intro _ _
  apply Except.bind_ne_error (behindP_ne _)
  intro ⟨ch, f⟩ _
  dsimp only
  split
  · split
    · exact Except.bind_ne_error strictHeader_ne (fun _ _ => ok_ne _)
    · exact Except.bind_ne_error relaxedHeader_ne (fun _ _ => ok_ne _)
  · split
    · exact error_ne _
    · apply Except.bind_ne_error (require_ne _ _ _)
      intro _ _
      exact Except.bind_ne_error (inccnfHeader_ne _) (fun _ _ => ok_ne _)

/-! ### Bytes that have been read -/

variable {w : List UInt8} {ch ch' : Option UInt8} {f' : File} {p : UInt8 → Bool} {text : String}

/-- The byte `ch` has been read in front of the bytes `w`, and the file behind it is left. -/
structure Got (w : List UInt8) (ch : Option UInt8) (f : File) : Prop where
  eq_append : w = ch.toList ++ f.bytes
  at_end : ch = none → f.bytes = []

/-- Reading a byte gives the first one that is left. -/
theorem got_get (f : File) :
  Got f.bytes f.get.1 f.get.2
  := by
  cases h : f.bytes with
  | nil =>
      rw [get_nil h]
      exact ⟨h.symm, fun _ => h⟩
  | cons b bytes =>
      obtain ⟨lineno, hget⟩ := get_cons h
      rw [hget]
      exact ⟨rfl, nofun⟩

/-- Skipping bytes gives the first one that is not skipped. -/
theorem got_skip (f : File) (p : UInt8 → Bool) :
  Got (f.bytes.dropWhile p) (f.skip p).1 (f.skip p).2
  := got_get { f with
    bytes := f.bytes.dropWhile p
    lineno := f.lineno + (f.bytes.takeWhile p).count '\n'.toUInt8 }

theorem Got.head (h : Got w ch f) :
  w.head? = ch
  := by
  rw [h.eq_append]
  cases ch with
  | none => rw [h.at_end rfl]; rfl
  | some b => rfl

/-- The bytes that are left are not more than those from the current one on. -/
theorem Got.length_le (h : Got w ch f) :
  f.bytes.length ≤ w.length
  := by
  rw [h.eq_append, List.length_append]
  omega

theorem Got.eq_cons {b : UInt8} (h : Got w (some b) f) :
  w = b :: f.bytes
  := h.eq_append

theorem Got.eq_nil (h : Got w none f) :
  w = [] ∧ f.bytes = []
  := ⟨h.eq_append.trans (h.at_end rfl), h.at_end rfl⟩

theorem Got.of_skip {ch : Option UInt8} (h : f.skip p = (ch, f')) :
  Got (f.bytes.dropWhile p) ch f'
  := by
  have hskip := got_skip f p
  rwa [h] at hskip

theorem Got.of_get (h : f.get = (ch, f')) :
  Got f.bytes ch f'
  := by
  have hget := got_get f
  rwa [h] at hget

/-- The byte at which skipping ends. -/
theorem not_of_skip {b : UInt8} (h : Got (f.bytes.dropWhile p) (some b) f') :
  p b = false
  := by
  have hne : f.bytes.dropWhile p ≠ [] := by
    rw [h.eq_cons]
    exact List.cons_ne_nil _ _
  have hhead := List.head_dropWhile_not p hne
  simp only [h.eq_cons, List.head_cons] at hhead
  exact hhead

/-- What is required is there and has the property. -/
theorem of_require {b : UInt8} (h : f.require p ch text = .ok b) :
  ch = some b ∧ p b = true
  := by
  rw [require] at h
  cases hfilter : ch.filter p with
  | none =>
      rw [hfilter] at h
      cases h
  | some c =>
      rw [hfilter] at h
      cases h
      exact Option.filter_eq_some_iff.mp hfilter

/-- After a required byte, the text starts with it. -/
theorem Got.require {b : UInt8} (hgot : Got w ch f) (h : f'.require p ch text = .ok b) :
  Got w (some b) f ∧ p b = true
  := by
  obtain ⟨hch, hb⟩ := of_require h
  exact ⟨hch ▸ hgot, hb⟩

/-- A number goes up to a byte that is no digit. -/
theorem of_parsePositiveInt {d : UInt8} {name : String} {n : Nat} (hd : isdigit d = true)
    (h : f.parsePositiveInt d name = .ok (n, ch', f')) :
  ∃ ds w', f.bytes = ds ++ w' ∧ Got w' ch' f' ∧ (∀ b ∈ d :: ds, isdigit b = true)
    ∧ n = ofDigits 0 (d :: ds) ∧ n ≤ intMax ∧ ∀ b ∈ ch', isdigit b = false
  := by
  have hle : d.toNat - 48 ≤ intMax := by
    simp only [isdigit, decide_eq_true_eq] at hd
    rw [intMax]
    omega
  obtain ⟨ds, hbytes, hds, hn, hmax, hch, hnone⟩ := of_parsePositiveIntLoop hle h
  refine ⟨ds, ch'.toList ++ f'.bytes, hbytes, ⟨rfl, hnone⟩, List.forall_mem_cons.mpr ⟨hd, hds⟩, ?_,
    hmax, hch⟩
  rw [hn, ofDigits_cons, Nat.mul_zero, Nat.zero_add]

/-- A number is read from a digit on up to the first byte that is none. -/
theorem of_number {d : UInt8} {name : String} {n : Nat} (hd : isdigit d = true)
    (h : f.number d name = .ok (n, ch', f')) :
  ∃ ds w', f.bytes = ds ++ w' ∧ Got w' ch' f' ∧ (∀ b ∈ d :: ds, isdigit b = true)
  := by
  obtain ⟨ds, w', hbytes, hgot, hds, -⟩ := of_parsePositiveInt hd (Except.of_mapError_eq_ok h)
  exact ⟨ds, w', hbytes, hgot, hds⟩

/-! ### Literals that have been read -/

theorem isspace_of_isgap {b : UInt8} (h : isgap b = true) :
  isspace b = true
  := by
  simp only [isgap, decide_eq_true_eq] at h
  obtain rfl | rfl | rfl | rfl := h <;> rfl

/-- What ends a number is a comment or white space. -/
theorem isend_cases {b : UInt8} (h : isend b = true) :
  b = 'c'.toUInt8 ∨ b ≠ 'c'.toUInt8 ∧ isspace b = true
  := by
  simp only [isend, decide_eq_true_eq] at h
  obtain rfl | rfl | rfl | rfl := h
  · exact Or.inl rfl
  · exact Or.inr (by decide)
  · exact Or.inr (by decide)
  · exact Or.inr (by decide)

theorem comment_takeWhile (w : List UInt8) :
  Comment ('c'.toUInt8 :: w.takeWhile inComment)
  := by
  refine ⟨_, rfl, ?_⟩
  intro b hb
  have hin := List.mem_takeWhile_imp hb
  simpa [inComment] using hin

/-- A comment with its line end is passed over. -/
theorem extends_comment {b : UInt8} (h : Got (f.bytes.dropWhile inComment) (some b) f') :
  Extends ('c'.toUInt8 :: f.bytes) [] f'.bytes
  := by
  have hend : b = '\n'.toUInt8 := by
    simpa [inComment] using not_of_skip h
  have hline := extends_line_break (Or.inl (comment_takeWhile f.bytes)) f'.bytes
  rw [← hend, ← h.eq_cons, List.cons_append, List.takeWhile_append_dropWhile] at hline
  exact hline

/-- A comment may go up to the end of the file. -/
theorem extends_last_comment (h : Got (f.bytes.dropWhile inComment) none f') :
  Extends ('c'.toUInt8 :: f.bytes) [] []
  := by
  have hline := extends_line (w := []) (Or.inl (comment_takeWhile f.bytes)) (by simp)
  rw [← h.eq_nil.1, List.cons_append, List.takeWhile_append_dropWhile, h.eq_nil.1] at hline
  exact hline

/-- The first digit of a literal stands behind its sign. -/
theorem of_firstDigit {minus : Bool} {d : UInt8} (hgot : Got w ch f)
    (h : f.firstDigit ch = .ok (minus, d, f')) :
  isdigit d = true ∧ w = spelling minus (d :: f'.bytes)
  := by
  rw [firstDigit] at h
  split at h
  · next hch =>
      rcases hget : f.get with ⟨c, f₁⟩
      rw [hget] at h
      obtain ⟨d', hrequire, h⟩ := Except.of_bind_eq_ok h
      cases h
      obtain ⟨rfl, hdigit⟩ := of_require hrequire
      rw [hch] at hgot
      refine ⟨hdigit, ?_⟩
      rw [hgot.eq_cons, (Got.of_get hget).eq_cons]
      rfl
  · obtain ⟨d', hrequire, h⟩ := Except.of_bind_eq_ok h
    cases h
    obtain ⟨rfl, hdigit⟩ := of_require hrequire
    exact ⟨hdigit, hgot.eq_cons⟩

/-- The carriage return behind a literal is white space. -/
theorem of_carriageReturn (hgot : Got w ch f)
    (h : (if ch = some '\r'.toUInt8 then f.get else (ch, f)) = (ch', f')) :
  ∃ w', Got w' ch' f' ∧ Extends w [] w' ∧ w'.length ≤ w.length
  := by
  split at h
  · next hch =>
      rw [hch] at hgot
      refine ⟨f.bytes, Got.of_get h, ?_, hgot.length_le⟩
      rw [hgot.eq_cons]
      exact extends_blanks (s := ['\r'.toUInt8]) (List.forall_mem_singleton.mpr rfl) _
  · cases h
    exact ⟨w, hgot, Extends.refl w, le_rfl⟩

/-- What `parse_lit` reads is a number up to `INT_MAX`, and perhaps a carriage return. -/
theorem of_parseLit {vars vars' : Nat} {strict : Strictness} {lit : Int} (hgot : Got w ch f)
    (h : f.parseLit ch vars strict = .ok (lit, vars', ch', f')) :
  ∃ w', Got w' ch' f' ∧ Extends w [lit] w' ∧ lit.natAbs ≤ intMax
    ∧ (∀ b ∈ ch', isend b = true) ∧ w'.length < w.length
  := by
  rw [parseLit] at h
  split at h
  · cases h
  · obtain ⟨⟨minus, d, f₁⟩, hfirst, h⟩ := Except.of_bind_eq_ok h
    obtain ⟨⟨n, ch₁, f₂⟩, hnumber, h⟩ := Except.of_bind_eq_ok h
    obtain ⟨hd, rfl⟩ := of_firstDigit hgot hfirst
    obtain ⟨ds, w₁, hbytes, hgot₁, hds, hn, hmax, hnext⟩ :=
      of_parsePositiveInt hd (Except.of_mapError_eq_ok hnumber)
    dsimp only at h
    generalize hcr : (if ch₁ = some '\r'.toUInt8 then f₂.get else (ch₁, f₂)) = r at h
    obtain ⟨ch₂, f₃⟩ := r
    obtain ⟨w₂, hgot₂, hcarriage, hlength⟩ := of_carriageReturn hgot₁ hcr
    have hw : spelling minus (d :: f₁.bytes) = spelling minus (d :: ds) ++ w₁ := by
      rw [hbytes]
      cases minus <;> rfl
    have hvalue : (if minus = true then -(n : Int) else n) = value minus (d :: ds) := by
      rw [hn, value]
    have hnumber : Extends (spelling minus (d :: ds) ++ w₁) [value minus (d :: ds)] w₁ := by
      apply extends_number minus hds (List.cons_ne_nil d ds)
      rwa [hgot₁.head]
    have hspec : ∃ w', Got w' ch₂ f₃ ∧ Extends (spelling minus (d :: ds) ++ w₁)
        [value minus (d :: ds)] w' ∧ (value minus (d :: ds)).natAbs ≤ intMax
        ∧ w'.length < (spelling minus (d :: ds) ++ w₁).length := by
      refine ⟨w₂, hgot₂, hnumber.trans hcarriage, ?_, ?_⟩
      · rw [← hvalue]
        split <;> omega
      · have hpos : 0 < (spelling minus (d :: ds)).length := by
          cases minus <;> exact Nat.succ_pos _
        rw [List.length_append]
        omega
    rw [hw]
    rw [hvalue] at h
    obtain ⟨w', hgot', hextends, hle, hlt⟩ := hspec
    split at h
    · cases h
    · next hall =>
        have hend : ∀ b ∈ ch₂, isend b = true := by
          intro b hb
          rw [Bool.not_eq_false, hb] at hall
          exact hall
        split at h
        · cases h
          exact ⟨w', hgot', hextends, hle, hend, hlt⟩
        · split at h
          · cases h
          · cases h
            exact ⟨w', hgot', hextends, hle, hend, hlt⟩

/-- A comment behind a literal is read up to the end of its line. -/
theorem of_gluedComment (hgot : Got w ch f) (hend : ∀ b ∈ ch, isend b = true)
    (h : f.gluedComment ch = .ok f') :
  Extends w [] f'.bytes ∧ f'.bytes.length ≤ w.length
  := by
  rw [gluedComment] at h
  split at h
  · next hch =>
      rw [hch] at hgot
      rcases hskip : f.skip inComment with ⟨c, f₁⟩
      rw [hskip] at h
      obtain ⟨b, hrequire, h⟩ := Except.of_bind_eq_ok h
      cases h
      obtain ⟨rfl, -⟩ := of_require hrequire
      have hskip := Got.of_skip hskip
      have hlength := hskip.length_le
      have hdrop := (List.dropWhile_suffix inComment (l := f.bytes)).length_le
      rw [hgot.eq_cons]
      refine ⟨extends_comment hskip, ?_⟩
      rw [List.length_cons]
      omega
  · next hch =>
      cases h
      refine ⟨?_, hgot.length_le⟩
      cases ch with
      | none =>
          rw [hgot.eq_nil.1, hgot.eq_nil.2]
          exact Extends.refl []
      | some b =>
          obtain rfl | ⟨-, hspace⟩ := isend_cases (hend b rfl)
          · exact absurd rfl hch
          · rw [hgot.eq_cons]
            exact extends_blanks (s := [b]) (by simpa using hspace) _

/-! ### Headers that have been read -/

/-- White space of which the first byte has been read. -/
theorem Got.space {b : UInt8} (hgot : Got w (some b) f) (hb : p b = true)
    (hskip : f.skip p = (ch', f')) :
  ∃ s w', w = s ++ w' ∧ s ≠ [] ∧ (∀ d ∈ s, p d = true) ∧ Got w' ch' f'
  := by
  refine ⟨b :: f.bytes.takeWhile p, f.bytes.dropWhile p, ?_, List.cons_ne_nil _ _, ?_,
    Got.of_skip hskip⟩
  · rw [List.cons_append, List.takeWhile_append_dropWhile, hgot.eq_cons]
  · exact List.forall_mem_cons.mpr ⟨hb, fun d hd => List.mem_takeWhile_imp hd⟩

/-- The rest of the header line is white space up to the line end. -/
theorem of_restOfHeader (hgot : Got w ch f) (h : f.restOfHeader ch text = .ok f') :
  ∃ s, w = s ++ '\n'.toUInt8 :: f'.bytes ∧ ∀ b ∈ s, isspace b = true ∧ b ≠ '\n'.toUInt8
  := by
  rw [restOfHeader] at h
  split at h
  · next hch =>
      cases h
      rw [hch] at hgot
      exact ⟨[], hgot.eq_cons, by simp⟩
  · next hch =>
      obtain ⟨b, hrequire, h⟩ := Except.of_bind_eq_ok h
      have hgot' := hgot
      obtain ⟨hgot, hb⟩ := hgot.require hrequire
      rcases hskip : f.skip (fun b => isspace b && inComment b) with ⟨c, f₁⟩
      rw [hskip] at h
      dsimp only at h
      obtain ⟨d, hrequire, h⟩ := Except.of_bind_eq_ok h
      cases h
      have hin : (isspace b && inComment b) = true := by
        rw [hb, inComment, Bool.true_and, decide_eq_true_eq]
        rintro rfl
        exact hch (hgot'.head.symm.trans hgot.head)
      obtain ⟨s, w', rfl, -, hs, hgot'⟩ := hgot.space hin hskip
      obtain ⟨hgot', hd⟩ := hgot'.require hrequire
      refine ⟨s, ?_, ?_⟩
      · rw [hgot'.eq_cons, of_decide_eq_true hd]
      · intro b hb
        simpa [inComment] using hs b hb

/-- The comments before the header add no clauses. -/
theorem of_headerComments {strict : Strictness} {n : Nat}
    {options : List (List UInt8)} (h : headerComments strict n f = .ok (options, ch', f')) :
  ∃ w, Got w ch' f' ∧ Extends f.bytes [] w
  := by
  induction n generalizing f options with
  | zero => cases h
  | succ n ih =>
      rw [headerComments] at h
      rcases hget : f.get with ⟨ch, f₁⟩
      have hgot := Got.of_get hget
      rw [hget] at h
      cases ch with
      | none =>
          cases h
          exact ⟨f.bytes, hgot, Extends.refl _⟩
      | some ch =>
          dsimp only at h
          rw [hgot.eq_cons]
          split at h
          · next hgap =>
              obtain ⟨w, hgot', hextends⟩ := ih h
              refine ⟨w, hgot', ?_⟩
              apply Extends.trans (extends_blanks (s := [ch]) _ f₁.bytes) hextends
              simpa using isspace_of_isgap hgap.2
          · split at h
            · next hc =>
                rcases hskip : f₁.skip inComment with ⟨b, f₂⟩
                rw [hskip] at h
                dsimp only at h
                obtain ⟨b', hrequire, h⟩ := Except.of_bind_eq_ok h
                obtain ⟨hskip, -⟩ := (Got.of_skip hskip).require hrequire
                obtain ⟨⟨options', ch₂, f₃⟩, hrest, h⟩ := Except.of_bind_eq_ok h
                cases h
                obtain ⟨w, hgot', hextends⟩ := ih hrest
                rw [hc]
                exact ⟨w, hgot', (extends_comment hskip).trans hextends⟩
            · cases h
              exact ⟨ch :: f'.bytes, ⟨rfl, nofun⟩, Extends.refl _⟩

/-- The header `p cnf` behind its `c`. -/
theorem of_relaxedHeader {vars clauses : Nat} (h : f.relaxedHeader = .ok (vars, clauses, f')) :
  ∃ t, f.bytes = t ++ '\n'.toUInt8 :: f'.bytes
    ∧ ∀ blanks, (∀ b ∈ blanks, isblank b = true) →
      Header ('p'.toUInt8 :: (blanks ++ 'c'.toUInt8 :: t))
  := by
  rw [relaxedHeader] at h
  rcases hget : f.get with ⟨ch, f₁⟩
  have hgot := Got.of_get hget
  rw [hget] at h
  dsimp only at h
  obtain ⟨n, hrequire, h⟩ := Except.of_bind_eq_ok h
  obtain ⟨hgot, hn⟩ := hgot.require hrequire
  rcases hget : f₁.get with ⟨ch, f₂⟩
  have hgot₁ := Got.of_get hget
  rw [hget] at h
  dsimp only at h
  obtain ⟨c, hrequire, h⟩ := Except.of_bind_eq_ok h
  obtain ⟨hgot₁, hc⟩ := hgot₁.require hrequire
  rcases hget : f₂.get with ⟨ch, f₃⟩
  have hgot₂ := Got.of_get hget
  rw [hget] at h
  dsimp only at h
  obtain ⟨b, hrequire, h⟩ := Except.of_bind_eq_ok h
  obtain ⟨hgot₂, hb⟩ := hgot₂.require hrequire
  rcases hskip : f₃.skip isspace with ⟨ch, f₄⟩
  obtain ⟨s₁, w₁, hs₁, hne₁, hspace₁, hgot₃⟩ := hgot₂.space hb hskip
  rw [hskip] at h
  dsimp only at h
  obtain ⟨d, hrequire, h⟩ := Except.of_bind_eq_ok h
  obtain ⟨hgot₃, hd⟩ := hgot₃.require hrequire
  obtain ⟨⟨vars', ch, f₅⟩, hnumber, h⟩ := Except.of_bind_eq_ok h
  obtain ⟨ds, w₂, hds, hgot₄, hdigits⟩ := of_number hd hnumber
  obtain ⟨b, hrequire, h⟩ := Except.of_bind_eq_ok h
  obtain ⟨hgot₄, hb⟩ := hgot₄.require hrequire
  rcases hskip : f₅.skip isspace with ⟨ch, f₆⟩
  obtain ⟨s₂, w₃, hs₂, hne₂, hspace₂, hgot₅⟩ := hgot₄.space hb hskip
  rw [hskip] at h
  dsimp only at h
  obtain ⟨e, hrequire, h⟩ := Except.of_bind_eq_ok h
  obtain ⟨hgot₅, he⟩ := hgot₅.require hrequire
  obtain ⟨⟨clauses', ch, f₇⟩, hnumber, h⟩ := Except.of_bind_eq_ok h
  obtain ⟨es, w₄, hes, hgot₆, hdigits'⟩ := of_number he hnumber
  obtain ⟨f₈, hrest, h⟩ := Except.of_bind_eq_ok h
  cases h
  obtain ⟨s₃, hs₃, hspace₃⟩ := of_restOfHeader hgot₆ hrest
  refine ⟨'n'.toUInt8 :: 'f'.toUInt8 :: (s₁ ++ (d :: ds ++ (s₂ ++ (e :: es ++ s₃)))), ?_, ?_⟩
  · rw [hgot.eq_cons, hgot₁.eq_cons, hs₁, hgot₃.eq_cons, hds, hs₂, hgot₅.eq_cons, hes, hs₃,
      of_decide_eq_true hn, of_decide_eq_true hc]
    simp
  · intro blanks hblanks
    exact Header.mk hblanks hspace₁ hdigits (List.cons_ne_nil d ds) hspace₂ hne₂ hdigits'
      (List.cons_ne_nil e es) hspace₃

/-- A header is passed over. -/
theorem of_header {parseInccnfToo : Bool} {strict : Strictness} {h : DimacsHeader}
    (hstrict : strict ≠ .STRICT) (hgot : Got w ch f)
    (hheader : f.header parseInccnfToo strict ch = .ok (h, f'))
    (hcnf : h.foundInccnfHeader = false) :
  Extends w [] f'.bytes
  := by
  rw [header] at hheader
  obtain ⟨b, hrequire, hheader⟩ := Except.of_bind_eq_ok hheader
  obtain ⟨hgot, hb⟩ := hgot.require hrequire
  obtain ⟨⟨ch₁, f₁⟩, hbehind, hheader⟩ := Except.of_bind_eq_ok hheader
  rw [behindP] at hbehind
  rcases hget : f.get with ⟨ch₂, f₂⟩
  have hgot₂ := Got.of_get hget
  rw [hget] at hbehind
  dsimp only at hbehind
  rw [if_neg hstrict] at hbehind
  obtain ⟨c, hrequire, hbehind⟩ := Except.of_bind_eq_ok hbehind
  obtain ⟨hgot₂, hc⟩ := hgot₂.require hrequire
  obtain ⟨blanks, w', hblanks, -, hblank, hgot₃⟩ := hgot₂.space hc (Except.ok.inj hbehind)
  dsimp only at hheader
  split at hheader
  · next hletter =>
      obtain ⟨⟨vars, clauses, f₃⟩, hrelaxed, hheader⟩ := Except.of_bind_eq_ok hheader
      cases hheader
      obtain ⟨t, ht, hline⟩ := of_relaxedHeader hrelaxed
      have hw : w = 'p'.toUInt8 :: (blanks ++ 'c'.toUInt8 :: t) ++ '\n'.toUInt8 :: f₃.bytes := by
        rw [hletter] at hgot₃
        rw [hgot.eq_cons, hblanks, hgot₃.eq_cons, ht, of_decide_eq_true hb]
        simp
      rw [hw]
      exact extends_line_break (Or.inr (hline blanks hblank)) _
  · split at hheader
    · cases hheader
    · obtain ⟨b', -, hheader⟩ := Except.of_bind_eq_ok hheader
      obtain ⟨f₃, -, hheader⟩ := Except.of_bind_eq_ok hheader
      cases hheader
      cases hcnf

/-- The literals that are passed to the solver are the numbers of the rest of the file, and the last
one is `lit`. -/
theorem of_body {h : DimacsHeader} (hcnf : h.foundInccnfHeader = false) {n vars parsed : Nat}
    {lit : Int} {r : DimacsBody} (hbody : body h n vars lit parsed f = .ok r) :
  Extends f.bytes r.added [] ∧ (∀ m ∈ r.added, m.natAbs ≤ intMax)
    ∧ r.added.getLast?.getD lit = r.lit
  := by
  induction n generalizing f vars parsed lit r with
  | zero => cases hbody
  | succ n ih =>
      rw [body] at hbody
      rcases hget : f.get with ⟨ch, f₁⟩
      have hgot := Got.of_get hget
      rw [hget] at hbody
      cases ch with
      | none =>
          cases hbody
          rw [hgot.eq_nil.1]
          exact ⟨Extends.refl [], by simp, rfl⟩
      | some ch =>
          dsimp only at hbody
          split at hbody
          · next hgap =>
              obtain ⟨hextends, hrest⟩ := ih hbody
              refine ⟨?_, hrest⟩
              rw [hgot.eq_cons]
              apply Extends.trans (extends_blanks (s := [ch]) _ f₁.bytes) hextends
              simpa using isspace_of_isgap hgap
          · split at hbody
            · next hc =>
                rcases hskip : f₁.skip inComment with ⟨b, f₂⟩
                rw [hskip] at hbody
                rw [hgot.eq_cons, hc]
                cases b with
                | none =>
                    cases hbody
                    exact ⟨extends_last_comment (Got.of_skip hskip), by simp, rfl⟩
                | some b =>
                    obtain ⟨hextends, hrest⟩ := ih hbody
                    exact ⟨(extends_comment (Got.of_skip hskip)).trans hextends, hrest⟩
            · rw [hcnf] at hbody
              simp only [Bool.false_eq_true, and_false, if_false] at hbody
              obtain ⟨⟨lit', vars', ch', f₂⟩, hlit, hbody⟩ := Except.of_bind_eq_ok hbody
              obtain ⟨f₃, hglued, hbody⟩ := Except.of_bind_eq_ok hbody
              obtain ⟨w', hgot', hnumber, hmax, hend, -⟩ :=
                of_parseLit (w := f.bytes) (hgot.eq_cons ▸ ⟨rfl, nofun⟩) hlit
              have hcomment := (of_gluedComment hgot' hend hglued).1
              have hrest : ∃ parsed' r', body h n vars' lit' parsed' f₃ = .ok r'
                  ∧ r = { r' with added := lit' :: r'.added } := by
                dsimp only at hbody
                split at hbody
                · split at hbody
                  · cases hbody
                  · obtain ⟨r', hr', hbody⟩ := Except.of_bind_eq_ok hbody
                    exact ⟨_, r', hr', (Except.ok.inj hbody).symm⟩
                · obtain ⟨r', hr', hbody⟩ := Except.of_bind_eq_ok hbody
                  exact ⟨_, r', hr', (Except.ok.inj hbody).symm⟩
              obtain ⟨parsed', r', hr', rfl⟩ := hrest
              obtain ⟨hextends, hmax', hlast⟩ := ih hr'
              refine ⟨hnumber.trans (hcomment.trans hextends), ?_, ?_⟩
              · exact List.forall_mem_cons.mpr ⟨hmax, hmax'⟩
              · rw [List.getLast?_cons]
                exact hlast

/-! ### Iterations of the loops -/

/-- Reading a byte leaves fewer bytes. -/
theorem length_of_get {b : UInt8} (h : f.get = (some b, f')) :
  f'.bytes.length < f.bytes.length
  := by
  rw [(Got.of_get h).eq_cons]
  exact Nat.lt_succ_self _

theorem length_of_skip (h : f.skip p = (ch, f')) :
  f'.bytes.length ≤ f.bytes.length
  := (Got.of_skip h).length_le.trans (List.dropWhile_suffix p).length_le

/-- A literal and the comment behind it are not empty. -/
theorem length_of_literal {b : UInt8} {vars vars' : Nat} {strict : Strictness} {lit : Int}
    {f₁ f₂ f₃ : File} (hget : f.get = (some b, f₁))
    (hlit : f₁.parseLit (some b) vars strict = .ok (lit, vars', ch', f₂))
    (hglued : f₂.gluedComment ch' = .ok f₃) :
  f₃.bytes.length < f.bytes.length
  := by
  obtain ⟨w', hgot', -, -, hend, hlt⟩ := of_parseLit (Got.of_get hget) hlit
  exact (of_gluedComment hgot' hend hglued).2.trans_lt hlt

theorem firstDigit_ne (ch : Option UInt8) :
  f.firstDigit ch ≠ .error .outOfFuel
  := by
  rw [firstDigit]
  split
  · exact Except.bind_ne_error (require_ne _ _ _) (fun _ _ => ok_ne _)
  · exact Except.bind_ne_error (require_ne _ _ _) (fun _ _ => ok_ne _)

/-- Parsing a literal does not run out of fuel. -/
theorem parseLit_ne (ch : Option UInt8) (vars : Nat) (strict : Strictness) :
  f.parseLit ch vars strict ≠ .error .outOfFuel
  := by
  rw [parseLit]
  split
  · exact fun h => nomatch Except.error.inj h
  · apply Except.bind_ne_error (firstDigit_ne _)
    intro ⟨minus, d, f₁⟩ _
    have hmessage : ∀ _ : String, ParseError.message (f₁.per "literal too large") ≠ .outOfFuel :=
      fun _ h => nomatch h
    apply Except.bind_ne_error (mapError_ne _ hmessage _)
    intro ⟨n, ch₁, f₂⟩ _
    rcases hcr : (if ch₁ = some '\r'.toUInt8 then f₂.get else (ch₁, f₂)) with ⟨ch₂, f₃⟩
    dsimp only
    rw [hcr]
    dsimp only
    split
    · exact error_ne _
    · split
      · exact ok_ne _
      · split
        · exact error_ne _
        · exact ok_ne _

theorem gluedComment_ne (ch : Option UInt8) :
  f.gluedComment ch ≠ .error .outOfFuel
  := by
  rw [gluedComment]
  split
  · exact Except.bind_ne_error (require_ne _ _ _) (fun _ _ => ok_ne _)
  · exact ok_ne _

/-- The comments before the header are read within as many iterations as there are bytes. -/
theorem headerComments_ne (strict : Strictness) {n : Nat} (hn : f.bytes.length < n) :
  headerComments strict n f ≠ .error .outOfFuel
  := by
  induction n generalizing f with
  | zero => exact absurd hn (Nat.not_lt_zero _)
  | succ n ih =>
      rw [headerComments]
      rcases hget : f.get with ⟨ch, f₁⟩
      cases ch with
      | none => exact ok_ne _
      | some ch =>
          have hlength := length_of_get hget
          dsimp only
          split
          · apply ih
            omega
          · split
            · rcases hskip : f₁.skip inComment with ⟨b, f₂⟩
              have hlength' := length_of_skip hskip
              have hrest : headerComments strict n f₂ ≠ .error .outOfFuel := ih (by omega)
              apply Except.bind_ne_error (require_ne _ _ _)
              intro _ _
              exact Except.bind_ne_error hrest (fun _ _ => ok_ne _)
            · exact ok_ne _

/-- The clauses are read within as many iterations as there are bytes. -/
theorem body_ne (h : DimacsHeader) {n : Nat} (hn : f.bytes.length < n) (vars : Nat) (lit : Int)
    (parsed : Nat) :
  body h n vars lit parsed f ≠ .error .outOfFuel
  := by
  induction n generalizing f vars lit parsed with
  | zero => exact absurd hn (Nat.not_lt_zero _)
  | succ n ih =>
      rw [body]
      rcases hget : f.get with ⟨ch, f₁⟩
      cases ch with
      | none => exact ok_ne _
      | some ch =>
          have hlength := length_of_get hget
          dsimp only
          split
          · apply ih
            omega
          · split
            · rcases hskip : f₁.skip inComment with ⟨b, f₂⟩
              have hlength' := length_of_skip hskip
              cases b with
              | none => exact ok_ne _
              | some b =>
                  apply ih
                  omega
            · split
              · exact ok_ne _
              · apply Except.bind_ne_error (parseLit_ne _ _ _)
                intro ⟨lit', vars', ch', f₂⟩ hlit
                apply Except.bind_ne_error (gluedComment_ne _)
                intro f₃ hglued
                have hlength' := length_of_literal hget hlit hglued
                have hrest : ∀ parsed', body h n vars' lit' parsed' f₃ ≠ .error .outOfFuel :=
                  fun parsed' => ih (by omega) vars' lit' parsed'
                dsimp only
                split
                · split
                  · exact error_ne _
                  · exact Except.bind_ne_error (hrest _) (fun _ _ => ok_ne _)
                · exact Except.bind_ne_error (hrest _) (fun _ _ => ok_ne _)

/-- What stands behind a cube is skipped within as many iterations as there are bytes. -/
theorem behindZero_spec {n : Nat} (hn : f.bytes.length < n) :
  behindZero n f ≠ .error .outOfFuel
    ∧ ∀ more f', behindZero n f = .ok (more, f') → f'.bytes.length ≤ f.bytes.length
  := by
  induction n generalizing f with
  | zero => exact absurd hn (Nat.not_lt_zero _)
  | succ n ih =>
      rw [behindZero]
      rcases hget : f.get with ⟨ch, f₁⟩
      have hlength := (Got.of_get hget).length_le
      dsimp only
      split
      · next hgap =>
          cases ch with
          | none => cases hgap
          | some b =>
              have hlt := length_of_get hget
              obtain ⟨hne, hle⟩ := ih (f := f₁) (by omega)
              exact ⟨hne, fun more f' hmore => (hle more f' hmore).trans hlength⟩
      · generalize hcomment : (if ch = some 'c'.toUInt8 then f₁.skip inComment else (ch, f₁)) = r
        obtain ⟨ch₂, f₂⟩ := r
        have hlength' : f₂.bytes.length ≤ f₁.bytes.length := by
          split at hcomment
          · exact length_of_skip hcomment
          · cases hcomment
            exact le_rfl
        dsimp only
        split
        · refine ⟨ok_ne _, ?_⟩
          rintro more f' hmore
          cases hmore
          exact hlength'.trans hlength
        · refine ⟨Except.bind_ne_error (require_ne _ _ _) (fun _ _ => ok_ne _), ?_⟩
          rintro more f' hmore
          obtain ⟨_, -, hmore⟩ := Except.of_bind_eq_ok hmore
          cases hmore
          exact hlength'.trans hlength

/-- The cubes are read within as many iterations as there are bytes. -/
theorem cubes_ne (strict : Strictness) {n : Nat} (hn : f.bytes.length < n) (vars : Nat)
    (lit : Int) :
  cubes strict n vars lit f ≠ .error .outOfFuel
  := by
  induction n generalizing f vars lit with
  | zero => exact absurd hn (Nat.not_lt_zero _)
  | succ n ih =>
      rw [cubes]
      rcases hget : f.get with ⟨ch, f₁⟩
      dsimp only
      cases ch with
      | none =>
          simp only [Option.any_none, Bool.false_eq_true, if_false, reduceCtorEq]
          apply Except.bind_ne_error (parseLit_ne _ _ _)
          intro ⟨lit', vars', ch', f₂⟩ hlit
          obtain ⟨w', -, -, -, -, hlt⟩ := of_parseLit (Got.of_get hget) hlit
          rw [(Got.of_get hget).eq_nil.1] at hlt
          exact absurd hlt (Nat.not_lt_zero _)
      | some b =>
          have hlength := length_of_get hget
          split
          · apply ih
            omega
          · split
            · rcases hskip : f₁.skip inComment with ⟨b, f₂⟩
              have hlength' := length_of_skip hskip
              cases b with
              | none => exact ok_ne _
              | some b =>
                  apply ih
                  omega
            · split
              · exact error_ne _
              · apply Except.bind_ne_error (parseLit_ne _ _ _)
                intro ⟨lit', vars', ch', f₂⟩ hlit
                apply Except.bind_ne_error (gluedComment_ne _)
                intro f₃ hglued
                have hlength' := length_of_literal hget hlit hglued
                dsimp only
                split
                · exact Except.bind_ne_error (ih (by omega) _ _) (fun _ _ => ok_ne _)
                · obtain ⟨hne, hle⟩ := behindZero_spec (f := f₃) (n := n) (by omega)
                  apply Except.bind_ne_error hne
                  intro ⟨more, f₄⟩ hmore
                  have hlength'' := hle more f₄ hmore
                  dsimp only
                  split
                  · exact Except.bind_ne_error (ih (by omega) _ _) (fun _ _ => ok_ne _)
                  · exact ok_ne _

end File

/-! ### Files that are accepted -/

/-- The iterations suffice for every file. -/
theorem parse_dimacs_ne_outOfFuel (parseInccnfToo : Bool) (strict : Strictness) (name : String)
    (bytes : List UInt8) :
  parseDimacsNonProfiled parseInccnfToo strict name bytes ≠ .error .outOfFuel
  := by
  apply Except.bind_ne_error (File.headerComments_ne strict (Nat.lt_succ_self _))
  intro ⟨options, ch, f⟩ _
  apply Except.bind_ne_error (File.header_ne _ _ _)
  intro ⟨h, f⟩ _
  apply Except.bind_ne_error (File.body_ne h (Nat.lt_succ_self _) _ _ _)
  intro r _
  split
  · exact File.error_ne _
  · split
    · exact File.error_ne _
    · split
      · apply Except.bind_ne_error (File.cubes_ne _ (Nat.lt_succ_self _) _ _)
        intro r _
        split
        · exact File.error_ne _
        · exact File.ok_ne _
      · exact File.ok_ne _

/-- A file with the header `p cnf` that is accepted is a text in DIMACS format.  Its numbers are the
literals that are passed to the solver; the last one ends a clause. -/
theorem written_of_parse_dimacs {parseInccnfToo : Bool} {strict : Strictness}
    (hstrict : strict ≠ .STRICT) {name : String} {bytes : List UInt8} {r : ParsedDimacs}
    (h : parseDimacsNonProfiled parseInccnfToo strict name bytes = .ok r)
    (hcnf : r.header.foundInccnfHeader = false) :
  ∃ ts, Written ts bytes ∧ numbers ts = r.added ∧ (∀ n ∈ r.added, n.natAbs ≤ intMax)
    ∧ ∀ n ∈ r.added.getLast?, n = 0
  := by
  obtain ⟨⟨options, ch, f₁⟩, hcomments, h⟩ := Except.of_bind_eq_ok h
  obtain ⟨⟨header, f₂⟩, hheader, h⟩ := Except.of_bind_eq_ok h
  obtain ⟨body, hbody, h⟩ := Except.of_bind_eq_ok h
  have hr : r.header = header ∧ r.added = body.added ∧ body.lit = 0 := by
    split at h
    · cases h
    · next hlit =>
        have hlit : body.lit = 0 := not_not.mp hlit
        split at h
        · cases h
        · split at h
          · obtain ⟨cubes, -, h⟩ := Except.of_bind_eq_ok h
            split at h
            · cases h
            · cases h
              exact ⟨rfl, rfl, hlit⟩
          · cases h
            exact ⟨rfl, rfl, hlit⟩
  obtain ⟨rfl, hadded, hlit⟩ := hr
  obtain ⟨w, hgot, hextends₁⟩ := File.of_headerComments hcomments
  have hextends₂ := File.of_header hstrict hgot hheader hcnf
  obtain ⟨hextends₃, hmax, hlast⟩ := File.of_body hcnf hbody
  obtain ⟨ts, hts, hnumbers⟩ := (hextends₁.trans (hextends₂.trans hextends₃)).written
  rw [hadded]
  refine ⟨ts, hts, hnumbers, hmax, ?_⟩
  intro n hn
  rw [Option.mem_def.mp hn, hlit] at hlast
  exact hlast

end Cadical
