import IgnoreGates.Text.Ctype

/-!
# Buffered reading

`StreamBuffer` holds one chunk of a file at a time.  A full chunk is cut off at the last
white space, so that no number straddles two chunks; the cut off bytes are moved to the
front when the next chunk is read.

`Whole` gives the same calls on the whole file.  On files without overlong words the two
agree call by call, as long as `strtol`, which does not know where the last chunk ends, does
not run on into the bytes left behind it.
-/

namespace CnfTools

open Ctype

/-- How reading can fail other than by an exception: an access in front of the buffer, or
the bound on the number of iterations of a loop. -/
inductive ReadFault where
  | outOfBounds
  | outOfFuel
  deriving DecidableEq, Repr

/-- `ParserException`. -/
structure ParserException where
  what : String
  deriving DecidableEq, Repr

/-- The end of `readInteger`: what is returned or thrown for the result of `strtol`, where
`next` is the byte at the read position. -/
def integerOf (r : Strtol) (next : UInt8) : Except ParserException Int :=
  let abs : Int := if r.number = -2 ^ 63 then -2 ^ 63 else r.number.natAbs
  if r.erange ∨ abs ≥ 2 ^ 31 - 1 then
    .error ⟨"PARSE ERROR! Variable out of supported range (32 bits): " ++ toString r.number⟩
  else if r.length > 0 then
    .ok (r.number.bmod (2 ^ 32))
  else
    .error ⟨"PARSE ERROR! Unexpected character " ++ String.singleton (Char.ofNat next.toNat)⟩

/-- `StreamBuffer`: `file` holds the bytes that have not been read yet, `buffer` the memory
from the start of the buffer on, what lies behind the buffer included. -/
structure StreamBuffer where
  file : List UInt8
  bufferSize : Nat
  buffer : List UInt8
  pos : Nat
  end_ : Nat
  endOfFile : Bool

namespace StreamBuffer

/-- `buffer[i]`. -/
def byte (s : StreamBuffer) (i : Nat) : UInt8 :=
  s.buffer.getD i 0

/-- The loop that moves the end of a full buffer behind its last white space. -/
def align (buffer : List UInt8) : Nat → Except ReadFault Nat
  | 0 => .error .outOfBounds
  | n + 1 => if isspace (buffer.getD n 0) then .ok (n + 1) else align buffer n

/-- The bytes between the end of the last chunk and the end of the buffer. -/
def cutOff (s : StreamBuffer) : List UInt8 :=
  if 0 < s.end_ ∧ s.end_ < s.bufferSize then
    (s.buffer.take s.bufferSize).drop s.end_
  else
    []

/-- The buffer after the cut off bytes have been moved to its front and `archive_read_data`
has filled it up. -/
def fill (s : StreamBuffer) : StreamBuffer :=
  let moved := s.cutOff
  let data := s.file.take (s.bufferSize - moved.length)
  { s with
    file := s.file.drop (s.bufferSize - moved.length)
    buffer := moved ++ data ++ s.buffer.drop (moved.length + data.length)
    pos := 0
    end_ := moved.length + data.length }

def checkRefillBuffer (s : StreamBuffer) : Except ReadFault StreamBuffer :=
  if s.end_ ≤ s.pos ∧ s.endOfFile = false then
    let s := s.fill
    if s.end_ < s.bufferSize then
      .ok { s with endOfFile := true }
    else do
      let end_ ← align s.buffer s.end_
      return { s with end_ }
  else
    .ok s

/-- The members before the constructor fills the buffer: `memory` is what the memory holds
from the start of the buffer on. -/
def start (file memory : List UInt8) : StreamBuffer where
  file
  bufferSize := 16384
  buffer := memory
  pos := 0
  end_ := 0
  endOfFile := false

/-- The constructor. -/
def init (file memory : List UInt8) : Except ReadFault StreamBuffer :=
  checkRefillBuffer (start file memory)

def eof (s : StreamBuffer) : Bool :=
  s.end_ ≤ s.pos ∧ s.endOfFile

def incPos (s : StreamBuffer) (inc : Nat) : Except ReadFault StreamBuffer :=
  checkRefillBuffer { s with pos := s.pos + inc }

/-- The loops of `skipLine` and `skipWhitespace`, for a bounded number of iterations. -/
def skipWhile (p : UInt8 → Bool) : Nat → StreamBuffer → Except ReadFault StreamBuffer
  | n, s =>
      if s.eof = false ∧ p (s.byte s.pos) = true then
        match n with
        | 0 => .error .outOfFuel
        | n + 1 => do skipWhile p n (← s.incPos 1)
      else
        .ok s

/-- The number of bytes that are at most to be read. -/
def unread (s : StreamBuffer) : Nat :=
  s.bufferSize - s.pos + s.file.length

def skipWhitespace (s : StreamBuffer) : Except ReadFault StreamBuffer :=
  skipWhile isspace s.unread s

def skipLine (s : StreamBuffer) : Except ReadFault StreamBuffer := do
  skipWhitespace (← skipWhile (fun b => !isspace b || isblank b) s.unread s)

def readInteger (s : StreamBuffer) :
    Except ReadFault (Except ParserException Int × StreamBuffer) := do
  let s ← s.skipWhitespace
  if s.eof then
    return (.ok 0, s)
  else
    let r := strtol (s.buffer.drop s.pos)
    match integerOf r (s.byte s.pos) with
    | .ok number => return (.ok number, ← s.incPos r.length)
    | .error e => return (.error e, s)

/-- `operator*`: `EOF` as a `char` is the byte 255. -/
def deref (s : StreamBuffer) : UInt8 :=
  if s.eof then 255 else s.byte s.pos

end StreamBuffer

/-- The calls on a stream buffer. -/
inductive Call where
  | readInteger
  | skipLine
  | skipWhitespace
  | next
  | deref
  | eof
  deriving DecidableEq, Repr

/-- What a call gives. -/
inductive Result where
  | integer (n : Except ParserException Int)
  | done
  | char (b : UInt8)
  | truth (b : Bool)
  deriving DecidableEq

namespace StreamBuffer

def call (s : StreamBuffer) : Call → Except ReadFault (Result × StreamBuffer)
  | .readInteger => do
      let (n, s) ← s.readInteger
      return (.integer n, s)
  | .skipLine => return (.done, ← s.skipLine)
  | .skipWhitespace => return (.done, ← s.skipWhitespace)
  | .next => return (.done, ← s.incPos 1)
  | .deref => return (.char s.deref, s)
  | .eof => return (.truth s.eof, s)

/-- A sequence of calls. -/
def calls (s : StreamBuffer) : List Call → Except ReadFault (List Result × StreamBuffer)
  | [] => .ok ([], s)
  | c :: cs => do
      let (r, s) ← s.call c
      let (rs, s) ← s.calls cs
      return (r :: rs, s)

end StreamBuffer

/-! ### The whole file -/

namespace Whole

/-- White space and line skipping, where the list holds what is left of the file. -/
def skipWhitespace (content : List UInt8) : List UInt8 :=
  content.dropWhile isspace

def skipLine (content : List UInt8) : List UInt8 :=
  skipWhitespace (content.dropWhile (fun b => !isspace b || isblank b))

def readInteger (content : List UInt8) : Except ParserException Int × List UInt8 :=
  match skipWhitespace content with
  | [] => (.ok 0, [])
  | b :: rest =>
      let r := strtol (b :: rest)
      match integerOf r b with
      | .ok number => (.ok number, (b :: rest).drop r.length)
      | .error e => (.error e, b :: rest)

/-- `skipString`.  At the end of the file the byte found is what the memory holds there, zero
here. -/
def skipString : List UInt8 → List UInt8 → Except ParserException (List UInt8)
  | [], content => .ok content
  | c :: str, content =>
      if content.head? = some c then
        skipString str content.tail
      else
        .error ⟨"PARSE ERROR! Expected '" ++ String.ofList ((c :: str).map (Char.ofNat ·.toNat))
          ++ "' but found " ++ String.singleton (Char.ofNat (content.headD 0).toNat)⟩

def call (content : List UInt8) : Call → Result × List UInt8
  | .readInteger => (.integer (readInteger content).1, (readInteger content).2)
  | .skipLine => (.done, skipLine content)
  | .skipWhitespace => (.done, skipWhitespace content)
  | .next => (.done, content.drop 1)
  | .deref => (.char (content.headD 255), content)
  | .eof => (.truth content.isEmpty, content)

def calls (content : List UInt8) : List Call → List Result
  | [] => []
  | c :: cs => (call content c).1 :: calls (call content c).2 cs

/-- White space is skipped up to a byte that is none. -/
theorem isspace_of_skipWhitespace {b : UInt8} {content tail : List UInt8}
    (h : skipWhitespace content = b :: tail) :
  isspace b = false
  := by
  rw [skipWhitespace] at h
  have hhead := List.head_dropWhile_not isspace (h ▸ List.cons_ne_nil b tail)
  simp only [h, List.head_cons] at hhead
  exact hhead

end Whole

end CnfTools
