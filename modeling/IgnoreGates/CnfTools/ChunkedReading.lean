import Mathlib.Data.List.Basic
import Mathlib.Data.List.GetD
import IgnoreGates.CnfTools.StreamBuffer

/-!
# Chunked reading is transparent

`Reads s content` relates a stream buffer to what is left of the file.  Refilling keeps the
relation, so each call gives what it gives on the whole file and leaves the buffer related
to what the call leaves of the file.  The exception is a call of `readInteger` that runs on
into the bytes behind the last chunk.
-/

namespace CnfTools

open Ctype

/-- Every run of bytes without white space is shorter than `n`. -/
def ShortRuns (n : Nat) (content : List UInt8) : Prop :=
  ∀ run, run <:+: content → (∀ b ∈ run, isspace b = false) → run.length < n

/-- The words in the rest of a file are words of the file. -/
theorem ShortRuns.of_suffix {n : Nat} {content rest : List UInt8} (h : ShortRuns n content)
    (hrest : rest <:+ content) :
  ShortRuns n rest
  := fun run hrun => h run (hrun.trans hrest.isInfix)

/-- A run without a byte lies on one side of it. -/
theorem infix_of_not_mem {run xs ys : List UInt8} {b : UInt8} (h : run <:+: xs ++ b :: ys)
    (hb : b ∉ run) :
  run <:+: xs ∨ run <:+: ys
  := by
  obtain ⟨u, v, huv⟩ := h
  obtain ⟨c, hxs, -⟩ | ⟨c, hc, hv⟩ := List.append_eq_append_iff.mp huv
  · exact Or.inl ⟨u, c, hxs.symm⟩
  · cases c with
    | nil => exact Or.inl ⟨u, [], by rw [List.append_nil, hc, List.append_nil]⟩
    | cons d c =>
        obtain ⟨rfl, rfl⟩ := List.cons.inj hv
        obtain ⟨e, -, he⟩ | ⟨e, -, he⟩ := List.append_eq_append_iff.mp hc
        · exact absurd (by rw [he]; exact List.mem_append_right e List.mem_cons_self) hb
        · cases e with
          | nil => exact absurd (by rw [← List.nil_append run, ← he]; exact List.mem_cons_self) hb
          | cons d' e =>
              obtain ⟨rfl, rfl⟩ := List.cons.inj he
              exact Or.inr ⟨e, v, rfl⟩

/-- White space ends a word, so that files on both sides of it can be put together. -/
theorem ShortRuns.append {n : Nat} {xs ys : List UInt8} {b : UInt8} (hxs : ShortRuns n xs)
    (hb : isspace b = true) (hys : ShortRuns n ys) :
  ShortRuns n (xs ++ b :: ys)
  := by
  intro run hrun hword
  have hnot : b ∉ run := fun hmem => absurd (hword b hmem) (by simp [hb])
  obtain h | h := infix_of_not_mem hrun hnot
  · exact hxs run h hword
  · exact hys run h hword

namespace Whole

/-- The last byte is no white space. -/
def EndsInWord (content : List UInt8) : Prop :=
  ∃ b ∈ content.getLast?, isspace b = false

/-- What is left of the file ends in a word if and only if the file does. -/
theorem endsInWord_of_suffix {content rest : List UInt8} (hsuffix : rest <:+ content)
    (hne : rest ≠ []) :
  EndsInWord rest ↔ EndsInWord content
  := by
  obtain ⟨t, rfl⟩ := hsuffix
  rw [EndsInWord, EndsInWord, List.getLast?_append_of_ne_nil _ hne]

/-- If the file does not end in a word, no rest of it does. -/
theorem not_endsInWord_of_suffix {content rest : List UInt8} (hsuffix : rest <:+ content)
    (h : ¬ EndsInWord content) :
  ¬ EndsInWord rest
  := by
  intro hrest
  have hne : rest ≠ [] := by
    rintro rfl
    obtain ⟨b, hb, -⟩ := hrest
    cases hb
  exact h ((endsInWord_of_suffix hsuffix hne).mp hrest)

end Whole

namespace StreamBuffer

/-- The bytes `content` are what is left to be read. -/
structure Reads (s : StreamBuffer) (content : List UInt8) : Prop where
  size_pos : 0 < s.bufferSize
  size_le : s.bufferSize ≤ s.buffer.length
  short : ShortRuns s.bufferSize content
  last : s.endOfFile = true →
    s.file = [] ∧ s.end_ < s.bufferSize ∧ content = (s.buffer.take s.end_).drop s.pos
  more : s.endOfFile = false →
    s.pos < s.end_ ∧ s.end_ ≤ s.bufferSize ∧ isspace (s.byte (s.end_ - 1)) = true
      ∧ content = (s.buffer.take s.bufferSize).drop s.pos ++ s.file

/-! ### Refilling -/

/-- The alignment stops behind a white space. -/
theorem align_spec {buffer : List UInt8} {n : Nat} (hn : n ≤ buffer.length)
    (h : ∃ b ∈ buffer.take n, isspace b = true) :
  ∃ m, align buffer n = .ok m ∧ 0 < m ∧ m ≤ n ∧ isspace (buffer.getD (m - 1) 0) = true
  := by
  induction n with
  | zero =>
      obtain ⟨b, hb, -⟩ := h
      cases hb
  | succ n ih =>
      rw [align]
      by_cases hspace : isspace (buffer.getD n 0) = true
      · rw [if_pos hspace]
        exact ⟨n + 1, rfl, Nat.succ_pos n, le_rfl, hspace⟩
      · rw [if_neg hspace]
        obtain ⟨m, hm, hpos, hle, hm'⟩ := ih (by omega) (by
          obtain ⟨b, hb, hbspace⟩ := h
          rw [List.take_succ_eq_append_getElem (by omega)] at hb
          obtain hb | hb := List.mem_append.mp hb
          · exact ⟨b, hb, hbspace⟩
          · rw [List.mem_singleton.mp hb, ← List.getD_eq_getElem _ 0 (by omega)] at hbspace
            exact absurd hbspace hspace)
        exact ⟨m, hm, hpos, by omega, hm'⟩

/-- A refill that starts with the cut off bytes and the rest of the file continues with them. -/
theorem check_refill_spec {s : StreamBuffer} {content : List UInt8} (hsize : 0 < s.bufferSize)
    (hle : s.bufferSize ≤ s.buffer.length) (hshort : ShortRuns s.bufferSize content)
    (hend : s.end_ ≤ s.pos) (hmore : s.endOfFile = false) (hcontent : content = s.cutOff ++ s.file) :
  ∃ s', checkRefillBuffer s = .ok s' ∧ Reads s' content
  := by
  have hcut : s.cutOff.length ≤ s.bufferSize := by
    rw [cutOff]
    split
    · rw [List.length_drop, List.length_take]
      omega
    · exact Nat.zero_le _
  have hdata : (s.file.take (s.bufferSize - s.cutOff.length)).length
      = min (s.bufferSize - s.cutOff.length) s.file.length := List.length_take
  rw [checkRefillBuffer, if_pos ⟨hend, hmore⟩]
  have hbuffer : s.fill.bufferSize ≤ s.fill.buffer.length := by
    simp only [fill, List.length_append, List.length_drop, hdata]
    omega
  have htake : s.fill.buffer.take s.fill.end_
      = s.cutOff ++ s.file.take (s.bufferSize - s.cutOff.length) := by
    simp only [fill]
    rw [List.take_left' (by rw [List.length_append])]
  by_cases hlast : s.fill.end_ < s.bufferSize
  · have hall : s.file.length ≤ s.bufferSize - s.cutOff.length := by
      simp only [fill, hdata] at hlast
      omega
    have hlast' : s.fill.end_ < s.fill.bufferSize := hlast
    refine ⟨_, if_pos hlast', hsize, hbuffer, hshort, ?_, ?_⟩
    · intro _
      refine ⟨List.drop_eq_nil_of_le hall, hlast, ?_⟩
      show content = (s.fill.buffer.take s.fill.end_).drop 0
      rw [htake, List.drop_zero, List.take_of_length_le hall, hcontent]
    · intro hfalse
      cases hfalse
  · have hfull : s.fill.end_ = s.bufferSize := by
      simp only [fill, hdata] at hlast ⊢
      omega
    have hlast' : ¬ s.fill.end_ < s.fill.bufferSize := hlast
    have hsplit : content = s.fill.buffer.take s.bufferSize ++ s.fill.file := by
      rw [← hfull, htake, hcontent, List.append_assoc]
      show _ = s.cutOff ++ (s.file.take _ ++ s.file.drop _)
      rw [List.take_append_drop]
    obtain ⟨m, hm, hpos, hmle, hspace⟩ := align_spec (n := s.fill.end_) (hfull.trans_le hbuffer) (by
      by_contra hnone
      have hrun := hshort (s.fill.buffer.take s.bufferSize)
        (hsplit ▸ List.infix_append' [] _ _) (by
          intro b hb
          by_contra hb'
          rw [← hfull] at hb
          exact hnone ⟨b, hb, by simpa using hb'⟩)
      rw [List.length_take] at hrun
      have : s.bufferSize ≤ s.fill.buffer.length := hbuffer
      omega)
    refine ⟨{ s.fill with end_ := m }, ?_, hsize, hbuffer, hshort, ?_, ?_⟩
    · rw [if_neg hlast', hm]
      rfl
    · intro htrue
      have hfalse : s.fill.endOfFile = false := hmore
      exact absurd htrue (by rw [hfalse]; exact Bool.false_ne_true)
    · intro _
      refine ⟨hpos, hmle.trans hfull.le, hspace, ?_⟩
      show content = (s.fill.buffer.take s.bufferSize).drop 0 ++ s.fill.file
      rw [List.drop_zero]
      exact hsplit

variable {s : StreamBuffer} {content : List UInt8}

/-- Within the chunk, advancing the position advances in the file. -/
theorem Reads.incPos (h : Reads s content) {k : Nat}
    (hk : s.endOfFile = false → s.pos + k ≤ s.end_) :
  ∃ s', incPos s k = .ok s' ∧ Reads s' (content.drop k)
  := by
  have hshort : ShortRuns s.bufferSize (content.drop k) := h.short.of_suffix (List.drop_suffix k _)
  cases hlast : s.endOfFile with
  | true =>
      obtain ⟨hfile, hend, hcontent⟩ := h.last hlast
      refine ⟨{ s with pos := s.pos + k }, ?_, h.size_pos, h.size_le, hshort, ?_, ?_⟩
      · rw [StreamBuffer.incPos, checkRefillBuffer, if_neg]
        rintro ⟨-, hfalse⟩
        rw [hlast] at hfalse
        cases hfalse
      · intro _
        refine ⟨hfile, hend, ?_⟩
        rw [hcontent, List.drop_drop]
      · intro hfalse
        exact absurd hlast (by rw [show s.endOfFile = false from hfalse]; exact Bool.false_ne_true)
  | false =>
      obtain ⟨hpos, hend, hspace, hcontent⟩ := h.more hlast
      have hdrop : content.drop k = (s.buffer.take s.bufferSize).drop (s.pos + k) ++ s.file := by
        have := hk hlast
        have := h.size_le
        rw [hcontent, List.drop_append_of_le_length, List.drop_drop]
        rw [List.length_drop, List.length_take]
        omega
      by_cases hinside : s.pos + k < s.end_
      · refine ⟨{ s with pos := s.pos + k }, ?_, h.size_pos, h.size_le, hshort, ?_, ?_⟩
        · rw [StreamBuffer.incPos, checkRefillBuffer, if_neg]
          rintro ⟨hle, -⟩
          exact absurd hinside (Nat.not_lt.mpr hle)
        · intro htrue
          exact absurd htrue (by rw [hlast]; exact Bool.false_ne_true)
        · intro _
          exact ⟨hinside, hend, hspace, hdrop⟩
      · have hpk : s.pos + k = s.end_ := le_antisymm (hk hlast) (Nat.not_lt.mp hinside)
        apply check_refill_spec (s := { s with pos := s.pos + k }) h.size_pos h.size_le hshort
          hpk.symm.le hlast
        rw [hdrop, hpk]
        apply congrArg (· ++ s.file)
        show _ = if 0 < s.end_ ∧ s.end_ < s.bufferSize then _ else []
        split
        · rfl
        · next hnot =>
            apply List.drop_eq_nil_of_le
            rw [List.length_take]
            omega

/-- The end of the file is reported when nothing is left. -/
theorem Reads.eof (h : Reads s content) :
  s.eof = content.isEmpty
  := by
  rw [StreamBuffer.eof]
  cases hlast : s.endOfFile with
  | true =>
      obtain ⟨-, hend, hcontent⟩ := h.last hlast
      have hlen := congrArg List.length hcontent
      rw [List.length_drop, List.length_take, Nat.min_eq_left (hend.le.trans h.size_le)] at hlen
      rw [← Bool.coe_iff_coe, decide_eq_true_eq, List.isEmpty_iff, ← List.length_eq_zero_iff, hlen]
      simp only [and_true]
      omega
  | false =>
      obtain ⟨hpos, hend, -, hcontent⟩ := h.more hlast
      have hlen := congrArg List.length hcontent
      have := h.size_le
      rw [List.length_append, List.length_drop, List.length_take, Nat.min_eq_left this] at hlen
      cases content with
      | nil =>
          rw [List.length_nil] at hlen
          omega
      | cons b rest => simp

/-- The byte at the read position is the next byte of the file. -/
theorem Reads.byte {b : UInt8} {rest : List UInt8} (h : Reads s (b :: rest)) :
  s.byte s.pos = b
  := by
  have hget : ∀ n x : _, ((s.buffer.take n).drop s.pos ++ x) = b :: rest → s.pos < n →
      n ≤ s.buffer.length → s.byte s.pos = b := by
    intro n x heq hn hle
    have hpos : s.pos < (s.buffer.take n).length := by
      rw [List.length_take]
      omega
    rw [List.drop_eq_getElem_cons hpos, List.cons_append, List.getElem_take] at heq
    rw [StreamBuffer.byte, List.getD_eq_getElem _ 0 (by omega)]
    exact (List.cons.inj heq).1
  cases hlast : s.endOfFile with
  | true =>
      obtain ⟨-, hend, hcontent⟩ := h.last hlast
      have hlen := congrArg List.length hcontent
      rw [List.length_cons, List.length_drop, List.length_take] at hlen
      exact hget s.end_ [] (by rw [List.append_nil, hcontent]) (by omega)
        (hend.le.trans h.size_le)
  | false =>
      obtain ⟨hpos, hend, -, hcontent⟩ := h.more hlast
      exact hget s.bufferSize s.file hcontent.symm (by omega) h.size_le

/-- The content that is left is at most what the buffer and the file still have. -/
theorem Reads.length_le_unread (h : Reads s content) :
  content.length ≤ s.unread
  := by
  rw [unread]
  cases hlast : s.endOfFile with
  | true =>
      obtain ⟨-, hend, hcontent⟩ := h.last hlast
      rw [hcontent, List.length_drop, List.length_take]
      omega
  | false =>
      obtain ⟨-, -, -, hcontent⟩ := h.more hlast
      rw [hcontent, List.length_append, List.length_drop, List.length_take]
      omega

/-! ### Skipping -/

/-- The bytes of the content that satisfy `p` are skipped, over the ends of chunks. -/
theorem Reads.skipWhile (h : Reads s content) (p : UInt8 → Bool) {n : Nat}
    (hn : content.length ≤ n) :
  ∃ s', skipWhile p n s = .ok s' ∧ Reads s' (content.dropWhile p)
  := by
  induction n generalizing s content with
  | zero =>
      obtain rfl := List.length_eq_zero_iff.mp (Nat.le_zero.mp hn)
      have heof : s.eof = true := h.eof
      refine ⟨s, ?_, h⟩
      rw [StreamBuffer.skipWhile, if_neg]
      rintro ⟨hfalse, -⟩
      rw [heof] at hfalse
      cases hfalse
  | succ n ih =>
      rw [StreamBuffer.skipWhile]
      cases content with
      | nil =>
          have heof : s.eof = true := h.eof
          refine ⟨s, ?_, h⟩
          rw [if_neg]
          rintro ⟨hfalse, -⟩
          rw [heof] at hfalse
          cases hfalse
      | cons b rest =>
          have heof : s.eof = false := h.eof
          rw [h.byte]
          cases hb : p b with
          | true =>
              obtain ⟨s₁, hinc, h₁⟩ := h.incPos (k := 1) (fun hlast => (h.more hlast).1)
              obtain ⟨s₂, hskip, h₂⟩ := ih h₁ (Nat.le_of_succ_le_succ hn)
              refine ⟨s₂, ?_, ?_⟩
              · rw [if_pos ⟨heof, rfl⟩]
                simp only [hinc, bind, Except.bind]
                exact hskip
              · rw [List.dropWhile_cons_of_pos hb]
                exact h₂
          | false =>
              refine ⟨s, if_neg (fun hand => Bool.false_ne_true hand.2), ?_⟩
              rw [List.dropWhile_cons_of_neg (by rw [hb]; exact Bool.false_ne_true)]
              exact h

/-- White space is skipped as in the whole file. -/
theorem Reads.skipWhitespace (h : Reads s content) :
  ∃ s', s.skipWhitespace = .ok s' ∧ Reads s' (Whole.skipWhitespace content)
  := h.skipWhile isspace h.length_le_unread

/-- A line is skipped as in the whole file. -/
theorem Reads.skipLine (h : Reads s content) :
  ∃ s', s.skipLine = .ok s' ∧ Reads s' (Whole.skipLine content)
  := by
  obtain ⟨s₁, hskip₁, h₁⟩ := h.skipWhile (fun b => !isspace b || isblank b) h.length_le_unread
  obtain ⟨s₂, hskip₂, h₂⟩ := h₁.skipWhitespace
  refine ⟨s₂, ?_, h₂⟩
  rw [StreamBuffer.skipLine, hskip₁]
  exact hskip₂

/-! ### Numbers -/

theorem drop_eq_append {l : List UInt8} {i m : Nat} (him : i ≤ m) (hm : m ≤ l.length) :
  l.drop i = (l.take m).drop i ++ l.drop m
  := by
  have hlen : i ≤ (l.take m).length := by
    rw [List.length_take]
    omega
  rw [← List.drop_append_of_le_length hlen, List.take_append_drop]

/-- The bytes of the last chunk that are left. -/
def rest (s : StreamBuffer) : List UInt8 :=
  (s.buffer.take s.end_).drop s.pos

/-- `strtol` started at the read position would run on into the bytes behind the last
chunk. -/
def RunsOn (s : StreamBuffer) : Prop :=
  s.endOfFile = true ∧ Overruns s.rest (s.buffer.drop s.end_)

/-- Unless it runs on, `strtol` reads in memory what it reads in the file, and it stays
within the chunk. -/
theorem Reads.strtol {b : UInt8} {tail : List UInt8} (h : Reads s (b :: tail))
    (hb : isspace b = false) (hrun : ¬ s.RunsOn) :
  strtol (s.buffer.drop s.pos) = strtol (b :: tail)
    ∧ (s.endOfFile = false → s.pos + (strtol (b :: tail)).length ≤ s.end_)
  := by
  have hskip : ∀ {q x : List UInt8}, q ≠ [] → q ++ x = b :: tail → q.dropWhile isspace ≠ [] := by
    intro q x hq heq
    cases q with
    | nil => exact absurd rfl hq
    | cons c q =>
        rw [List.cons_append] at heq
        rw [(List.cons.inj heq).1, List.dropWhile_cons_of_neg (by rw [hb]; exact Bool.false_ne_true)]
        exact List.cons_ne_nil b q
  cases hlast : s.endOfFile with
  | true =>
      obtain ⟨-, hend, hcontent⟩ := h.last hlast
      have hlen := congrArg List.length hcontent
      rw [List.length_cons, List.length_drop, List.length_take] at hlen
      refine ⟨?_, fun hfalse => by cases hfalse⟩
      rw [drop_eq_append (by omega) (hend.le.trans h.size_le), ← hcontent]
      apply strtol_append
      · exact hskip (List.cons_ne_nil b tail) (List.append_nil _)
      · intro hover
        apply hrun
        refine ⟨hlast, ?_⟩
        rw [StreamBuffer.rest, ← hcontent]
        exact hover
  | false =>
      obtain ⟨hpos, hend, hspace, hcontent⟩ := h.more hlast
      have hsize := h.size_le
      let q := (s.buffer.take (s.end_ - 1)).drop s.pos
      have hlen : (s.buffer.take s.bufferSize).length = s.bufferSize := by
        rw [List.length_take, Nat.min_eq_left hsize]
      have hmemory : ∃ x, s.buffer.drop s.pos = q ++ s.byte (s.end_ - 1) :: x := by
        refine ⟨s.buffer.drop (s.end_ - 1 + 1), ?_⟩
        rw [drop_eq_append (m := s.end_ - 1) (by omega) (by omega),
          List.drop_eq_getElem_cons (i := s.end_ - 1) (by omega), StreamBuffer.byte,
          List.getD_eq_getElem _ 0 (by omega)]
      have hfile : ∃ x, b :: tail = q ++ s.byte (s.end_ - 1) :: x := by
        refine ⟨(s.buffer.take s.bufferSize).drop (s.end_ - 1 + 1) ++ s.file, ?_⟩
        rw [hcontent, drop_eq_append (m := s.end_ - 1) (by omega) (by omega), List.take_take,
          Nat.min_eq_left (by omega), List.drop_eq_getElem_cons (i := s.end_ - 1) (by omega),
          List.getElem_take, StreamBuffer.byte, List.getD_eq_getElem _ 0 (by omega),
          List.append_assoc, List.cons_append]
      obtain ⟨x, hx⟩ := hmemory
      obtain ⟨y, hy⟩ := hfile
      have hq : q ≠ [] := by
        intro hnil
        rw [hnil, List.nil_append] at hy
        rw [(List.cons.inj hy).1, hspace] at hb
        cases hb
      -- the white space at the end of the chunk stops `strtol`
      have hstop : ∀ z, Ctype.strtol (q ++ s.byte (s.end_ - 1) :: z) = Ctype.strtol q := by
        intro z
        apply strtol_append (hskip hq hy.symm)
        rintro ⟨-, d, hd, hdigit⟩
        rw [List.head?_cons, Option.mem_some_iff] at hd
        rw [← hd, not_isdigit_of_isspace hspace] at hdigit
        cases hdigit
      rw [hx, hy, hstop, hstop]
      refine ⟨rfl, ?_⟩
      intro _
      have hle := strtol_length_le q
      rw [List.length_drop, List.length_take] at hle
      omega

/-- A call of `readInteger` whose number does not run on gives what it gives on the file. -/
theorem Reads.readInteger (h : Reads s content)
    (hrun : ∀ s', s.skipWhitespace = .ok s' → s'.eof = false → ¬ s'.RunsOn) :
  ∃ s', s.readInteger = .ok ((Whole.readInteger content).1, s')
    ∧ Reads s' (Whole.readInteger content).2
  := by
  obtain ⟨s₁, hskip, h₁⟩ := h.skipWhitespace
  rw [StreamBuffer.readInteger, hskip, Whole.readInteger]
  simp only [bind, Except.bind]
  cases hcontent : Whole.skipWhitespace content with
  | nil =>
      rw [hcontent] at h₁
      have heof : s₁.eof = true := h₁.eof
      exact ⟨s₁, if_pos heof, h₁⟩
  | cons b tail =>
      rw [hcontent] at h₁
      have heof : s₁.eof = false := h₁.eof
      obtain ⟨hstrtol, hinside⟩ :=
        h₁.strtol (Whole.isspace_of_skipWhitespace hcontent) (hrun s₁ hskip heof)
      rw [hstrtol, h₁.byte]
      simp only [heof, Bool.false_eq_true, if_false]
      cases hint : integerOf (Ctype.strtol (b :: tail)) b with
      | error e => exact ⟨s₁, rfl, h₁⟩
      | ok number =>
          obtain ⟨s₂, hinc, h₂⟩ := h₁.incPos hinside
          refine ⟨s₂, ?_, h₂⟩
          simp only [hinc]
          rfl

/-! ### Sequences of calls -/

/-- The call does not read a number that runs on into the bytes behind the last chunk. -/
def Safe (s : StreamBuffer) (c : Call) : Prop :=
  c = .readInteger → ∀ s', s.skipWhitespace = .ok s' → s'.eof = false → ¬ s'.RunsOn

/-- A safe call gives what it gives on the file. -/
theorem Reads.call (h : Reads s content) {c : Call} (hsafe : s.Safe c) :
  ∃ s', s.call c = .ok ((Whole.call content c).1, s') ∧ Reads s' (Whole.call content c).2
  := by
  cases c with
  | readInteger =>
      obtain ⟨s', heq, h'⟩ := h.readInteger (hsafe rfl)
      refine ⟨s', ?_, h'⟩
      rw [StreamBuffer.call, heq]
      rfl
  | skipLine =>
      obtain ⟨s', heq, h'⟩ := h.skipLine
      refine ⟨s', ?_, h'⟩
      rw [StreamBuffer.call, heq]
      rfl
  | skipWhitespace =>
      obtain ⟨s', heq, h'⟩ := h.skipWhitespace
      refine ⟨s', ?_, h'⟩
      rw [StreamBuffer.call, heq]
      rfl
  | next =>
      obtain ⟨s', heq, h'⟩ := h.incPos (k := 1) (fun hlast => (h.more hlast).1)
      refine ⟨s', ?_, h'⟩
      rw [StreamBuffer.call, heq]
      rfl
  | deref =>
      refine ⟨s, ?_, h⟩
      rw [StreamBuffer.call, StreamBuffer.deref, h.eof, Whole.call]
      cases content with
      | nil => rfl
      | cons b rest =>
          rw [h.byte]
          rfl
  | eof =>
      refine ⟨s, ?_, h⟩
      rw [StreamBuffer.call, h.eof]
      rfl

/-- A sequence of safe calls gives what it gives on the file. -/
theorem Reads.calls (h : Reads s content) {cs : List Call}
    (hsafe : ∀ before c after, cs = before ++ c :: after →
      ∀ rs s', s.calls before = .ok (rs, s') → s'.Safe c) :
  ∃ s', s.calls cs = .ok (Whole.calls content cs, s')
  := by
  induction cs generalizing s content with
  | nil => exact ⟨s, rfl⟩
  | cons c cs ih =>
      obtain ⟨s₁, hcall, h₁⟩ := h.call (hsafe [] c cs rfl [] s rfl)
      obtain ⟨s₂, hcalls⟩ := ih h₁ (by
        intro before c' after heq rs s' hbefore
        apply hsafe (c :: before) c' after (by rw [heq]; rfl) ((Whole.call content c).1 :: rs)
        simp only [StreamBuffer.calls, hcall, hbefore, bind, Except.bind]
        rfl)
      refine ⟨s₂, ?_⟩
      simp only [StreamBuffer.calls, hcall, hcalls, bind, Except.bind]
      rfl

/-- Behind the constructor the whole file is to be read. -/
theorem init_spec {file memory : List UInt8} (hmemory : 16384 ≤ memory.length)
    (hshort : ShortRuns 16384 file) :
  ∃ s, init file memory = .ok s ∧ Reads s file
  := by
  exact check_refill_spec (s := start file memory) (Nat.succ_pos _) hmemory hshort le_rfl rfl rfl

/-! ### Files that end in white space -/

/-- A call leaves a suffix of what has been left of the file. -/
theorem suffix_call (content : List UInt8) (c : Call) :
  (Whole.call content c).2 <:+ content
  := by
  cases c with
  | readInteger =>
      rw [Whole.call, Whole.readInteger]
      split
      · exact List.nil_suffix
      · next b rest hskip =>
          have hsuffix : b :: rest <:+ content := hskip ▸ List.dropWhile_suffix isspace
          simp only
          split
          · exact (List.drop_suffix _ _).trans hsuffix
          · exact hsuffix
  | skipLine => exact (List.dropWhile_suffix _).trans (List.dropWhile_suffix _)
  | skipWhitespace => exact List.dropWhile_suffix _
  | next => exact List.drop_suffix 1 content
  | deref => exact List.suffix_rfl
  | eof => exact List.suffix_rfl

/-- Behind its first byte, a word in front of white space has a white space. -/
theorem exists_space_afterSign {b : UInt8} {tail : List UInt8} (hb : isspace b = false)
    (hspace : ¬ Whole.EndsInWord (b :: tail)) :
  ∃ d ∈ afterSign (b :: tail), isspace d = true
  := by
  obtain rfl | ⟨tail, d, rfl⟩ := tail.eq_nil_or_concat
  · exact absurd ⟨b, rfl, hb⟩ hspace
  · refine ⟨d, ?_, ?_⟩
    · rw [afterSign, List.dropWhile_cons_of_neg (by simp [hb]), sign]
      split
      · simp
      · simp
    · by_contra hd
      apply hspace
      refine ⟨d, ?_, by simpa using hd⟩
      rw [List.concat_eq_append, ← List.cons_append, List.getLast?_concat]
      rfl

/-- The white space at the end of the file stops `strtol`. -/
theorem Reads.safe (h : Reads s content) (hspace : ¬ Whole.EndsInWord content) (c : Call) :
  s.Safe c
  := by
  rintro - s₁ hskip heof ⟨hlast, hover, -⟩
  obtain ⟨s₁', hskip', h₁⟩ := h.skipWhitespace
  obtain rfl : s₁' = s₁ := Except.ok.inj (hskip'.symm.trans hskip)
  cases hcontent : Whole.skipWhitespace content with
  | nil =>
      rw [hcontent] at h₁
      rw [h₁.eof] at heof
      cases heof
  | cons b tail =>
      rw [hcontent] at h₁
      have hrest : s₁'.rest = b :: tail := (h₁.last hlast).2.2.symm
      have hsuffix : b :: tail <:+ content := hcontent ▸ List.dropWhile_suffix isspace
      rw [← Whole.endsInWord_of_suffix hsuffix (List.cons_ne_nil b tail)] at hspace
      obtain ⟨d, hd, hdspace⟩ :=
        exists_space_afterSign (Whole.isspace_of_skipWhitespace hcontent) hspace
      rw [← hrest] at hd
      exact absurd (hover d hd) (by simp [not_isdigit_of_isspace hdspace])

/-- The buffer still reads the file behind a sequence of calls. -/
theorem Reads.behind_calls (h : Reads s content) (hspace : ¬ Whole.EndsInWord content)
    {cs : List Call} {rs : List Result} {s' : StreamBuffer} (hcalls : s.calls cs = .ok (rs, s')) :
  ∃ content', Reads s' content' ∧ ¬ Whole.EndsInWord content'
  := by
  induction cs generalizing s content rs with
  | nil =>
      obtain ⟨-, rfl⟩ := Prod.mk.inj (Except.ok.inj hcalls)
      exact ⟨content, h, hspace⟩
  | cons c cs ih =>
      obtain ⟨s₁, hcall, h₁⟩ := h.call (h.safe hspace c)
      simp only [StreamBuffer.calls, hcall, bind, Except.bind] at hcalls
      split at hcalls
      · cases hcalls
      · next r hrest =>
          obtain ⟨-, rfl⟩ := Prod.mk.inj (Except.ok.inj hcalls)
          apply ih h₁ _ hrest
          exact Whole.not_endsInWord_of_suffix (suffix_call content c) hspace

/-- No call has to stop at a number at the end of the file when the file ends behind a word. -/
theorem safe_of_not_endsInWord {file memory : List UInt8} (hmemory : 16384 ≤ memory.length)
    (hshort : ShortRuns 16384 file) (hspace : ¬ Whole.EndsInWord file) {cs : List Call} :
  ∀ s, init file memory = .ok s → ∀ before c after, cs = before ++ c :: after →
    ∀ rs s', s.calls before = .ok (rs, s') → s'.Safe c
  := by
  intro s hinit before c after _ rs s' hcalls
  obtain ⟨s₁, hinit₁, hreads⟩ := init_spec hmemory hshort
  obtain rfl : s₁ = s := Except.ok.inj (hinit₁.symm.trans hinit)
  obtain ⟨content, h, hspace'⟩ := hreads.behind_calls hspace hcalls
  exact h.safe hspace' c

end StreamBuffer

/-- On a file whose words are shorter than the buffer, and for any bytes in the buffer
before, a sequence of calls in which no call of `readInteger` runs on behind the last chunk
gives the same results as on the whole file. -/
theorem chunked_reading {file memory : List UInt8} (hmemory : 16384 ≤ memory.length)
    (hshort : ShortRuns 16384 file) {cs : List Call}
    (hsafe : ∀ s, StreamBuffer.init file memory = .ok s →
      ∀ before c after, cs = before ++ c :: after →
        ∀ rs s', s.calls before = .ok (rs, s') → s'.Safe c) :
  ∃ s s', StreamBuffer.init file memory = .ok s ∧ s.calls cs = .ok (Whole.calls file cs, s')
  := by
  obtain ⟨s, hinit, hreads⟩ := StreamBuffer.init_spec hmemory hshort
  obtain ⟨s', hcalls⟩ := hreads.calls (hsafe s hinit)
  exact ⟨s, s', hinit, hcalls⟩

/-- A file that ends in white space is read in chunks as it is read at once. -/
theorem chunked_reading_of_not_endsInWord {file memory : List UInt8}
    (hmemory : 16384 ≤ memory.length) (hshort : ShortRuns 16384 file)
    (hspace : ¬ Whole.EndsInWord file) (cs : List Call) :
  ∃ s s', StreamBuffer.init file memory = .ok s ∧ s.calls cs = .ok (Whole.calls file cs, s')
  := by
  obtain ⟨s, hinit, hreads⟩ := StreamBuffer.init_spec hmemory hshort
  obtain ⟨s', hcalls⟩ := hreads.calls
    (StreamBuffer.safe_of_not_endsInWord hmemory hshort hspace s hinit)
  exact ⟨s, s', hinit, hcalls⟩

/-- The memory of a buffer in which the third byte is the digit three. -/
def staleMemory : List UInt8 :=
  [0, 0, 51] ++ List.replicate 16381 0

theorem length_staleMemory :
  16384 ≤ staleMemory.length
  := by
  rw [staleMemory, List.length_append, List.length_replicate]
  exact le_rfl

theorem shortRuns_of_length_lt {n : Nat} {content : List UInt8} (h : content.length < n) :
  ShortRuns n content
  := fun _ hrun _ => lt_of_le_of_lt hrun.length_le h

/-- A file that begins with so much white space that the buffer is full behind the first digits
of the number 12345. -/
def straddlingFile : List UInt8 :=
  List.replicate 16380 32 ++ 32 :: [49, 50, 51, 52, 53, 32, 54, 10]

theorem shortRuns_straddlingFile :
  ShortRuns 16384 straddlingFile
  := by
  apply ShortRuns.append
  · apply shortRuns_of_length_lt
    rw [List.length_replicate]
    decide
  · decide
  · exact shortRuns_of_length_lt (by decide)

theorem not_endsInWord_straddlingFile :
  ¬ Whole.EndsInWord straddlingFile
  := by
  rw [straddlingFile, Whole.EndsInWord, List.getLast?_append_of_ne_nil _ (List.cons_ne_nil _ _)]
  decide

theorem skipWhitespace_straddlingFile :
  Whole.skipWhitespace straddlingFile = [49, 50, 51, 52, 53, 32, 54, 10]
  := by
  rw [straddlingFile, Whole.skipWhitespace, List.dropWhile_append_of_pos]
  · decide
  · intro b hb
    rw [List.eq_of_mem_replicate hb]
    decide

/-- A number whose first digits are in the first chunk and whose other digits are in the second
one is read as it stands in the file, and so is the number behind it. -/
theorem chunked_reading_straddlingFile :
  ∃ s s', StreamBuffer.init straddlingFile staleMemory = .ok s
    ∧ s.calls [.skipWhitespace, .readInteger, .readInteger, .skipWhitespace, .eof]
      = .ok ([.done, .integer (.ok 12345), .integer (.ok 6), .done, .truth true], s')
  := by
  have hwhole : Whole.calls straddlingFile
      [.skipWhitespace, .readInteger, .readInteger, .skipWhitespace, .eof]
      = [.done, .integer (.ok 12345), .integer (.ok 6), .done, .truth true] := by
    rw [Whole.calls, Whole.call, skipWhitespace_straddlingFile]
    rfl
  rw [← hwhole]
  exact chunked_reading length_staleMemory shortRuns_straddlingFile
    (StreamBuffer.safe_of_not_endsInWord length_staleMemory shortRuns_straddlingFile
      not_endsInWord_straddlingFile)

/-- In front of the end of the file a number runs on into what the memory holds behind it:
from a file with the number 12 the number 123 is read. -/
theorem not_chunked_reading :
  ¬ ∀ (file memory : List UInt8) (cs : List Call), 16384 ≤ memory.length →
      ShortRuns 16384 file →
      ∃ s s', StreamBuffer.init file memory = .ok s ∧ s.calls cs = .ok (Whole.calls file cs, s')
  := by
  intro h
  obtain ⟨s, s', hinit, hcalls⟩ :=
    h [49, 50] staleMemory [.readInteger] length_staleMemory (shortRuns_of_length_lt (by decide))
  have hread : (StreamBuffer.init [49, 50] staleMemory).toOption.all (fun s =>
      (s.calls [.readInteger]).toOption.all (fun r => r.1 = [.integer (.ok 123)])) = true := by
    decide +kernel
  have hwhole : Whole.calls [49, 50] [.readInteger] = [.integer (.ok 12)] := by
    decide
  rw [hinit] at hread
  simp only [Except.toOption, Option.all_some, hcalls, hwhole] at hread
  exact absurd (of_decide_eq_true hread) (by decide)

end CnfTools
