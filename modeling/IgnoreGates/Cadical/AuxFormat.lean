import IgnoreGates.Cadical.ParseAux

/-!
# What `parse_aux` accepts

The inputs accepted are sequences of records in the sense of `AuxRecord.Read`, followed by
blanks.  Inputs in the format are among them and are read as they are meant.
-/

namespace Cadical

open Ctype

def isBlank (b : UInt8) : Prop :=
  b = ' '.toUInt8 ∨ b = '\t'.toUInt8

/-- What stands in the place of the type code: a code, or a byte that starts none. -/
inductive AuxLabel where
  | code (t : AuxType)
  | other (b : UInt8)
  deriving DecidableEq

namespace AuxLabel

def bytes : AuxLabel → List UInt8
  | code t => t.code
  | other b => [b]

/-- The counter that is incremented. -/
def apply (s : AuxState) : AuxLabel → AuxState
  | code t => s.count t
  | other _ => s

end AuxLabel

/-- A line of the input. -/
@[ext]
structure AuxRecord where
  pad : List UInt8
  digits : List UInt8
  sep : UInt8
  label : AuxLabel

namespace AuxRecord

def number (r : AuxRecord) : Nat :=
  ofDigits 0 r.digits

def bytes (r : AuxRecord) : List UInt8 :=
  r.pad ++ r.digits ++ r.sep :: r.label.bytes ++ ['\n'.toUInt8]

/-- The records that are accepted: the separator is any byte but a digit, and the label may
be any byte that starts no type code. -/
structure Read (r : AuxRecord) : Prop where
  pad : ∀ b ∈ r.pad, isBlank b
  digits_ne_nil : r.digits ≠ []
  digits : ∀ d ∈ r.digits, isdigit d = true
  number_le : r.number ≤ intMax
  sep : isdigit r.sep = false
  label : ∀ b, r.label = .other b → AuxType.ofLabel b = none

/-- The records of the format: blanks, a decimal number not above `INT_MAX`, one space and a
type code. -/
structure Format (r : AuxRecord) : Prop where
  pad : ∀ b ∈ r.pad, isBlank b
  digits_ne_nil : r.digits ≠ []
  digits : ∀ d ∈ r.digits, isdigit d = true
  number_le : r.number ≤ intMax
  sep : r.sep = ' '.toUInt8
  label : ∃ t, r.label = .code t

theorem Format.read {r : AuxRecord} (h : r.Format) :
  r.Read
  := by
  obtain ⟨t, ht⟩ := h.label
  refine ⟨h.pad, h.digits_ne_nil, h.digits, h.number_le, ?_, ?_⟩
  · rw [h.sep]
    decide
  · intro b hb
    rw [ht] at hb
    cases hb

/-- The effect of reading the record. -/
def apply (s : AuxState) (r : AuxRecord) : AuxState :=
  let s := r.label.apply (s.addAux r.number)
  { s with currentLine := s.currentLine + 1 }

end AuxRecord

/-- The bytes of a sequence of records. -/
def recordBytes (rs : List AuxRecord) : List UInt8 :=
  rs.flatMap AuxRecord.bytes

/-- The input is a sequence of records of the format. -/
def InFormat (w : List UInt8) : Prop :=
  ∃ rs, (∀ r ∈ rs, AuxRecord.Format r) ∧ w = recordBytes rs

/-- The input is a sequence of accepted records, with blanks behind them. -/
def Accepted (w : List UInt8) : Prop :=
  ∃ rs trailing, (∀ r ∈ rs, AuxRecord.Read r) ∧ (∀ b ∈ trailing, isBlank b)
    ∧ w = recordBytes rs ++ trailing

/-! ### Reading a record -/

theorem newline_toUInt8 :
  '\n'.toUInt8 = 10
  := rfl

namespace File

theorem expects_append (cs rest : List UInt8) {f : File} (h : f.bytes = cs ++ rest) :
  ∃ lineno, expects cs f = (true, { f with bytes := rest, lineno })
  := by
  induction cs generalizing f with
  | nil =>
      use f.lineno
      rw [List.nil_append] at h
      rw [expects, ← h]
  | cons c cs ih =>
      obtain ⟨lineno, hget⟩ := get_cons h
      obtain ⟨lineno', hexpects⟩ := ih (f := { f with bytes := cs ++ rest, lineno }) rfl
      use lineno'
      rw [expects, hget, if_pos rfl]
      exact hexpects

theorem of_expects {cs : List UInt8} {f f' : File} (h : expects cs f = (true, f')) :
  f.bytes = cs ++ f'.bytes
  := by
  induction cs generalizing f with
  | nil =>
      cases h
      rfl
  | cons c cs ih =>
      rw [expects] at h
      split at h
      · next hc =>
          cases hbytes : f.bytes with
          | nil =>
              rw [get_nil hbytes] at hc
              cases hc
          | cons b bytes =>
              obtain ⟨lineno, hget⟩ := get_cons hbytes
              rw [hget] at hc h
              rw [Option.some.inj hc, List.cons_append, ← ih h]
      · cases h

theorem parseType_label {l : AuxLabel} (hl : ∀ b, l = .other b → AuxType.ofLabel b = none)
    (s : AuxState) (rest : List UInt8) {f : File} (h : f.bytes = l.bytes ++ rest) :
  ∃ lineno, parseType s f = (true, l.apply s, { f with bytes := rest, lineno })
  := by
  cases l with
  | code t =>
      obtain ⟨b, hcode, hlabel⟩ := t.code_eq_cons
      rw [AuxLabel.bytes, hcode, List.cons_append] at h
      obtain ⟨lineno, hget⟩ := get_cons h
      obtain ⟨lineno', hexpects⟩ :=
        expects_append t.code.tail rest (f := { f with bytes := t.code.tail ++ rest, lineno }) rfl
      use lineno'
      rw [parseType, hget]
      simp only [Option.bind_some, hlabel, hexpects]
      rfl
  | other b =>
      obtain ⟨lineno, hget⟩ := get_cons (show f.bytes = b :: rest from h)
      use lineno
      rw [parseType, hget]
      simp only [Option.bind_some, hl b rfl]
      rfl

/-- A switch left without an error has read a label, unless the file was at its end. -/
theorem of_parseType {s s' : AuxState} {f f' : File} (h : parseType s f = (true, s', f')) :
  f'.bytes = [] ∨ ∃ l : AuxLabel, (∀ b, l = .other b → AuxType.ofLabel b = none)
    ∧ s' = l.apply s ∧ f.bytes = l.bytes ++ f'.bytes
  := by
  rw [parseType] at h
  cases hbytes : f.bytes with
  | nil =>
      left
      rw [get_nil hbytes] at h
      cases h
      exact hbytes
  | cons b bytes =>
      right
      obtain ⟨lineno, hget⟩ := get_cons hbytes
      rw [hget] at h
      simp only [Option.bind_some] at h
      cases hlabel : AuxType.ofLabel b with
      | none =>
          rw [hlabel] at h
          cases h
          refine ⟨.other b, ?_, rfl, rfl⟩
          intro b' hb'
          cases hb'
          exact hlabel
      | some t =>
          rw [hlabel] at h
          obtain ⟨hfound, hrest⟩ := Prod.mk.inj h
          obtain ⟨hs, hf⟩ := Prod.mk.inj hrest
          have hexpects := of_expects (Prod.ext hfound hf)
          refine ⟨.code t, by simp, ?_, ?_⟩
          · rw [← hs, if_pos hfound]
            rfl
          · rw [AuxLabel.bytes, AuxType.code_of_ofLabel hlabel, List.cons_append, ← hexpects]

/-- An accepted record is read. -/
theorem parseRecord_read {r : AuxRecord} (hr : r.Read) (s : AuxState) {ch : UInt8}
    {ds : List UInt8} (hdigits : r.digits = ch :: ds) (rest : List UInt8) {f : File}
    (h : f.bytes = ds ++ r.sep :: (r.label.bytes ++ '\n'.toUInt8 :: rest)) :
  ∃ lineno, parseRecord s ch f = (none, r.apply s, { f with bytes := rest, lineno })
  := by
  have hnumber : r.number = ofDigits (ch.toNat - 48) ds := by
    rw [AuxRecord.number, hdigits, ofDigits_cons, Nat.mul_zero, Nat.zero_add]
  obtain ⟨lineno₁, hint⟩ := parsePositiveIntLoop_ok f "<aux>"
    (r.label.bytes ++ '\n'.toUInt8 :: rest)
    (fun d hd => hr.digits d (hdigits ▸ List.mem_cons_of_mem ch hd)) hr.sep
    (hnumber ▸ hr.number_le)
  obtain ⟨lineno₂, htype⟩ := parseType_label hr.label (s.addAux r.number) ('\n'.toUInt8 :: rest)
    (f := { f with bytes := r.label.bytes ++ '\n'.toUInt8 :: rest, lineno := lineno₁ }) rfl
  obtain ⟨lineno₃, hget⟩ := get_cons
    (f := { f with bytes := '\n'.toUInt8 :: rest, lineno := lineno₂ }) rfl
  use lineno₃
  rw [parseRecord, parsePositiveInt, h, hint, ← hnumber]
  simp only [htype, hget]
  rw [if_pos trivial, if_pos (congrArg some newline_toUInt8)]
  rfl

/-- A record read without an error is an accepted one. -/
theorem of_parseRecord {s s' : AuxState} {ch : UInt8} (hch : isdigit ch = true) {f f' : File}
    (h : parseRecord s ch f = (none, s', f')) :
  ∃ r : AuxRecord, r.Read ∧ r.pad = [] ∧ s' = r.apply s ∧ ch :: f.bytes = r.bytes ++ f'.bytes
  := by
  have hsmall : ch.toNat - 48 ≤ intMax := by
    simp only [isdigit, decide_eq_true_eq] at hch
    simp only [intMax]
    omega
  rw [parseRecord] at h
  split at h
  · cases h
  · next v sep f₁ hint =>
      obtain ⟨ds, hbytes, hds, hv, hle, hsep, hnone⟩ := of_parsePositiveIntLoop hsmall hint
      generalize htype : parseType (s.addAux v) f₁ = t at h
      obtain ⟨found, s₂, f₂⟩ := t
      simp only at h
      cases found with
      | false => simp at h
      | true =>
          simp only [if_true] at h
          cases hend : f₂.bytes with
          | nil =>
              rw [get_nil hend] at h
              simp at h
          | cons b bytes =>
              obtain ⟨lineno, hget⟩ := get_cons hend
              rw [hget] at h
              simp only [Option.some.injEq] at h
              split at h
              · next hb =>
                  cases h
                  obtain hnil | ⟨l, hl, rfl, hlabel⟩ := of_parseType htype
                  · rw [hend] at hnil
                    cases hnil
                  cases sep with
                  | none =>
                      rw [hnone rfl] at hlabel
                      have hlen := congrArg List.length hlabel
                      rw [hend] at hlen
                      simp at hlen
                  | some c =>
                      refine ⟨⟨[], ch :: ds, c, l⟩, ⟨by simp, List.cons_ne_nil _ _, ?_, ?_, ?_, hl⟩,
                        rfl, ?_, ?_⟩
                      · intro d hd
                        obtain rfl | hd := List.mem_cons.mp hd
                        · exact hch
                        · exact hds d hd
                      · rw [AuxRecord.number, ofDigits_cons, Nat.mul_zero, Nat.zero_add, ← hv]
                        exact hle
                      · exact hsep c rfl
                      · rw [AuxRecord.apply, AuxRecord.number, ofDigits_cons, Nat.mul_zero,
                          Nat.zero_add, ← hv]
                      · rw [hbytes, hlabel, hend, hb, AuxRecord.bytes, newline_toUInt8]
                        simp
              · cases h

/-! ### The loop -/

theorem not_isBlank {b : UInt8} (hb : isdigit b = true) :
  ¬ isBlank b
  := by
  rintro (rfl | rfl) <;> exact absurd hb (by decide)

theorem parseAuxLoop_blanks {pad rest : List UInt8} (hpad : ∀ b ∈ pad, isBlank b) (n : Nat)
    (s : AuxState) {f : File} (h : f.bytes = pad ++ rest) :
  ∃ lineno, parseAuxLoop (pad.length + n) s f
    = parseAuxLoop n s { f with bytes := rest, lineno }
  := by
  induction pad generalizing f with
  | nil =>
      use f.lineno
      rw [List.nil_append] at h
      rw [← h, List.length_nil, Nat.zero_add]
  | cons b pad ih =>
      obtain ⟨lineno, hget⟩ := get_cons h
      obtain ⟨lineno', hpads⟩ := ih (fun b' hb' => hpad b' (List.mem_cons_of_mem b hb'))
        (f := { f with bytes := pad ++ rest, lineno }) rfl
      use lineno'
      rw [List.length_cons, Nat.add_right_comm, parseAuxLoop, hget]
      simp only
      have hb : b = ' '.toUInt8 ∨ b = '\t'.toUInt8 := hpad b List.mem_cons_self
      rw [if_pos hb]
      exact hpads

theorem parseAuxLoop_records {rs : List AuxRecord} {trailing : List UInt8}
    (hrs : ∀ r ∈ rs, r.Read) (htrailing : ∀ b ∈ trailing, isBlank b) {n : Nat} (s : AuxState)
    {f : File} (h : f.bytes = recordBytes rs ++ trailing) (hn : f.bytes.length < n) :
  parseAuxLoop n s f = (none, rs.foldl AuxRecord.apply s)
  := by
  induction rs generalizing n s f with
  | nil =>
      rw [recordBytes, List.flatMap_nil, List.nil_append] at h
      obtain ⟨k, rfl⟩ := Nat.exists_eq_add_of_lt (h ▸ hn)
      obtain ⟨lineno, hblanks⟩ := parseAuxLoop_blanks htrailing (k + 1) s
        (h.trans (List.append_nil _).symm)
      rw [Nat.add_assoc, hblanks, parseAuxLoop, get_nil rfl]
      rfl
  | cons r rs ih =>
      have hr := hrs r List.mem_cons_self
      obtain ⟨ch, ds, hdigits⟩ := List.exists_cons_of_ne_nil hr.digits_ne_nil
      have hch : isdigit ch = true := hr.digits ch (hdigits ▸ List.mem_cons_self)
      have hbytes : f.bytes = r.pad ++ ch :: (ds ++ r.sep :: (r.label.bytes
          ++ '\n'.toUInt8 :: (recordBytes rs ++ trailing))) := by
        rw [h, recordBytes, List.flatMap_cons, AuxRecord.bytes, hdigits]
        simp [recordBytes]
      have hlen := congrArg List.length hbytes
      rw [List.length_append, List.length_cons] at hlen
      obtain ⟨k, rfl⟩ : ∃ k, n = r.pad.length + (k + 1) := ⟨n - r.pad.length - 1, by omega⟩
      obtain ⟨lineno₁, hblanks⟩ := parseAuxLoop_blanks hr.pad (k + 1) s hbytes
      obtain ⟨lineno₂, hget⟩ := get_cons (b := ch) (f := { f with
        bytes := ch :: (ds ++ r.sep :: (r.label.bytes
          ++ '\n'.toUInt8 :: (recordBytes rs ++ trailing))), lineno := lineno₁ }) rfl
      obtain ⟨lineno₃, hrecord⟩ := parseRecord_read hr s hdigits (recordBytes rs ++ trailing)
        (f := { f with bytes := ds ++ r.sep :: (r.label.bytes
          ++ '\n'.toUInt8 :: (recordBytes rs ++ trailing)), lineno := lineno₂ }) rfl
      rw [hblanks, parseAuxLoop, hget]
      simp only
      have hblank : ¬ (ch = ' '.toUInt8 ∨ ch = '\t'.toUInt8) := not_isBlank hch
      rw [if_neg hblank, if_pos hch, hrecord]
      apply ih (fun r' hr' => hrs r' (List.mem_cons_of_mem r hr')) (r.apply s) rfl
      simp only [List.length_append, List.length_cons] at hlen hn ⊢
      omega

/-- An input that is read without an error consists of accepted records. -/
theorem of_parseAuxLoop {n : Nat} {s : AuxState} {f : File} (h : (parseAuxLoop n s f).1 = none) :
  Accepted f.bytes
  := by
  induction n generalizing s f with
  | zero => cases h
  | succ n ih =>
      rw [parseAuxLoop] at h
      cases hbytes : f.bytes with
      | nil => exact ⟨[], [], by simp, by simp, rfl⟩
      | cons ch bytes =>
          obtain ⟨lineno, hget⟩ := get_cons hbytes
          rw [hget] at h
          simp only at h
          split at h
          · next hblank =>
              obtain ⟨rs, trailing, hrs, htrailing, rfl⟩ := ih h
              cases rs with
              | nil =>
                  refine ⟨[], ch :: trailing, by simp, ?_, rfl⟩
                  intro b hb
                  obtain rfl | hb := List.mem_cons.mp hb
                  · exact hblank
                  · exact htrailing b hb
              | cons r rs =>
                  have hr := hrs r List.mem_cons_self
                  refine ⟨{ r with pad := ch :: r.pad } :: rs, trailing, ?_, htrailing, rfl⟩
                  intro r' hr'
                  obtain rfl | hr' := List.mem_cons.mp hr'
                  · refine ⟨?_, hr.digits_ne_nil, hr.digits, hr.number_le, hr.sep, hr.label⟩
                    intro b hb
                    obtain rfl | hb := List.mem_cons.mp hb
                    · exact hblank
                    · exact hr.pad b hb
                  · exact hrs r' (List.mem_cons_of_mem r hr')
          · split at h
            · next hch =>
                split at h
                · cases h
                · next s' f' hrecord =>
                    obtain ⟨r, hr, -, -, hrbytes⟩ := of_parseRecord hch hrecord
                    obtain ⟨rs, trailing, hrs, htrailing, hrest⟩ := ih h
                    refine ⟨r :: rs, trailing, ?_, htrailing, ?_⟩
                    · intro r' hr'
                      obtain rfl | hr' := List.mem_cons.mp hr'
                      · exact hr
                      · exact hrs r' hr'
                    · rw [recordBytes, List.flatMap_cons, List.append_assoc]
                      rw [hrest] at hrbytes
                      exact hrbytes
            · cases h

end File

end Cadical
