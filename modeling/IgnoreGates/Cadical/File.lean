import IgnoreGates.Text.Ctype

/-!
# Files

`File` delivers the bytes of an input one by one and counts its lines; parse errors name the
file and the line.  `parse_positive_int` is shared by the parsers of the solver.
-/

namespace Cadical

open Ctype

/-- `INT_MAX`. -/
def intMax : Nat :=
  2147483647

/-- `File`, opened for reading. -/
structure File where
  name : String
  bytes : List UInt8
  lineno : Nat

namespace File

/-- `File::get`, where `none` is `EOF`. -/
def get (f : File) : Option UInt8 × File :=
  match f.bytes with
  | [] => (none, f)
  | b :: bytes => (some b, { f with bytes, lineno := if b = 10 then f.lineno + 1 else f.lineno })

@[simp]
theorem get_nil {f : File} (h : f.bytes = []) :
  f.get = (none, f)
  := by
  rw [get, h]

theorem get_cons {f : File} {b : UInt8} {bytes : List UInt8} (h : f.bytes = b :: bytes) :
  ∃ lineno, f.get = (some b, { f with bytes, lineno })
  := by
  rw [get, h]
  exact ⟨_, rfl⟩

/-- `PER`: the text of a parse error. -/
def per (f : File) (text : String) : String :=
  f.name ++ ":" ++ toString f.lineno ++ ": parse error: " ++ text

/-- The loop of `parse_positive_int`; `f` names the file and the line. -/
def parsePositiveIntLoop (f : File) (name : String) (res : Nat) :
    List UInt8 → Except String (Nat × Option UInt8 × File)
  | [] => .ok (res, none, { f with bytes := [] })
  | ch :: bytes =>
      if isdigit ch then
        let digit := ch.toNat - 48
        if intMax / 10 < res ∨ intMax - digit < 10 * res then
          .error (f.per ("too large '" ++ name ++ "' in header"))
        else
          parsePositiveIntLoop f name (10 * res + digit) bytes
      else
        .ok (res, some ch, { f with bytes, lineno := if ch = 10 then f.lineno + 1 else f.lineno })

/-- `parse_positive_int` behind a first digit `ch`: the number, the byte behind it and the
file behind that. -/
def parsePositiveInt (f : File) (ch : UInt8) (name : String) :
    Except String (Nat × Option UInt8 × File) :=
  parsePositiveIntLoop f name (ch.toNat - 48) f.bytes

theorem ofDigits_cons (n : Nat) (d : UInt8) (ds : List UInt8) :
  ofDigits n (d :: ds) = ofDigits (10 * n + (d.toNat - 48)) ds
  := by
  rw [ofDigits, ofDigits, List.foldl_cons]

theorem le_ofDigits (n : Nat) (ds : List UInt8) :
  n ≤ ofDigits n ds
  := by
  induction ds generalizing n with
  | nil => exact le_rfl
  | cons d ds ih =>
      have hle := ih (10 * n + (d.toNat - 48))
      rw [ofDigits_cons]
      omega

/-- The overflow test fires exactly when the next number exceeds `INT_MAX`. -/
theorem too_large_iff {res : Nat} {ch : UInt8} (hch : isdigit ch = true) :
  (intMax / 10 < res ∨ intMax - (ch.toNat - 48) < 10 * res)
    ↔ intMax < 10 * res + (ch.toNat - 48)
  := by
  simp only [isdigit, decide_eq_true_eq] at hch
  simp only [intMax]
  omega

/-- Digits up to `INT_MAX` are read as a number, together with the byte behind them. -/
theorem parsePositiveIntLoop_ok (f : File) (name : String) {res : Nat} {ds : List UInt8}
    {ch : UInt8} (bytes : List UInt8) (hds : ∀ d ∈ ds, isdigit d = true) (hch : isdigit ch = false)
    (hle : ofDigits res ds ≤ intMax) :
  ∃ lineno, parsePositiveIntLoop f name res (ds ++ ch :: bytes)
    = .ok (ofDigits res ds, some ch, { f with bytes, lineno })
  := by
  induction ds generalizing res with
  | nil =>
      rw [List.nil_append, parsePositiveIntLoop, if_neg (by rw [hch]; exact Bool.false_ne_true)]
      exact ⟨_, rfl⟩
  | cons d ds ih =>
      have hle' := (le_ofDigits (10 * res + (d.toNat - 48)) ds).trans hle
      rw [List.cons_append, parsePositiveIntLoop, if_pos (hds d List.mem_cons_self)]
      simp only
      rw [if_neg (by rw [too_large_iff (hds d List.mem_cons_self)]; omega)]
      exact ih (fun d' hd' => hds d' (List.mem_cons_of_mem d hd')) hle

/-- A number that has been read consists of digits up to `INT_MAX`. -/
theorem of_parsePositiveIntLoop {f : File} {name : String} {res : Nat} {bytes : List UInt8}
    {v : Nat} {ch : Option UInt8} {f' : File} (hres : res ≤ intMax)
    (h : parsePositiveIntLoop f name res bytes = .ok (v, ch, f')) :
  ∃ ds, bytes = ds ++ (ch.toList ++ f'.bytes) ∧ (∀ d ∈ ds, isdigit d = true)
    ∧ v = ofDigits res ds ∧ v ≤ intMax ∧ (∀ b ∈ ch, isdigit b = false)
    ∧ (ch = none → f'.bytes = [])
  := by
  induction bytes generalizing res with
  | nil =>
      cases h
      exact ⟨[], rfl, by simp, rfl, hres, by simp, fun _ => rfl⟩
  | cons b bytes ih =>
      rw [parsePositiveIntLoop] at h
      split at h
      · next hb =>
          simp only at h
          split at h
          · cases h
          · next hsmall =>
              rw [too_large_iff hb, Nat.not_lt] at hsmall
              obtain ⟨ds, rfl, hds, rfl, hv, hch, hnone⟩ := ih hsmall h
              refine ⟨b :: ds, rfl, ?_, rfl, hv, hch, hnone⟩
              intro d hd
              obtain rfl | hd := List.mem_cons.mp hd
              · exact hb
              · exact hds d hd
      · next hb =>
          cases h
          exact ⟨[], rfl, by simp, rfl, hres, by simpa using hb, fun hnone => by cases hnone⟩

end File

end Cadical
