import Mathlib.Algebra.Group.Int.Defs
import Mathlib.Algebra.Group.Nat.Defs
import Mathlib.Data.List.TakeWhile

/-!
# Bytes and numbers

The functions of the C library that the parsers rest on, on lists of bytes: the character
classes of the C locale, and `strtol` to base ten for a 64-bit `long`.
-/

namespace Ctype

/-- Space, and the bytes from tab to carriage return. -/
def isspace (b : UInt8) : Bool :=
  b.toNat = 32 ∨ 9 ≤ b.toNat ∧ b.toNat ≤ 13

def isblank (b : UInt8) : Bool :=
  b.toNat = 32 ∨ b.toNat = 9

def isdigit (b : UInt8) : Bool :=
  48 ≤ b.toNat ∧ b.toNat ≤ 57

theorem not_isdigit_of_isspace {b : UInt8} (h : isspace b = true) :
  isdigit b = false
  := by
  simp only [isspace, isdigit, decide_eq_true_eq, decide_eq_false_iff_not] at *
  omega

/-- The number read so far, extended by the digits. -/
def ofDigits (n : Nat) (ds : List UInt8) : Nat :=
  ds.foldl (fun n d => 10 * n + (d.toNat - 48)) n

/-- The bytes of a text. -/
def bytesOf (cs : List Char) : List UInt8 :=
  cs.map Char.toUInt8

/-- What `%u` prints. -/
def decimal (n : Nat) : List UInt8 :=
  bytesOf (Nat.toDigits 10 n)

theorem isDigit_iff (c : Char) :
  c.isDigit = true ↔ 48 ≤ c.toNat ∧ c.toNat ≤ 57
  := by
  rw [Char.isDigit, Bool.and_eq_true, decide_eq_true_eq, decide_eq_true_eq]
  rfl

theorem toNat_toUInt8 {c : Char} (hc : c.isDigit = true) :
  c.toUInt8.toNat = c.toNat
  := by
  have hle := (isDigit_iff c).mp hc
  apply Nat.mod_eq_of_lt
  change c.toNat < 2 ^ 8
  omega

theorem decimal_ne_nil (n : Nat) :
  decimal n ≠ []
  := by
  rw [decimal, bytesOf, Ne, List.map_eq_nil_iff, Nat.toDigits_eq_if (by decide)]
  split <;> simp

theorem isdigit_of_mem_decimal {n : Nat} {d : UInt8} (h : d ∈ decimal n) :
  isdigit d = true
  := by
  obtain ⟨c, hc, rfl⟩ := List.mem_map.mp h
  have hdigit := Nat.isDigit_of_mem_toDigits (by decide) (by decide) hc
  rw [isdigit, toNat_toUInt8 hdigit, decide_eq_true_eq]
  exact (isDigit_iff c).mp hdigit

theorem ofDigits_bytesOf {cs : List Char} (h : ∀ c ∈ cs, c.isDigit = true) (n : Nat) :
  ofDigits n (bytesOf cs) = Nat.ofDigitChars 10 cs n
  := by
  induction cs generalizing n with
  | nil => rfl
  | cons c cs ih =>
      have hstep := ih (fun c' hc' => h c' (List.mem_cons_of_mem c hc')) (10 * n + (c.toNat - 48))
      rw [Nat.ofDigitChars_cons, ofDigits, bytesOf, List.map_cons, List.foldl_cons,
        toNat_toUInt8 (h c List.mem_cons_self)]
      exact hstep

/-- A printed number is read back. -/
theorem ofDigits_decimal (n : Nat) :
  ofDigits 0 (decimal n) = n
  := by
  rw [decimal, ofDigits_bytesOf (fun c hc => Nat.isDigit_of_mem_toDigits (by decide) (by decide) hc)]
  exact Nat.ofDigitChars_ten_toDigits

/-- What `%d` prints. -/
def signed (n : Int) : List UInt8 :=
  if n < 0 then 45 :: decimal n.natAbs else decimal n.natAbs

/-- What `strtol` reports: the number, whether `errno` is `ERANGE`, and how many bytes have
been read. -/
structure Strtol where
  number : Int
  erange : Bool
  length : Nat
  deriving DecidableEq, Repr

/-- The sign in front of a number, if there is one. -/
def sign : List UInt8 → List UInt8
  | [] => []
  | b :: _ => if b = 43 ∨ b = 45 then [b] else []

/-- What follows white space and a sign. -/
def afterSign (s : List UInt8) : List UInt8 :=
  (s.dropWhile isspace).drop (sign (s.dropWhile isspace)).length

/-- A number as `long`, with the flag that it is out of range. -/
def toLong (n : Int) : Int × Bool :=
  if 2 ^ 63 - 1 < n then (2 ^ 63 - 1, true)
  else if n < -2 ^ 63 then (-2 ^ 63, true)
  else (n, false)

/-- `strtol(s, &end, 10)`. -/
def strtol (s : List UInt8) : Strtol :=
  let sgn := sign (s.dropWhile isspace)
  let ds := (afterSign s).takeWhile isdigit
  if ds = [] then
    { number := 0, erange := false, length := 0 }
  else
    let n : Int := if sgn = [45] then -(ofDigits 0 ds : Int) else ofDigits 0 ds
    { number := (toLong n).1
      erange := (toLong n).2
      length := (s.takeWhile isspace).length + sgn.length + ds.length }

/-- Reading the bytes `p` runs on into the bytes `x` that follow: `p` ends in a sign or in
digits behind a sign, and `x` starts with a digit. -/
def Overruns (p x : List UInt8) : Prop :=
  (∀ b ∈ afterSign p, isdigit b = true) ∧ ∃ d ∈ x.head?, isdigit d = true

instance (p x : List UInt8) : Decidable (Overruns p x) :=
  inferInstanceAs (Decidable ((∀ b ∈ afterSign p, isdigit b = true) ∧ ∃ d ∈ x.head?, isdigit d = true))

theorem sign_length_le (s : List UInt8) :
  (sign s).length ≤ s.length
  := by
  cases s with
  | nil => exact le_rfl
  | cons b s =>
      rw [sign]
      split
      · simp
      · simp

theorem sign_append {p : List UInt8} (hp : p ≠ []) (x : List UInt8) :
  sign (p ++ x) = sign p
  := by
  cases p with
  | nil => exact absurd rfl hp
  | cons b p => rfl

/-- Where reading does not run on, what follows is not looked at. -/
theorem strtol_append {p x : List UInt8} (hp : p.dropWhile isspace ≠ [])
    (h : ¬ Overruns p x) :
  strtol (p ++ x) = strtol p
  := by
  have hdrop : (p ++ x).dropWhile isspace = p.dropWhile isspace ++ x := by
    rw [List.dropWhile_append, if_neg (by simpa using hp)]
  have htake : (p ++ x).takeWhile isspace = p.takeWhile isspace := by
    rw [List.takeWhile_append, if_neg]
    intro hlen
    apply hp
    rw [← List.length_eq_zero_iff]
    have hsum := congrArg List.length (List.takeWhile_append_dropWhile (p := isspace) (l := p))
    rw [List.length_append] at hsum
    omega
  have hafter : afterSign (p ++ x) = afterSign p ++ x := by
    rw [afterSign, afterSign, hdrop, sign_append hp, List.drop_append_of_le_length (sign_length_le _)]
  have hdigits : (afterSign p ++ x).takeWhile isdigit = (afterSign p).takeWhile isdigit := by
    rw [List.takeWhile_append]
    split
    · next hall =>
        have hself := List.takeWhile_eq_self_iff.mp
          ((List.takeWhile_prefix isdigit).eq_of_length hall)
        cases x with
        | nil => simp [List.takeWhile_eq_self_iff.mpr hself]
        | cons d x =>
            have hd : isdigit d = false := by
              by_contra hd
              exact h ⟨hself, d, rfl, by simpa using hd⟩
            rw [List.takeWhile_cons, hd]
            simp [List.takeWhile_eq_self_iff.mpr hself]
    · rfl
  rw [strtol, strtol, hdrop, htake, sign_append hp, hafter, hdigits]

theorem strtol_length_le (s : List UInt8) :
  (strtol s).length ≤ s.length
  := by
  rw [strtol]
  simp only
  split
  · exact Nat.zero_le _
  · have hsum := congrArg List.length (List.takeWhile_append_dropWhile (p := isspace) (l := s))
    have hsign := sign_length_le (s.dropWhile isspace)
    have hdigits := (List.takeWhile_prefix isdigit (l := afterSign s)).length_le
    rw [afterSign, List.length_drop] at hdigits
    rw [List.length_append] at hsum
    simp only [afterSign] at *
    omega

theorem sign_append_drop (s : List UInt8) :
  sign s ++ s.drop (sign s).length = s
  := by
  cases s with
  | nil => rfl
  | cons b s =>
      rw [sign]
      split <;> rfl

theorem split_number (s : List UInt8) :
  s = s.takeWhile isspace ++ (sign (s.dropWhile isspace)
    ++ ((afterSign s).takeWhile isdigit ++ (afterSign s).dropWhile isdigit))
  := by
  rw [List.takeWhile_append_dropWhile, afterSign, sign_append_drop,
    List.takeWhile_append_dropWhile]

/-- Where `strtol` stops: behind the digits. -/
theorem strtol_rest {s : List UInt8} (h : 0 < (strtol s).length) :
  s.drop (strtol s).length = (afterSign s).dropWhile isdigit
    ∧ (afterSign s).takeWhile isdigit ≠ []
  := by
  have hlen : (strtol s).length = (s.takeWhile isspace).length
      + ((sign (s.dropWhile isspace)).length + ((afterSign s).takeWhile isdigit).length)
      ∧ (afterSign s).takeWhile isdigit ≠ [] := by
    rw [strtol] at h ⊢
    simp only at h ⊢
    split at h
    · exact absurd h (Nat.lt_irrefl 0)
    · next hds =>
        rw [if_neg hds]
        exact ⟨Nat.add_assoc _ _ _, hds⟩
  refine ⟨?_, hlen.2⟩
  have hpieces : ∀ a b c d : List UInt8, s = a ++ (b ++ (c ++ d)) →
      s.drop (a.length + (b.length + c.length)) = d := by
    intro a b c d heq
    rw [heq, ← List.append_assoc, ← List.append_assoc]
    apply List.drop_left'
    rw [List.length_append, List.length_append, Nat.add_assoc]
  rw [hlen.1, hpieces _ _ _ _ (split_number s)]

/-- What `strtol` reads: white space, a sign and digits. -/
theorem strtol_split {s : List UInt8} (h : 0 < (strtol s).length) :
  s = s.takeWhile isspace ++ (sign (s.dropWhile isspace) ++ (afterSign s).takeWhile isdigit)
      ++ s.drop (strtol s).length
    ∧ (afterSign s).takeWhile isdigit ≠ []
  := by
  obtain ⟨hrest, hne⟩ := strtol_rest h
  refine ⟨?_, hne⟩
  rw [hrest, List.append_assoc, List.append_assoc]
  exact split_number s

/-- The digits of a number behind its sign, if it has one. -/
def spelling (minus : Bool) (digits : List UInt8) : List UInt8 :=
  if minus then '-'.toUInt8 :: digits else digits

/-- The number that is spelled. -/
def value (minus : Bool) (digits : List UInt8) : Int :=
  if minus then -(ofDigits 0 digits : Int) else ofDigits 0 digits

theorem not_isspace_of_isdigit {b : UInt8} (h : isdigit b = true) :
  isspace b = false
  := by
  by_contra hspace
  rw [not_isdigit_of_isspace (by simpa using hspace)] at h
  cases h

/-- A number is read up to its last digit. -/
theorem strtol_spelling (minus : Bool) {digits : List UInt8}
    (hdigits : ∀ d ∈ digits, isdigit d = true) (hne : digits ≠ []) {rest : List UInt8}
    (hrest : ∀ b ∈ rest.head?, isdigit b = false) :
  strtol (spelling minus digits ++ rest) = ⟨(toLong (value minus digits)).1,
    (toLong (value minus digits)).2, (spelling minus digits).length⟩
  := by
  have htake : (digits ++ rest).takeWhile isdigit = digits := by
    rw [List.takeWhile_append_of_pos hdigits]
    cases rest with
    | nil => simp
    | cons b rest => simp [hrest b rfl]
  cases minus with
  | true =>
      have hspace : isspace '-'.toUInt8 = false := rfl
      have hspelling : spelling true digits ++ rest = '-'.toUInt8 :: (digits ++ rest) := rfl
      have hdrop : (spelling true digits ++ rest).dropWhile isspace
          = '-'.toUInt8 :: (digits ++ rest) := by
        rw [hspelling, List.dropWhile_cons, hspace]
        rfl
      have hspaces : (spelling true digits ++ rest).takeWhile isspace = [] := by
        rw [hspelling, List.takeWhile_cons, hspace]
        rfl
      have hsign : sign ('-'.toUInt8 :: (digits ++ rest)) = [45] := rfl
      have hafter : afterSign (spelling true digits ++ rest) = digits ++ rest := by
        rw [afterSign, hdrop]
        rfl
      rw [strtol]
      simp only [hafter, htake, hdrop, hspaces, hsign, hne, if_false, if_true]
      simp [value, spelling, Nat.add_comm]
  | false =>
      obtain ⟨d, ds, rfl⟩ := List.exists_cons_of_ne_nil hne
      have hd := hdigits d List.mem_cons_self
      have hspace := not_isspace_of_isdigit hd
      have hspelling : spelling false (d :: ds) ++ rest = d :: ds ++ rest := rfl
      have hdrop : (spelling false (d :: ds) ++ rest).dropWhile isspace = d :: ds ++ rest := by
        rw [hspelling, List.cons_append, List.dropWhile_cons, hspace]
        rfl
      have hspaces : (spelling false (d :: ds) ++ rest).takeWhile isspace = [] := by
        rw [hspelling, List.cons_append, List.takeWhile_cons, hspace]
        rfl
      have hsign : sign (d :: ds ++ rest) = [] := by
        rw [List.cons_append, sign, if_neg]
        rintro (rfl | rfl) <;> revert hd <;> decide
      have hafter : afterSign (spelling false (d :: ds) ++ rest) = d :: ds ++ rest := by
        rw [afterSign, hdrop, hsign]
        rfl
      rw [strtol]
      simp only [hafter, htake, hdrop, hspaces, hsign, hne, if_false, List.nil_eq, reduceCtorEq]
      simp [value, spelling]

theorem signed_eq_spelling (n : Int) :
  signed n = spelling (n < 0) (decimal n.natAbs)
  := by
  rw [signed, spelling]
  simp only [decide_eq_true_eq]
  rfl

/-- A printed number is read back up to the next byte. -/
theorem strtol_signed {n : Int} (hn : n.natAbs < 2 ^ 63) {rest : List UInt8}
    (hrest : ∀ b ∈ rest.head?, isdigit b = false) :
  strtol (signed n ++ rest) = ⟨n, false, (signed n).length⟩
  := by
  have hlong : toLong n = (n, false) := by
    rw [toLong, if_neg (by omega), if_neg (by omega)]
  have hvalue : value (n < 0) (decimal n.natAbs) = n := by
    rw [value, ofDigits_decimal]
    simp only [decide_eq_true_eq]
    split <;> omega
  rw [signed_eq_spelling, strtol_spelling _ (fun d hd => isdigit_of_mem_decimal hd)
    (decimal_ne_nil _) hrest, hvalue, hlong]

end Ctype
