import IgnoreGates.Cadical.AuxFormat
import IgnoreGates.CnfTools.GateStats

/-!
# The list of auxiliary variables is recovered

The set and the counters that `parse_aux` computes are those of the list of records, for
every input in the format.  The inputs outside the format that are accepted nevertheless are
those with a record whose separator is not a space or whose label is not a type code, and
those with blanks in front of the end of the file.  A list printed by cnftools is in the
format.
-/

namespace Cadical

open Ctype CnfTools

/-! ### The state after the records -/

/-- Reading records adds their variables to the set of auxiliary variables. -/
theorem foldl_apply_aux (rs : List AuxRecord) (s : AuxState) :
  (rs.foldl AuxRecord.apply s).aux = s.aux ∪ (rs.map AuxRecord.number).toFinset
  := by
  induction rs generalizing s with
  | nil => simp
  | cons r rs ih =>
      have hr : (r.apply s).aux = insert r.number s.aux := by
        rw [AuxRecord.apply]
        cases r.label <;> rfl
      rw [List.foldl_cons, ih, hr, List.map_cons, List.toFinset_cons, Finset.insert_union,
        Finset.union_insert]

/-- Each record counts for the type its label is the code of. -/
theorem foldl_apply_num (rs : List AuxRecord) (s : AuxState) (t : AuxType) :
  (rs.foldl AuxRecord.apply s).num t = s.num t + rs.countP (fun r => r.label = .code t)
  := by
  induction rs generalizing s with
  | nil => rfl
  | cons r rs ih =>
      have hr : (r.apply s).num t = s.num t + if r.label = .code t then 1 else 0 := by
        rw [AuxRecord.apply]
        cases hl : r.label with
        | other b => simp [AuxLabel.apply, AuxState.addAux]
        | code t' =>
            simp only [AuxLabel.apply, AuxState.count, AuxState.addAux, AuxLabel.code.injEq]
            by_cases htt : t' = t
            · simp [htt]
            · simp [Function.update_of_ne (Ne.symm htt), htt]
      rw [List.foldl_cons, ih, hr, List.countP_cons]
      simp only [decide_eq_true_eq]
      omega

/-- Records that can be read are read, also with blanks behind them. -/
theorem parseAux_records (name : String) {rs : List AuxRecord} (hrs : ∀ r ∈ rs, r.Read)
    (trailing : List UInt8) (htrailing : ∀ b ∈ trailing, isBlank b) :
  parseAux name (recordBytes rs ++ trailing) = (none, rs.foldl AuxRecord.apply .init)
  := File.parseAuxLoop_records hrs htrailing _ rfl (Nat.lt_succ_self _)

/-- A file is accepted if it consists of records and blanks behind them. -/
theorem parseAux_eq_none_iff (name : String) (w : List UInt8) :
  (parseAux name w).1 = none ↔ Accepted w
  := by
  constructor
  · exact File.of_parseAuxLoop
  · rintro ⟨rs, trailing, hrs, htrailing, rfl⟩
    rw [parseAux_records name hrs _ htrailing]

/-! ### Reading is unambiguous -/

/-- A list splits in one way only into entries with a property and a rest whose first entry
does not have it. -/
theorem split_unique {α : Type*} {p : α → Prop} {xs ys : List α} {a b : α} {us vs : List α}
    (hxs : ∀ x ∈ xs, p x) (hys : ∀ y ∈ ys, p y) (ha : ¬ p a) (hb : ¬ p b)
    (h : xs ++ a :: us = ys ++ b :: vs) :
  xs = ys ∧ a = b ∧ us = vs
  := by
  induction xs generalizing ys with
  | nil =>
      cases ys with
      | nil => simpa using h
      | cons y ys =>
          obtain ⟨rfl, -⟩ := List.cons.inj h
          exact absurd (hys a List.mem_cons_self) ha
  | cons x xs ih =>
      cases ys with
      | nil =>
          obtain ⟨rfl, -⟩ := List.cons.inj h
          exact absurd (hxs x List.mem_cons_self) hb
      | cons y ys =>
          obtain ⟨rfl, htail⟩ := List.cons.inj h
          obtain ⟨rfl, hrest⟩ := ih (fun x' hx' => hxs x' (List.mem_cons_of_mem _ hx'))
            (fun y' hy' => hys y' (List.mem_cons_of_mem _ hy')) htail
          exact ⟨rfl, hrest⟩

/-- The first byte of a label determines it. -/
theorem AuxLabel.eq_of_bytes {l l' : AuxLabel} (hl : ∀ b, l = .other b → AuxType.ofLabel b = none)
    (hl' : ∀ b, l' = .other b → AuxType.ofLabel b = none) {us vs : List UInt8}
    (h : l.bytes ++ us = l'.bytes ++ vs) :
  l = l'
  := by
  cases l with
  | code t =>
      obtain ⟨b, hcode, hlabel⟩ := t.code_eq_cons
      cases l' with
      | code t' =>
          obtain ⟨b', hcode', hlabel'⟩ := t'.code_eq_cons
          rw [bytes, bytes, hcode, hcode'] at h
          obtain ⟨rfl, -⟩ := List.cons.inj h
          rw [hlabel] at hlabel'
          rw [Option.some.inj hlabel']
      | other b' =>
          rw [bytes, bytes, hcode] at h
          obtain ⟨rfl, -⟩ := List.cons.inj h
          rw [hl' b rfl] at hlabel
          cases hlabel
  | other b =>
      cases l' with
      | code t' =>
          obtain ⟨b', hcode', hlabel'⟩ := t'.code_eq_cons
          rw [bytes, bytes, hcode'] at h
          obtain ⟨rfl, -⟩ := List.cons.inj h
          rw [hl b rfl] at hlabel'
          cases hlabel'
      | other b' =>
          obtain ⟨rfl, -⟩ := List.cons.inj h
          rfl

/-- A record can be read in front of other bytes in one way only. -/
theorem AuxRecord.eq_of_bytes {r r' : AuxRecord} (hr : r.Read) (hr' : r'.Read)
    {us vs : List UInt8} (h : r.bytes ++ us = r'.bytes ++ vs) :
  r = r' ∧ us = vs
  := by
  obtain ⟨ch, ds, hdigits⟩ := List.exists_cons_of_ne_nil hr.digits_ne_nil
  obtain ⟨ch', ds', hdigits'⟩ := List.exists_cons_of_ne_nil hr'.digits_ne_nil
  have hch : isdigit ch = true := hr.digits ch (hdigits ▸ List.mem_cons_self)
  have hch' : isdigit ch' = true := hr'.digits ch' (hdigits' ▸ List.mem_cons_self)
  rw [bytes, bytes, hdigits, hdigits'] at h
  simp only [List.append_assoc, List.cons_append] at h
  obtain ⟨hpad, rfl, hdigitsSep⟩ := split_unique hr.pad hr'.pad (File.not_isBlank hch)
    (File.not_isBlank hch') h
  obtain ⟨rfl, hsep, hlabelRest⟩ := split_unique
    (fun d hd => hr.digits d (hdigits ▸ List.mem_cons_of_mem ch hd))
    (fun d hd => hr'.digits d (hdigits' ▸ List.mem_cons_of_mem ch hd))
    (Bool.eq_false_iff.mp hr.sep) (Bool.eq_false_iff.mp hr'.sep) hdigitsSep
  have hlabel := AuxLabel.eq_of_bytes hr.label hr'.label hlabelRest
  rw [hlabel] at hlabelRest
  obtain ⟨-, hrest⟩ := List.cons.inj (List.append_cancel_left hlabelRest)
  exact ⟨AuxRecord.ext hpad (hdigits.trans hdigits'.symm) hsep hlabel, hrest⟩

/-- The records of an accepted input and the blanks behind them are unique. -/
theorem recordBytes_unique {rs rs' : List AuxRecord} {trailing trailing' : List UInt8}
    (hrs : ∀ r ∈ rs, r.Read) (hrs' : ∀ r ∈ rs', r.Read) (ht : ∀ b ∈ trailing, isBlank b)
    (ht' : ∀ b ∈ trailing', isBlank b)
    (h : recordBytes rs ++ trailing = recordBytes rs' ++ trailing') :
  rs = rs' ∧ trailing = trailing'
  := by
  have hnot (r : AuxRecord) (hr : r.Read) (us vs : List UInt8) (hus : ∀ b ∈ us, isBlank b) :
      us ≠ r.bytes ++ vs := by
    rintro rfl
    obtain ⟨ch, ds, hdigits⟩ := List.exists_cons_of_ne_nil hr.digits_ne_nil
    apply File.not_isBlank (hr.digits ch (hdigits ▸ List.mem_cons_self))
    apply hus
    simp [AuxRecord.bytes, hdigits]
  induction rs generalizing rs' with
  | nil =>
      cases rs' with
      | nil => exact ⟨rfl, h⟩
      | cons r' rs' =>
          rw [recordBytes, recordBytes, List.flatMap_cons, List.append_assoc] at h
          exact absurd h (hnot r' (hrs' r' List.mem_cons_self) trailing _ ht)
  | cons r rs ih =>
      cases rs' with
      | nil =>
          rw [recordBytes, recordBytes, List.flatMap_cons, List.append_assoc] at h
          exact absurd h.symm (hnot r (hrs r List.mem_cons_self) trailing' _ ht')
      | cons r' rs' =>
          rw [recordBytes, recordBytes, List.flatMap_cons, List.flatMap_cons, List.append_assoc,
            List.append_assoc] at h
          obtain ⟨rfl, hrest⟩ := AuxRecord.eq_of_bytes (hrs r List.mem_cons_self)
            (hrs' r' List.mem_cons_self) h
          obtain ⟨rfl, rfl⟩ := ih (fun q hq => hrs q (List.mem_cons_of_mem r hq))
            (fun q hq => hrs' q (List.mem_cons_of_mem r hq)) hrest
          exact ⟨rfl, rfl⟩

/-! ### The format -/

/-- On the input `w`, an error is reported exactly when the format is violated, and otherwise
the set and the counters are those of the records. -/
structure Recovers (name : String) (w : List UInt8) : Prop where
  accepts : (parseAux name w).1 = none ↔ InFormat w
  aux : ∀ rs, (∀ r ∈ rs, AuxRecord.Format r) → w = recordBytes rs →
    (parseAux name w).2.aux = (rs.map AuxRecord.number).toFinset
  num : ∀ rs, (∀ r ∈ rs, AuxRecord.Format r) → w = recordBytes rs → ∀ t,
    (parseAux name w).2.num t = rs.countP (fun r => r.label = .code t)

/-- Some separator is not a space, some label is not a type code, or blanks stand in front
of the end of the file. -/
def Lenient (w : List UInt8) : Prop :=
  ∃ rs trailing, (∀ r ∈ rs, AuxRecord.Read r) ∧ (∀ b ∈ trailing, isBlank b)
    ∧ w = recordBytes rs ++ trailing
    ∧ (trailing ≠ [] ∨ ∃ r ∈ rs, r.sep ≠ ' '.toUInt8 ∨ ∀ t, r.label ≠ .code t)

/-- A record that is read has the format unless its separator is no space or its label no code. -/
theorem AuxRecord.Read.format_iff {r : AuxRecord} (hr : r.Read) :
  r.Format ↔ ¬ (r.sep ≠ ' '.toUInt8 ∨ ∀ t, r.label ≠ .code t)
  := by
  constructor
  · rintro h (hsep | hlabel)
    · exact hsep h.sep
    · obtain ⟨t, ht⟩ := h.label
      exact hlabel t ht
  · intro h
    obtain ⟨hsep, hlabel⟩ := not_or.mp h
    push Not at hlabel
    exact ⟨hr.pad, hr.digits_ne_nil, hr.digits, hr.number_le, not_not.mp hsep, hlabel⟩

/-- The accepted inputs outside the format. -/
theorem lenient_iff (w : List UInt8) :
  Lenient w ↔ Accepted w ∧ ¬ InFormat w
  := by
  constructor
  · rintro ⟨rs, trailing, hrs, htrailing, rfl, hlenient⟩
    use ⟨rs, trailing, hrs, htrailing, rfl⟩
    rintro ⟨rs', hrs', h⟩
    rw [← List.append_nil (recordBytes rs')] at h
    obtain ⟨rfl, rfl⟩ := recordBytes_unique hrs (fun r hr => (hrs' r hr).read) htrailing
      (by simp) h
    obtain hne | ⟨r, hr, hbad⟩ := hlenient
    · exact hne rfl
    · exact (hrs r hr).format_iff.mp (hrs' r hr) hbad
  · rintro ⟨⟨rs, trailing, hrs, htrailing, rfl⟩, hformat⟩
    refine ⟨rs, trailing, hrs, htrailing, rfl, ?_⟩
    by_contra hstrict
    obtain ⟨htrailing, hrecords⟩ := not_or.mp hstrict
    push Not at htrailing
    apply hformat
    refine ⟨rs, fun r hr => (hrs r hr).format_iff.mpr fun hbad => hrecords ⟨r, hr, hbad⟩, ?_⟩
    rw [htrailing, List.append_nil]

/-- A file is recovered unless it is lenient. -/
theorem recovers_iff (name : String) (w : List UInt8) :
  Recovers name w ↔ ¬ Lenient w
  := by
  rw [lenient_iff]
  constructor
  · rintro h ⟨haccepted, hformat⟩
    exact hformat (h.accepts.mp ((parseAux_eq_none_iff name w).mpr haccepted))
  · intro h
    have hread {rs : List AuxRecord} (hrs : ∀ r ∈ rs, AuxRecord.Format r) :
        parseAux name (recordBytes rs) = (none, rs.foldl AuxRecord.apply .init) := by
      have hrecords := parseAux_records name (fun r hr => (hrs r hr).read) []
        (by simp)
      rwa [List.append_nil] at hrecords
    refine ⟨?_, ?_, ?_⟩
    · rw [parseAux_eq_none_iff]
      constructor
      · intro haccepted
        by_contra hformat
        exact h ⟨haccepted, hformat⟩
      · rintro ⟨rs, hrs, rfl⟩
        exact ⟨rs, [], fun r hr => (hrs r hr).read, by simp, (List.append_nil _).symm⟩
    · rintro rs hrs rfl
      rw [hread hrs, foldl_apply_aux]
      exact Finset.empty_union _
    · rintro rs hrs rfl t
      rw [hread hrs, foldl_apply_num]
      exact Nat.zero_add _

/-! ### Printed lists -/

/-- The type code that is printed for a gate. -/
def printedAs : GateType → Option AuxType
  | .NONE => none
  | .GENERIC => some .GEN
  | .MONO => none
  | .AND => some .AND
  | .OR => some .OR
  | .TRIV => some .TRI
  | .EQIV => some .EQV
  | .FULL => some .FUL

/-- The record of a printed line. -/
def printedRecord (i : Nat) (t : AuxType) : AuxRecord where
  pad := []
  digits := decimal i
  sep := ' '.toUInt8
  label := .code t

theorem printedRecord_number (i : Nat) (t : AuxType) :
  (printedRecord i t).number = i
  := ofDigits_decimal i

/-- A printed record has the format. -/
theorem printedRecord_format {i : Nat} (hi : i ≤ intMax) (t : AuxType) :
  (printedRecord i t).Format
  where
    pad := by simp [printedRecord]
    digits_ne_nil := decimal_ne_nil i
    digits := fun _ hd => isdigit_of_mem_decimal hd
    number_le := (printedRecord_number i t).le.trans hi
    sep := rfl
    label := ⟨t, rfl⟩

/-- The gate type of a variable. -/
def typeOf (gates : GateFormula) (i : Nat) : GateType :=
  (gates.getGate (Lit.ofVar i false)).type

/-- The records of the lines printed for a list of variables. -/
def printedRecords (gates : GateFormula) (is : List Nat) : List AuxRecord :=
  is.filterMap (fun i => (printedAs (typeOf gates i)).map (printedRecord i))

/-- The record of the gate is printed behind what has been printed. -/
theorem visit_out (gates : GateFormula) (s : GateStats) (i : Nat) :
  (s.visit gates i).out = s.out ++ recordBytes (printedRecords gates [i])
  := by
  rw [GateStats.visit]
  cases h : (gates.getGate (Lit.ofVar i false)).type <;>
    simp [printedRecords, typeOf, h, printedAs, GateStats.print, GateStats.count, recordBytes,
      AuxRecord.bytes, printedRecord, AuxLabel.bytes, AuxType.code, AuxType.chars, bytesOf]

/-- A gate is counted for the type that is printed. -/
theorem visit_n (gates : GateFormula) (s : GateStats) (i : Nat) {t : GateType} {a : AuxType}
    (ht : printedAs t = some a) :
  (s.visit gates i).n t = s.n t + if typeOf gates i = t then 1 else 0
  := by
  have hcount (t' : GateType) : (s.count t').n t = s.n t + if t' = t then 1 else 0 := by
    rw [GateStats.count]
    by_cases htt : t' = t
    · simp [htt]
    · simp [Function.update_of_ne (Ne.symm htt), htt]
  rw [GateStats.visit, typeOf]
  cases h : (gates.getGate (Lit.ofVar i false)).type with
  | MONO =>
      rw [if_neg (by rintro rfl; cases ht)]
      rfl
  | _ => exact hcount _

/-- The loop prints the lines of `printedRecords`. -/
theorem foldl_visit_out (gates : GateFormula) (is : List Nat) (s : GateStats) :
  (is.foldl (GateStats.visit gates) s).out = s.out ++ recordBytes (printedRecords gates is)
  := by
  induction is generalizing s with
  | nil => simp [printedRecords, recordBytes]
  | cons i is ih =>
      rw [List.foldl_cons, ih, visit_out, List.append_assoc, recordBytes, recordBytes, recordBytes,
        ← List.flatMap_append, printedRecords, printedRecords, printedRecords,
        ← List.filterMap_append, List.singleton_append]

/-- The loop counts the records of each printed type. -/
theorem foldl_visit_n (gates : GateFormula) (is : List Nat) (s : GateStats) {t : GateType}
    {a : AuxType} (ht : printedAs t = some a) :
  (is.foldl (GateStats.visit gates) s).n t
    = s.n t + (printedRecords gates is).countP (fun r => r.label = .code a)
  := by
  have hinj {t' : GateType} : printedAs t' = some a ↔ t' = t := by
    revert ht
    cases t <;> cases t' <;> cases a <;> decide
  induction is generalizing s with
  | nil => rfl
  | cons i is ih =>
      rw [List.foldl_cons, ih, visit_n gates s i ht, Nat.add_assoc]
      congr 1
      rw [printedRecords, printedRecords, List.filterMap_cons]
      cases hi : printedAs (typeOf gates i) with
      | none =>
          rw [if_neg (by rw [← hinj, hi]; exact nofun), Nat.zero_add]
          rfl
      | some a' =>
          rw [Option.map_some, List.countP_cons, Nat.add_comm]
          congr 1
          simp [← hinj, hi, printedRecord]

/-- The printed records are those of the gates whose type is printed. -/
theorem mem_printedRecords {gates : GateFormula} {is : List Nat} {r : AuxRecord} :
  r ∈ printedRecords gates is
    ↔ ∃ i ∈ is, ∃ t, printedAs (typeOf gates i) = some t ∧ printedRecord i t = r
  := by
  simp only [printedRecords, List.mem_filterMap, Option.map_eq_some_iff]

/-- What the solver reads of a list printed by cnftools. -/
structure ReadsPrinted (name : String) (gates : GateFormula) (nVars : Nat) : Prop where
  accepts : (parseAux name (GateStats.analyze gates nVars).out).1 = none
  aux : ∀ i, i ∈ (parseAux name (GateStats.analyze gates nVars).out).2.aux
    ↔ (1 ≤ i ∧ i ≤ nVars) ∧ (printedAs (typeOf gates i)).isSome
  num : ∀ t a, printedAs t = some a →
    (parseAux name (GateStats.analyze gates nVars).out).2.num a
      = (GateStats.analyze gates nVars).n t
  num_eq_zero : ∀ a, (∀ t, printedAs t ≠ some a) →
    (parseAux name (GateStats.analyze gates nVars).out).2.num a = 0

/-- The list that is printed is read back. -/
theorem readsPrinted (name : String) (gates : GateFormula) {nVars : Nat} (hn : nVars ≤ intMax) :
  ReadsPrinted name gates nVars
  := by
  have hout : (GateStats.analyze gates nVars).out
      = recordBytes (printedRecords gates (List.range' 1 nVars)) :=
    foldl_visit_out gates _ GateStats.init
  have hformat : ∀ r ∈ printedRecords gates (List.range' 1 nVars), AuxRecord.Format r := by
    intro r hr
    obtain ⟨i, hi, t, -, rfl⟩ := mem_printedRecords.mp hr
    apply printedRecord_format
    rw [List.mem_range'_1] at hi
    omega
  have hread := parseAux_records name (fun r hr => (hformat r hr).read) []
    (by simp)
  rw [List.append_nil, ← hout] at hread
  refine ⟨by rw [hread], ?_, ?_, ?_⟩
  · intro i
    rw [hread, foldl_apply_aux, Finset.mem_union, List.mem_toFinset, List.mem_map,
      Option.isSome_iff_exists]
    simp only [mem_printedRecords]
    constructor
    · rintro (hnot | ⟨r, ⟨j, hj, t, ht, rfl⟩, rfl⟩)
      · cases hnot
      · rw [printedRecord_number]
        rw [List.mem_range'_1] at hj
        exact ⟨by omega, t, ht⟩
    · rintro ⟨hi, t, ht⟩
      right
      refine ⟨_, ⟨i, ?_, t, ht, rfl⟩, printedRecord_number i t⟩
      rw [List.mem_range'_1]
      omega
  · intro t a ht
    rw [hread, foldl_apply_num, GateStats.analyze, foldl_visit_n gates _ _ ht]
    rfl
  · intro a ha
    rw [hread, foldl_apply_num]
    apply (Nat.zero_add _).trans
    rw [List.countP_eq_zero]
    intro r hr
    obtain ⟨i, hi, t, ht, rfl⟩ := mem_printedRecords.mp hr
    rw [decide_eq_true_eq]
    rintro heq
    cases heq
    exact ha _ ht

/-- Inputs are recovered unless they are accepted outside the format, and lists printed by
cnftools are recovered; a variable with its sign fits in 32 bits. -/
theorem parseAux_recovers_iff (name : String) :
  (∀ w, Recovers name w ↔ ¬ Lenient w)
    ∧ ∀ gates nVars, nVars ≤ intMax → ReadsPrinted name gates nVars
  := by
  constructor
  · intro w
    exact recovers_iff name w
  · intro gates nVars hn
    exact readsPrinted name gates hn

/-- One conjunction over three variables: the list that is printed is read back. -/
theorem parseAux_recovers_iff_oneGate :
  ReadsPrinted "aux" (GateFormula.init.addGate .AND (Lit.ofVar 2 false) [] [] []) 3
  := (parseAux_recovers_iff "aux").2 _ 3 (by decide)

/-- A newline is accepted as a separator and a digit as a label: the two lines `5` and `7`
are read without an error. -/
theorem not_recovers_twoLines :
  ¬ Recovers "aux" (bytesOf ['5', '\n', '7', '\n'])
  := by
  intro h
  rw [recovers_iff] at h
  apply h
  refine ⟨[⟨[], [53], 10, .other 55⟩], [], ?_, by simp, rfl, ?_⟩
  · intro r hr
    rw [List.mem_singleton.mp hr]
    refine ⟨by simp, by simp, ?_, by decide, by decide, ?_⟩
    · simp only [List.mem_singleton, forall_eq]
      decide
    · rintro b ⟨⟩
      decide
  · right
    exact ⟨_, List.mem_singleton_self _, Or.inl (by decide)⟩

end Cadical
