import Mathlib.Data.Finset.Interval
import Mathlib.Data.List.Nodup
import Mathlib.Order.Interval.Finset.Nat
import IgnoreGates.Kissat.Dense

/-!
# Importing and exporting literals

External variables are mapped to internal ones when their first literal is imported.  The stack
`import` holds the internal literal of each external variable, the stack `export` the external
variable of each internal one.  With `tumble` the internal variables are numbered in the order
of the imports, without it an import also creates the mappings of all smaller variables.

`Inv` says that the two stacks are inverse to each other.  An import keeps it and changes no
mapping that exists.
-/

namespace Kissat

/-- `EXTERNAL_MAX_VAR`. -/
def externalMaxVar : Nat :=
  2 ^ 28 - 1

/-- `INVALID_LIT`. -/
def invalidLit : Lit :=
  ⟨2 ^ 32 - 1⟩

/-- `VALID_EXTERNAL_LITERAL`. -/
def ValidExternalLiteral (elit : Int) : Prop :=
  elit ≠ 0 ∧ elit ≠ -2 ^ 31 ∧ elit.natAbs ≤ externalMaxVar

instance (elit : Int) : Decidable (ValidExternalLiteral elit) :=
  inferInstanceAs (Decidable (_ ∧ _ ∧ _))

/-- `struct import`; `lit` is a field of 30 bits. -/
structure Import where
  lit : Nat
  imported : Bool
  eliminated : Bool
  deriving DecidableEq

/-- The members of the solver for the mapping of variables: the stacks `import` and `export`,
and the number of internal variables. -/
structure Importer where
  imports : List Import
  exports : List Int
  vars : Nat
  deriving DecidableEq

namespace Importer

/-- The solver at the beginning. -/
def init : Importer where
  imports := []
  exports := []
  vars := 0

/-- `PEEK_STACK (solver->import, eidx)`. -/
def peekImport (s : Importer) (eidx : Nat) : Import :=
  s.imports.getD eidx ⟨0, false, false⟩

def adjustImportsForExternalLiteral (s : Importer) (eidx : Nat) : Importer :=
  { s with imports := s.imports ++ List.replicate (eidx + 1 - s.imports.length) ⟨0, false, false⟩ }

/-- `kissat_enlarge_variables`, as far as the number of variables is concerned. -/
def kissatEnlargeVariables (s : Importer) (newVars : Nat) : Importer :=
  if s.vars ≥ newVars then s else { s with vars := newVars }

def adjustExportsForExternalLiteral (s : Importer) (eidx : Nat) : Importer :=
  let iidx := s.vars
  let s := s.kissatEnlargeVariables (iidx + 1)
  let ilit := 2 * iidx
  { s with
    imports := s.imports.set eidx
      { s.peekImport eidx with imported := true, lit := ilit % 2 ^ 30 }
    exports := (s.exports ++ List.replicate (iidx + 1 - s.exports.length) 0).set iidx eidx }

def importLiteral (s : Importer) (elit : Int) : Lit × Importer :=
  let eidx := elit.natAbs
  let s := s.adjustImportsForExternalLiteral eidx
  if (s.peekImport eidx).eliminated then
    (invalidLit, s)
  else
    let s := if (s.peekImport eidx).imported then s else s.adjustExportsForExternalLiteral eidx
    let ilit : Lit := ⟨(s.peekImport eidx).lit⟩
    (if elit < 0 then NOT ilit else ilit, s)

/-- The loop of `kissat_import_literal` from the external variable `other` on, with the number
of iterations behind the first one. -/
def importLoop (s : Importer) (other : Nat) : Nat → Lit × Importer
  | 0 => s.importLiteral other
  | n + 1 => importLoop (s.importLiteral other).2 (other + 1) n

def kissatImportLiteral (tumble : Bool) (s : Importer) (elit : Int) : Lit × Importer :=
  if tumble then
    s.importLiteral elit
  else
    let eidx := elit.natAbs
    let other := s.imports.length
    if eidx < other then
      s.importLiteral elit
    else
      let (s, other) :=
        if other = 0 then (s.adjustImportsForExternalLiteral other, other + 1) else (s, other)
      let (ilit, s) := s.importLoop other (eidx - other)
      (if elit < 0 then NOT ilit else ilit, s)

def kissatExportLiteral (s : Importer) (ilit : Lit) : Int :=
  let elit := s.exports.getD (IDX ilit) 0
  if elit = 0 then 0 else if ilit.sign then -elit else elit

/-- A sequence of imports. -/
def run (tumble : Bool) (s : Importer) (elits : List Int) : Importer :=
  elits.foldl (fun s elit => (s.kissatImportLiteral tumble elit).2) s

/-! ### The invariant -/

/-- The external variable and the internal one are mapped to each other. -/
structure Maps (s : Importer) (eidx iidx : Nat) : Prop where
  imports : s.imports[eidx]? = some ⟨2 * iidx, true, false⟩
  exports : s.exports[iidx]? = some (eidx : Int)

/-- The two stacks are inverse to each other, and no variable is eliminated. -/
structure Inv (s : Importer) : Prop where
  vars : s.exports.length = s.vars
  not_eliminated : ∀ (eidx : Nat) (i : Import), s.imports[eidx]? = some i → i.eliminated = false
  import_maps : ∀ (eidx : Nat) (i : Import), s.imports[eidx]? = some i → i.imported = true →
    ∃ iidx, s.Maps eidx iidx
  export_maps : ∀ iidx, iidx < s.vars →
    ∃ eidx, 1 ≤ eidx ∧ eidx ≤ externalMaxVar ∧ s.Maps eidx iidx

/-- All mappings of the first solver are mappings of the second one. -/
def Extends (s s' : Importer) : Prop :=
  ∀ eidx iidx, s.Maps eidx iidx → s'.Maps eidx iidx

variable {s s' : Importer}

theorem Extends.trans {s'' : Importer} (h : Extends s s') (h' : Extends s' s'') :
  Extends s s''
  := fun eidx iidx hmaps => h' eidx iidx (h eidx iidx hmaps)

theorem init_inv :
  Inv init
  := by
  constructor
  · rfl
  · intro eidx i h
    cases h
  · intro eidx i h
    cases h
  · intro iidx h
    cases h

/-- Internal variables of different external ones are different. -/
theorem Maps.eidx_eq {e e' iidx : Nat} (h : s.Maps e iidx) (h' : s.Maps e' iidx) :
  e = e'
  := by
  have heq := h.exports.symm.trans h'.exports
  exact Int.ofNat.inj (Option.some.inj heq)

theorem Maps.iidx_eq {e iidx iidx' : Nat} (h : s.Maps e iidx) (h' : s.Maps e iidx') :
  iidx = iidx'
  := by
  have heq := congrArg Import.lit (Option.some.inj (h.imports.symm.trans h'.imports))
  exact Nat.eq_of_mul_eq_mul_left Nat.two_pos heq

/-- There are at most as many internal variables as external ones, so that internal literals
fit into 30 bits. -/
theorem Inv.vars_le (h : Inv s) :
  s.vars ≤ externalMaxVar
  := by
  choose! eidx hpos hle hmaps using h.export_maps
  have hcard := Finset.card_le_card_of_injOn (s := Finset.range s.vars)
    (t := Finset.Icc 1 externalMaxVar) eidx
    (by
      intro iidx hi
      rw [Finset.coe_range, Set.mem_Iio] at hi
      exact Finset.mem_coe.mpr (Finset.mem_Icc.mpr ⟨hpos iidx hi, hle iidx hi⟩))
    (by
      intro i hi j hj heq
      rw [Finset.coe_range, Set.mem_Iio] at hi hj
      apply (hmaps i hi).iidx_eq
      rw [heq]
      exact hmaps j hj)
  rw [Finset.card_range, Nat.card_Icc] at hcard
  omega

/-! ### One import -/

theorem getElem?_adjust_imports (s : Importer) (eidx j : Nat) :
  (s.adjustImportsForExternalLiteral eidx).imports[j]?
    = if j < s.imports.length then s.imports[j]?
      else if j ≤ eidx then some ⟨0, false, false⟩ else none
  := by
  rw [adjustImportsForExternalLiteral, List.getElem?_append]
  split
  · rfl
  · next hj =>
      rw [List.getElem?_replicate]
      by_cases hle : j ≤ eidx
      · rw [if_pos hle, if_pos (by omega)]
      · rw [if_neg hle, if_neg (by omega)]

/-- Entries without a mapping may be added. -/
theorem Inv.adjust_imports (h : Inv s) (eidx : Nat) :
  Inv (s.adjustImportsForExternalLiteral eidx)
    ∧ Extends s (s.adjustImportsForExternalLiteral eidx)
  := by
  have hextends : Extends s (s.adjustImportsForExternalLiteral eidx) := by
    intro e iidx hmaps
    constructor
    · rw [getElem?_adjust_imports, if_pos (List.getElem?_eq_some_iff.mp hmaps.imports).1]
      exact hmaps.imports
    · exact hmaps.exports
  have hentry : ∀ (j : Nat) (i : Import),
      (s.adjustImportsForExternalLiteral eidx).imports[j]? = some i →
      s.imports[j]? = some i ∨ i = ⟨0, false, false⟩ := by
    intro j i hj
    rw [getElem?_adjust_imports] at hj
    split at hj
    · exact Or.inl hj
    · split at hj
      · exact Or.inr (Option.some.inj hj).symm
      · cases hj
  refine ⟨⟨h.vars, ?_, ?_, ?_⟩, hextends⟩
  · intro j i hj
    obtain hj | rfl := hentry j i hj
    · exact h.not_eliminated j i hj
    · rfl
  · intro j i hj himported
    obtain hj | rfl := hentry j i hj
    · obtain ⟨iidx, hmaps⟩ := h.import_maps j i hj himported
      exact ⟨iidx, hextends j iidx hmaps⟩
    · cases himported
  · intro iidx hlt
    obtain ⟨e, hpos, hle, hmaps⟩ := h.export_maps iidx hlt
    exact ⟨e, hpos, hle, hextends e iidx hmaps⟩

/-- The external variable is the one of the next internal variable. -/
theorem Inv.exports_adjust_exports (h : Inv s) (eidx : Nat) :
  (s.adjustExportsForExternalLiteral eidx).exports = s.exports ++ [(eidx : Int)]
  := by
  simp only [adjustExportsForExternalLiteral, kissatEnlargeVariables,
    if_neg (Nat.not_succ_le_self s.vars), ge_iff_le]
  rw [show s.vars + 1 - s.exports.length = 1 by rw [h.vars]; omega, ← h.vars]
  simp

/-- A variable that has no mapping gets the next internal variable. -/
theorem Inv.adjust_exports (h : Inv s) {eidx lit : Nat} (hpos : 1 ≤ eidx)
    (hle : eidx ≤ externalMaxVar) (hentry : s.imports[eidx]? = some ⟨lit, false, false⟩) :
  Inv (s.adjustExportsForExternalLiteral eidx)
    ∧ Extends s (s.adjustExportsForExternalLiteral eidx)
    ∧ (s.adjustExportsForExternalLiteral eidx).Maps eidx s.vars
  := by
  obtain ⟨hlt, -⟩ := List.getElem?_eq_some_iff.mp hentry
  have hpeek : s.peekImport eidx = ⟨lit, false, false⟩ := by
    rw [peekImport, List.getD_eq_getElem?_getD, hentry]
    rfl
  have hbits : 2 * s.vars % 2 ^ 30 = 2 * s.vars := by
    have hvars := h.vars_le
    apply Nat.mod_eq_of_lt
    rw [externalMaxVar] at hvars
    omega
  have himports : (s.adjustExportsForExternalLiteral eidx).imports
      = s.imports.set eidx ⟨2 * s.vars, true, false⟩ := by
    simp only [adjustExportsForExternalLiteral, kissatEnlargeVariables,
      if_neg (Nat.not_succ_le_self s.vars), ge_iff_le, hbits]
    rw [show ({ s with vars := s.vars + 1 } : Importer).peekImport eidx = s.peekImport eidx from rfl,
      hpeek]
  have hexports := h.exports_adjust_exports eidx
  have hvars : (s.adjustExportsForExternalLiteral eidx).vars = s.vars + 1 := by
    simp only [adjustExportsForExternalLiteral, kissatEnlargeVariables,
      if_neg (Nat.not_succ_le_self s.vars), ge_iff_le]
  have hnew : (s.adjustExportsForExternalLiteral eidx).Maps eidx s.vars := by
    constructor
    · rw [himports, List.getElem?_set_self hlt]
    · rw [hexports, ← h.vars, List.getElem?_concat_length]
  have hextends : Extends s (s.adjustExportsForExternalLiteral eidx) := by
    intro e iidx hmaps
    constructor
    · rw [himports, List.getElem?_set_ne, hmaps.imports]
      rintro rfl
      have hmapped := hmaps.imports
      rw [hentry] at hmapped
      cases hmapped
    · rw [hexports, List.getElem?_append_left (List.getElem?_eq_some_iff.mp hmaps.exports).1]
      exact hmaps.exports
  have hold : ∀ (j : Nat) (i : Import),
      (s.adjustExportsForExternalLiteral eidx).imports[j]? = some i →
      j = eidx ∧ i = ⟨2 * s.vars, true, false⟩ ∨ s.imports[j]? = some i := by
    intro j i hj
    rw [himports] at hj
    by_cases heq : j = eidx
    · subst heq
      rw [List.getElem?_set_self hlt] at hj
      exact Or.inl ⟨rfl, (Option.some.inj hj).symm⟩
    · rw [List.getElem?_set_ne (Ne.symm heq)] at hj
      exact Or.inr hj
  refine ⟨⟨?_, ?_, ?_, ?_⟩, hextends, hnew⟩
  · rw [hexports, hvars, List.length_append, h.vars]
    rfl
  · intro j i hj
    obtain ⟨-, rfl⟩ | hj := hold j i hj
    · rfl
    · exact h.not_eliminated j i hj
  · intro j i hj himported
    obtain ⟨rfl, -⟩ | hj := hold j i hj
    · exact ⟨s.vars, hnew⟩
    · obtain ⟨iidx, hmaps⟩ := h.import_maps j i hj himported
      exact ⟨iidx, hextends j iidx hmaps⟩
  · intro iidx hiidx
    rw [hvars] at hiidx
    obtain hiidx | rfl := Nat.lt_succ_iff_lt_or_eq.mp hiidx
    · obtain ⟨e, hepos, hele, hmaps⟩ := h.export_maps iidx hiidx
      exact ⟨e, hepos, hele, hextends e iidx hmaps⟩
    · exact ⟨eidx, hpos, hle, hnew⟩

/-- The internal literal of an external one. -/
def literal (elit : Int) (iidx : Nat) : Lit :=
  if elit < 0 then NOT ⟨2 * iidx⟩ else ⟨2 * iidx⟩

/-- What importing a literal leaves: the invariant holds, no mapping has been changed, and the
result is the literal that the variable is mapped to. -/
def Imported (s : Importer) (elit : Int) (r : Lit × Importer) : Prop :=
  Inv r.2 ∧ Extends s r.2 ∧ ∃ iidx, r.2.Maps elit.natAbs iidx ∧ r.1 = literal elit iidx

theorem Inv.importLiteral (h : Inv s) {elit : Int} (hne : elit ≠ 0)
    (hle : elit.natAbs ≤ externalMaxVar) :
  Imported s elit (s.importLiteral elit)
  := by
  have hadjust := h.adjust_imports elit.natAbs
  have hlength : elit.natAbs
      < (s.adjustImportsForExternalLiteral elit.natAbs).imports.length := by
    simp only [adjustImportsForExternalLiteral, List.length_append, List.length_replicate]
    omega
  rw [Importer.importLiteral]
  revert hadjust hlength
  generalize s.adjustImportsForExternalLiteral elit.natAbs = s₁
  rintro ⟨h₁, hextends₁⟩ hlength
  have hentry := List.getElem?_eq_getElem hlength
  have hpeek : s₁.peekImport elit.natAbs = s₁.imports[elit.natAbs] := by
    rw [peekImport, List.getD_eq_getElem _ _ hlength]
  have helim := h₁.not_eliminated _ _ hentry
  have heta : ∀ i : Import, i.imported = false → i.eliminated = false → i = ⟨i.lit, false, false⟩ := by
    rintro ⟨lit, imported, eliminated⟩ rfl rfl
    rfl
  simp only
  rw [hpeek, helim]
  cases himported : (s₁.imports[elit.natAbs]).imported with
  | true =>
      obtain ⟨iidx, hmaps⟩ := h₁.import_maps _ _ hentry himported
      have hlit : s₁.imports[elit.natAbs] = ⟨2 * iidx, true, false⟩ :=
        Option.some.inj (hentry.symm.trans hmaps.imports)
      refine ⟨h₁, hextends₁, iidx, hmaps, ?_⟩
      simp only [Bool.false_eq_true, if_false, if_true, hpeek, hlit]
      rfl
  | false =>
      have hunmapped : s₁.imports[elit.natAbs]?
          = some ⟨(s₁.imports[elit.natAbs]).lit, false, false⟩ := by
        rw [hentry, ← heta _ himported helim]
      obtain ⟨h₂, hextends₂, hmaps⟩ := h₁.adjust_exports (by omega) hle hunmapped
      have hlit : ((s₁.adjustExportsForExternalLiteral elit.natAbs).peekImport elit.natAbs)
          = ⟨2 * s₁.vars, true, false⟩ := by
        rw [peekImport, List.getD_eq_getElem?_getD, hmaps.imports]
        rfl
      refine ⟨h₂, hextends₁.trans hextends₂, s₁.vars, hmaps, ?_⟩
      simp only [Bool.false_eq_true, if_false, hlit]
      rfl

/-- The loop imports the variables up to the last one. -/
theorem Inv.importLoop (h : Inv s) {other n : Nat} (hpos : 1 ≤ other)
    (hle : other + n ≤ externalMaxVar) :
  Imported s ((other + n : Nat) : Int) (s.importLoop other n)
  := by
  induction n generalizing s other with
  | zero =>
      apply h.importLiteral
      · omega
      · simpa using hle
  | succ n ih =>
      obtain ⟨h₁, hextends₁, -⟩ :=
        h.importLiteral (show ((other : Nat) : Int) ≠ 0 by omega)
          (by rw [Int.natAbs_natCast]; omega)
      obtain ⟨h₂, hextends₂, hmaps⟩ := ih h₁ (show 1 ≤ other + 1 by omega) (by omega)
      rw [Importer.importLoop, show other + (n + 1) = other + 1 + n by omega]
      exact ⟨h₂, hextends₁.trans hextends₂, hmaps⟩

theorem Inv.kissatImportLiteral (h : Inv s) (tumble : Bool) {elit : Int}
    (hvalid : ValidExternalLiteral elit) :
  Imported s elit (s.kissatImportLiteral tumble elit)
  := by
  obtain ⟨hne, -, hle⟩ := hvalid
  have hloop : ∀ {s : Importer} {other : Nat}, Inv s → 1 ≤ other → other ≤ elit.natAbs →
      Imported s elit
        (if elit < 0 then NOT (s.importLoop other (elit.natAbs - other)).1
          else (s.importLoop other (elit.natAbs - other)).1,
        (s.importLoop other (elit.natAbs - other)).2) := by
    intro s other h hpos hother
    obtain ⟨hinv, hextends, iidx, hmaps, hlit⟩ :=
      h.importLoop hpos (show other + (elit.natAbs - other) ≤ externalMaxVar by omega)
    rw [show other + (elit.natAbs - other) = elit.natAbs by omega] at hmaps hlit
    refine ⟨hinv, hextends, iidx, hmaps, ?_⟩
    simp only [hlit, literal, if_neg (Int.not_lt.mpr (Int.natCast_nonneg elit.natAbs))]
  rw [Importer.kissatImportLiteral]
  split
  · exact h.importLiteral hne hle
  · by_cases hlt : elit.natAbs < s.imports.length
    · simp only [if_pos hlt]
      exact h.importLiteral hne hle
    · simp only [if_neg hlt]
      by_cases hzero : s.imports.length = 0
      · obtain ⟨h₁, hextends₁⟩ := h.adjust_imports s.imports.length
        obtain ⟨h₂, hextends₂, hmaps⟩ := hloop h₁
          (show 1 ≤ s.imports.length + 1 by omega) (by omega)
        simp only [if_pos hzero]
        exact ⟨h₂, hextends₁.trans hextends₂, hmaps⟩
      · simp only [if_neg hzero]
        exact hloop h (by omega) (by omega)

/-! ### Sequences of imports -/

theorem Inv.run (h : Inv s) (tumble : Bool) {elits : List Int}
    (hvalid : ∀ elit ∈ elits, ValidExternalLiteral elit) :
  Inv (s.run tumble elits) ∧ Extends s (s.run tumble elits)
  := by
  induction elits generalizing s with
  | nil => exact ⟨h, fun _ _ hmaps => hmaps⟩
  | cons elit elits ih =>
      obtain ⟨h₁, hextends₁, -⟩ := h.kissatImportLiteral tumble (hvalid elit List.mem_cons_self)
      obtain ⟨h₂, hextends₂⟩ := ih h₁ (fun e he => hvalid e (List.mem_cons_of_mem elit he))
      exact ⟨h₂, hextends₁.trans hextends₂⟩

theorem run_append (s : Importer) (tumble : Bool) (before after : List Int) :
  s.run tumble (before ++ after) = (s.run tumble before).run tumble after
  := List.foldl_append

theorem IDX_literal (elit : Int) (iidx : Nat) :
  IDX (literal elit iidx) = iidx
  := by
  have hidx : IDX ⟨2 * iidx⟩ = iidx := Nat.mul_div_cancel_left iidx Nat.two_pos
  rw [literal]
  split
  · rw [IDX_NOT, hidx]
  · exact hidx

/-- The literal that a variable is mapped to is exported as the literal it stands for. -/
theorem Maps.kissatExportLiteral {elit : Int} {iidx : Nat} (h : s.Maps elit.natAbs iidx)
    (hne : elit ≠ 0) :
  s.kissatExportLiteral (literal elit iidx) = elit
  := by
  have hsign : (⟨2 * iidx⟩ : Lit).sign = false := by
    simp [CnfTools.Lit.sign]
  rw [Importer.kissatExportLiteral, IDX_literal, List.getD_eq_getElem?_getD, h.exports]
  simp only [Option.getD_some]
  rw [if_neg (by omega), literal]
  split
  · next hneg =>
      rw [NOT, CnfTools.Lit.sign_compl, hsign, if_pos (by rfl)]
      omega
  · next hneg =>
      rw [hsign, if_neg Bool.false_ne_true]
      omega

/-- Import and export are inverse to each other over a sequence of imports. -/
structure Inverse (tumble : Bool) (elits : List Int) : Prop where
  /-- A literal that has been imported is exported as itself. -/
  export_import : ∀ before elit after, elits = before ++ elit :: after →
    (init.run tumble elits).kissatExportLiteral
      ((init.run tumble before).kissatImportLiteral tumble elit).1 = elit
  /-- Importing it once more gives the same internal literal, a valid one. -/
  import_again : ∀ before elit after, elits = before ++ elit :: after →
    ((init.run tumble elits).kissatImportLiteral tumble elit).1
        = ((init.run tumble before).kissatImportLiteral tumble elit).1
      ∧ IDX ((init.run tumble before).kissatImportLiteral tumble elit).1
        < (init.run tumble elits).vars
  /-- Different external variables have different internal ones. -/
  injective : ∀ e ∈ elits, ∀ e' ∈ elits, e.natAbs ≠ e'.natAbs →
    IDX ((init.run tumble elits).kissatImportLiteral tumble e).1
      ≠ IDX ((init.run tumble elits).kissatImportLiteral tumble e').1
  /-- No import changes an earlier mapping. -/
  unchanged : ∀ before after, elits = before ++ after →
    Extends (init.run tumble before) (init.run tumble elits)

/-- In every sequence of imports, exporting is the inverse of importing, and later imports change
nothing. -/
theorem import_inverse (tumble : Bool) {elits : List Int}
    (hvalid : ∀ elit ∈ elits, ValidExternalLiteral elit) :
  Inverse tumble elits
  := by
  obtain ⟨hinv, -⟩ := init_inv.run tumble hvalid
  -- An import at any time gives the literal of the final mapping.
  have hmapped : ∀ before elit after, elits = before ++ elit :: after → ∃ iidx,
      (init.run tumble elits).Maps elit.natAbs iidx
        ∧ ((init.run tumble before).kissatImportLiteral tumble elit).1 = literal elit iidx := by
    rintro before elit after rfl
    obtain ⟨hbefore, -⟩ := init_inv.run tumble
      (fun e he => hvalid e (List.mem_append_left (elit :: after) he))
    obtain ⟨h₁, -, iidx, hmaps, hlit⟩ :=
      hbefore.kissatImportLiteral tumble (hvalid elit (by simp))
    obtain ⟨-, hextends⟩ := h₁.run tumble (fun e (he : e ∈ after) =>
      hvalid e (List.mem_append_right before (List.mem_cons_of_mem elit he)))
    refine ⟨iidx, ?_, hlit⟩
    rw [run_append]
    exact hextends _ _ hmaps
  have hagain : ∀ {elit : Int} {iidx : Nat}, ValidExternalLiteral elit →
      (init.run tumble elits).Maps elit.natAbs iidx →
      ((init.run tumble elits).kissatImportLiteral tumble elit).1 = literal elit iidx := by
    intro elit iidx helit hmaps
    obtain ⟨-, hextends, iidx', hmaps', hlit⟩ := hinv.kissatImportLiteral tumble helit
    rw [hlit, hmaps'.iidx_eq (hextends _ _ hmaps)]
  constructor
  · intro before elit after heq
    have helit := hvalid elit (by rw [heq]; simp)
    obtain ⟨iidx, hmaps, hlit⟩ := hmapped before elit after heq
    rw [hlit]
    exact hmaps.kissatExportLiteral helit.1
  · intro before elit after heq
    have helit := hvalid elit (by rw [heq]; simp)
    obtain ⟨iidx, hmaps, hlit⟩ := hmapped before elit after heq
    rw [hlit, hagain helit hmaps, IDX_literal, ← hinv.vars]
    exact ⟨rfl, (List.getElem?_eq_some_iff.mp hmaps.exports).1⟩
  · intro e he e' he' hne hidx
    obtain ⟨before, after, heq⟩ := List.append_of_mem he
    obtain ⟨before', after', heq'⟩ := List.append_of_mem he'
    obtain ⟨iidx, hmaps, -⟩ := hmapped before e after heq
    obtain ⟨iidx', hmaps', -⟩ := hmapped before' e' after' heq'
    rw [hagain (hvalid e he) hmaps, hagain (hvalid e' he') hmaps', IDX_literal, IDX_literal] at hidx
    subst hidx
    exact hne (hmaps.eidx_eq hmaps')
  · rintro before after rfl
    obtain ⟨hbefore, -⟩ := init_inv.run tumble
      (fun e he => hvalid e (List.mem_append_left after he))
    rw [run_append]
    exact (hbefore.run tumble (fun e he => hvalid e (List.mem_append_right before he))).2

/-- Three imports without `tumble`, the first of which creates three mappings. -/
theorem import_inverse_gap :
  Inverse false [-3, 5, 1]
  := import_inverse false (by decide)

end Importer

end Kissat
