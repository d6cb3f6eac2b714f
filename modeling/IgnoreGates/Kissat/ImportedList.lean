import IgnoreGates.Kissat.Import
import IgnoreGates.Kissat.Internal

/-!
# The list of imported variables

The loader keeps the external variables that have been imported as a list.  The solver keeps
them on the stack `export`, with their internal literals on the stack `import`.  A literal is
imported in the same way into both: the list follows the stack `export`, and the internal
literals agree.
-/

namespace Kissat

namespace Importer

variable {s : Importer}

/-! ### The stacks behind an import -/

/-- The exported variables are the ones that have a mapping. -/
theorem Inv.mem_exports_iff (h : Inv s) (eidx : Nat) :
  (eidx : Int) ∈ s.exports ↔ ∃ iidx, s.Maps eidx iidx
  := by
  constructor
  · intro hmem
    obtain ⟨iidx, hget⟩ := List.mem_iff_getElem?.mp hmem
    have hlt : iidx < s.vars := by
      rw [← h.vars]
      exact (List.getElem?_eq_some_iff.mp hget).1
    obtain ⟨e, -, -, hmaps⟩ := h.export_maps iidx hlt
    have he : e = eidx := Int.ofNat.inj (Option.some.inj (hmaps.exports.symm.trans hget))
    exact ⟨iidx, he ▸ hmaps⟩
  · rintro ⟨iidx, hmaps⟩
    exact List.mem_of_getElem? hmaps.exports

theorem length_importLiteral (s : Importer) (elit : Int) :
  (s.importLiteral elit).2.imports.length = max s.imports.length (elit.natAbs + 1)
  := by
  have hlength : (s.adjustImportsForExternalLiteral elit.natAbs).imports.length
      = max s.imports.length (elit.natAbs + 1) := by
    simp only [adjustImportsForExternalLiteral, List.length_append, List.length_replicate]
    omega
  rw [Importer.importLiteral]
  split
  · exact hlength
  · split
    · exact hlength
    · simp only [adjustExportsForExternalLiteral, List.length_set]
      rw [kissatEnlargeVariables]
      split <;> exact hlength

/-- A variable that is not exported yet becomes the last one. -/
theorem Inv.exports_importLiteral (h : Inv s) (elit : Int) :
  (s.importLiteral elit).2.exports
    = if (elit.natAbs : Int) ∈ s.exports then s.exports else s.exports ++ [(elit.natAbs : Int)]
  := by
  have h₁ := (h.adjust_imports elit.natAbs).1
  have hmem := h₁.mem_exports_iff elit.natAbs
  have hlength : elit.natAbs
      < (s.adjustImportsForExternalLiteral elit.natAbs).imports.length := by
    simp only [adjustImportsForExternalLiteral, List.length_append, List.length_replicate]
    omega
  have hexports : (s.adjustImportsForExternalLiteral elit.natAbs).exports = s.exports := rfl
  rw [Importer.importLiteral, ← hexports]
  revert hmem hlength h₁
  generalize s.adjustImportsForExternalLiteral elit.natAbs = s₁
  intro h₁ hmem hlength
  have hentry := List.getElem?_eq_getElem hlength
  have hpeek : s₁.peekImport elit.natAbs = s₁.imports[elit.natAbs] := by
    rw [peekImport, List.getD_eq_getElem _ _ hlength]
  simp only [hpeek, h₁.not_eliminated _ _ hentry, Bool.false_eq_true, if_false]
  cases himported : (s₁.imports[elit.natAbs]).imported with
  | true =>
      rw [if_pos (hmem.mpr (h₁.import_maps _ _ hentry himported))]
      rfl
  | false =>
      have hnot : ¬ (elit.natAbs : Int) ∈ s₁.exports := by
        intro hin
        obtain ⟨iidx, hmaps⟩ := hmem.mp hin
        rw [Option.some.inj (hentry.symm.trans hmaps.imports)] at himported
        cases himported
      rw [if_neg hnot]
      exact h₁.exports_adjust_exports elit.natAbs

/-- The loop imports the variables in their order when none of them is exported yet. -/
theorem Inv.importLoop_stacks (h : Inv s) {other n : Nat} (hpos : 1 ≤ other)
    (hle : other + n ≤ externalMaxVar)
    (hnew : ∀ eidx : Nat, other ≤ eidx → (eidx : Int) ∉ s.exports) :
  (s.importLoop other n).2.exports
      = s.exports ++ (List.range' other (n + 1)).map (fun eidx : Nat => (eidx : Int))
    ∧ (s.importLoop other n).2.imports.length = max s.imports.length (other + n + 1)
  := by
  have hexports := h.exports_importLiteral other
  rw [Int.natAbs_natCast, if_neg (hnew other (Nat.le_refl other))] at hexports
  have hlength := length_importLiteral s other
  rw [Int.natAbs_natCast] at hlength
  induction n generalizing s other with
  | zero => exact ⟨hexports, hlength⟩
  | succ n ih =>
      have h₁ := (h.importLiteral (show ((other : Nat) : Int) ≠ 0 by omega)
        (by rw [Int.natAbs_natCast]; omega)).1
      have hnew₁ : ∀ eidx : Nat, other + 1 ≤ eidx →
          (eidx : Int) ∉ (s.importLiteral other).2.exports := by
        intro eidx heidx hmem
        rw [hexports, List.mem_append, List.mem_singleton] at hmem
        obtain hmem | heq := hmem
        · exact hnew eidx (by omega) hmem
        · omega
      have hexports₁ := h₁.exports_importLiteral ((other + 1 : Nat) : Int)
      rw [Int.natAbs_natCast, if_neg (hnew₁ (other + 1) (Nat.le_refl _))] at hexports₁
      have hlength₁ := length_importLiteral (s.importLiteral other).2 ((other + 1 : Nat) : Int)
      rw [Int.natAbs_natCast] at hlength₁
      obtain ⟨hloop, hloopLength⟩ := ih h₁ (by omega) (by omega) hnew₁ hexports₁ hlength₁
      rw [Importer.importLoop, hloop, hloopLength, hexports, hlength, List.range'_succ,
        List.map_cons, List.append_assoc, List.singleton_append]
      exact ⟨rfl, by omega⟩

/-- Without `tumble` all variables up to a new one are exported, from the first one without an
entry on. -/
theorem Inv.import_up_to (h : Inv s) {elit : Int} (hvalid : ValidExternalLiteral elit)
    (hlarge : ¬ elit.natAbs < s.imports.length)
    (hnew : ∀ eidx : Nat, max 1 s.imports.length ≤ eidx → (eidx : Int) ∉ s.exports) :
  (s.kissatImportLiteral false elit).2.exports
      = s.exports ++ (List.range' (max 1 s.imports.length)
        (elit.natAbs + 1 - max 1 s.imports.length)).map (fun eidx : Nat => (eidx : Int))
    ∧ (s.kissatImportLiteral false elit).2.imports.length = elit.natAbs + 1
  := by
  obtain ⟨hne, -, hle⟩ := hvalid
  have hpos : 1 ≤ elit.natAbs := Int.natAbs_pos.mpr hne
  simp only [Importer.kissatImportLiteral, Bool.false_eq_true, if_false, if_neg hlarge]
  by_cases hzero : s.imports.length = 0
  · obtain ⟨h₁, -⟩ := h.adjust_imports s.imports.length
    have hlength : (s.adjustImportsForExternalLiteral s.imports.length).imports.length = 1 := by
      simp only [adjustImportsForExternalLiteral, List.length_append, List.length_replicate]
      omega
    obtain ⟨hexports, hloop⟩ := h₁.importLoop_stacks (n := elit.natAbs - (s.imports.length + 1))
      (show 1 ≤ s.imports.length + 1 by omega) (by omega) (fun eidx heidx => hnew eidx (by omega))
    simp only [if_pos hzero]
    refine ⟨?_, by omega⟩
    rw [hexports, show max 1 s.imports.length = s.imports.length + 1 by omega,
      show elit.natAbs - (s.imports.length + 1) + 1
        = elit.natAbs + 1 - (s.imports.length + 1) by omega]
    rfl
  · obtain ⟨hexports, hloop⟩ := h.importLoop_stacks (n := elit.natAbs - s.imports.length)
      (show 1 ≤ s.imports.length by omega) (by omega) (fun eidx heidx => hnew eidx (by omega))
    simp only [if_neg hzero]
    refine ⟨?_, by omega⟩
    rw [hexports, show max 1 s.imports.length = s.imports.length by omega,
      show elit.natAbs - s.imports.length + 1 = elit.natAbs + 1 - s.imports.length by omega]

/-! ### The list -/

/-- The list has the variables of the stack `export`; without `tumble` it has the variables of
the stack `import` in their order. -/
structure Follows (s : Importer) (tumble : Bool) (eidxs : List Nat) : Prop where
  inv : Inv s
  exports : s.exports = eidxs.map (fun eidx : Nat => (eidx : Int))
  ordered : tumble = false → eidxs = List.range' 1 (s.imports.length - 1)

variable {tumble : Bool} {eidxs : List Nat}

theorem follows_init (tumble : Bool) :
  init.Follows tumble []
  := ⟨init_inv, rfl, fun _ => rfl⟩

theorem Follows.mem_iff (h : s.Follows tumble eidxs) (eidx : Nat) :
  (eidx : Int) ∈ s.exports ↔ eidx ∈ eidxs
  := by
  rw [h.exports]
  simp

/-- The internal variable of an external one is its position in the list. -/
theorem Follows.idxOf_eq (h : s.Follows tumble eidxs) {eidx iidx : Nat}
    (hmaps : s.Maps eidx iidx) :
  eidxs.idxOf eidx = iidx
  := by
  have hmem : eidx ∈ eidxs := (h.mem_iff eidx).mp ((h.inv.mem_exports_iff eidx).mpr ⟨_, hmaps⟩)
  have hget : s.exports[eidxs.idxOf eidx]? = some (eidx : Int) := by
    rw [h.exports, List.getElem?_map, List.getElem?_idxOf hmem]
    rfl
  have hlt : eidxs.idxOf eidx < s.vars := by
    rw [← h.inv.vars]
    exact (List.getElem?_eq_some_iff.mp hget).1
  obtain ⟨e, -, -, he⟩ := h.inv.export_maps _ hlt
  have heq : e = eidx := Int.ofNat.inj (Option.some.inj (he.exports.symm.trans hget))
  subst heq
  exact he.iidx_eq hmaps

/-- The variables that are exported behind an import into the list. -/
theorem Follows.exports_internalLiteral {l : Loader} (h : s.Follows tumble l.exports)
    {elit : ExternalLit} (hvalid : ValidExternalLiteral elit.int) :
  (s.kissatImportLiteral tumble elit.int).2.exports
      = (l.internalLiteral tumble elit).2.exports.map (fun eidx : Nat => (eidx : Int))
    ∧ (tumble = false → (l.internalLiteral tumble elit).2.exports
      = List.range' 1 ((s.kissatImportLiteral tumble elit.int).2.imports.length - 1))
  := by
  have hpos : 1 ≤ elit.int.natAbs := Int.natAbs_pos.mpr hvalid.1
  have hidx : elit.vidx = elit.int.natAbs := rfl
  have hsingle := h.inv.exports_importLiteral elit.int
  simp only [h.mem_iff] at hsingle
  rw [Loader.internalLiteral]
  simp only [hidx]
  cases tumble with
  | true =>
      refine ⟨?_, fun hfalse => by cases hfalse⟩
      simp only [Importer.kissatImportLiteral, if_true, hsingle, h.exports]
      split
      · rfl
      · rw [List.map_append]
        rfl
  | false =>
      have hordered := h.ordered rfl
      have hin : elit.int.natAbs ∈ l.exports ↔ elit.int.natAbs < s.imports.length := by
        rw [hordered, List.mem_range'_1]
        omega
      by_cases hlt : elit.int.natAbs < s.imports.length
      · rw [if_pos (hin.mpr hlt)] at hsingle
        simp only [Importer.kissatImportLiteral, Bool.false_eq_true, if_false, if_pos hlt,
          if_pos (hin.mpr hlt), hsingle, h.exports, length_importLiteral, true_and, forall_const]
        rw [max_eq_left hlt]
        exact hordered
      · obtain ⟨hexports, hlength⟩ := h.inv.import_up_to hvalid hlt (by
          intro eidx heidx
          rw [h.mem_iff, hordered, List.mem_range'_1]
          omega)
        have hlist : l.exports.length = s.imports.length - 1 := by
          rw [hordered, List.length_range']
        rw [hexports, hlength, h.exports]
        simp only [Bool.false_eq_true, if_false, if_neg (fun hmem => hlt (hin.mp hmem)), hlist,
          List.map_append]
        constructor
        · congr 3 <;> omega
        · intro _
          rw [hordered, Nat.add_comm (_ - 1) 1, List.range'_append_1]
          congr 1
          omega

theorem literal_eq_ofVar (elit : Int) (iidx : Nat) :
  literal elit iidx = CnfTools.Lit.ofVar iidx (decide (elit < 0))
  := by
  apply CnfTools.Lit.ext_var_sign
  · rw [CnfTools.Lit.ofVar_var]
    exact IDX_literal elit iidx
  · have hsign : (⟨2 * iidx⟩ : Lit).sign = false := by
      simp [CnfTools.Lit.sign]
    rw [CnfTools.Lit.ofVar_sign, literal]
    split
    · next hneg => rw [NOT, CnfTools.Lit.sign_compl, hsign, decide_eq_true hneg, Bool.not_false]
    · next hneg => rw [hsign, decide_eq_false hneg]

/-- Importing a literal into the list and into the stacks gives the same internal literal. -/
theorem Follows.internalLiteral {l : Loader} (h : s.Follows tumble l.exports)
    {elit : ExternalLit} (hvalid : ValidExternalLiteral elit.int) :
  (s.kissatImportLiteral tumble elit.int).1 = (l.internalLiteral tumble elit).1
    ∧ (s.kissatImportLiteral tumble elit.int).2.Follows tumble
      (l.internalLiteral tumble elit).2.exports
  := by
  obtain ⟨hinv, -, iidx, hmaps, hlit⟩ := h.inv.kissatImportLiteral tumble hvalid
  obtain ⟨hexports, hordered⟩ := h.exports_internalLiteral hvalid
  have h' : (s.kissatImportLiteral tumble elit.int).2.Follows tumble
    (l.internalLiteral tumble elit).2.exports := ⟨hinv, hexports, hordered⟩
  refine ⟨?_, h'⟩
  rw [hlit, literal_eq_ofVar, ← h'.idxOf_eq hmaps]
  rfl

theorem Follows.getD_exports (h : s.Follows tumble eidxs) (iidx : Nat) :
  s.exports.getD iidx 0 = (eidxs.getD iidx 0 : Nat)
  := by
  rw [h.exports, List.getD_eq_getElem?_getD, List.getD_eq_getElem?_getD, List.getElem?_map]
  cases eidxs[iidx]? <;> rfl

/-- An internal literal stands for the same external one in the list and on the stack. -/
theorem Follows.externalLiteral {l : Loader} (h : s.Follows tumble l.exports) (lit : Lit) :
  s.kissatExportLiteral lit = l.externalLiteral lit
  := by
  simp only [Importer.kissatExportLiteral, Loader.externalLiteral, h.getD_exports]
  split
  · next hzero => simp only [hzero, neg_zero, ite_self]
  · rfl

end Importer

/-! ### Loading a formula -/

namespace Loader

variable {tumble : Bool} {s : Importer}

/-- The literals of a clause are imported one after the other. -/
theorem follows_addLiterals {elits : List ExternalLit} {l : Loader} {a : Adding}
    (h : s.Follows tumble l.exports)
    (hvalid : ∀ elit ∈ elits, ValidExternalLiteral elit.int) :
  (s.run tumble (elits.map Cadical.Lit.int)).Follows tumble
    (addLiterals tumble elits l a).1.exports
  := by
  induction elits generalizing l a s with
  | nil => exact h
  | cons elit elits ih =>
      obtain ⟨-, h₁⟩ := h.internalLiteral (hvalid elit List.mem_cons_self)
      exact ih h₁ (fun e he => hvalid e (List.mem_cons_of_mem elit he))

theorem exports_addClause (l : Loader) (propagate : Propagate) (a : Adding) :
  (l.addClause propagate a).exports = l.exports
  := by
  rw [addClause]
  split
  · rfl
  · split <;> rfl

/-- The literals of the formula are imported in their order; adding the clauses imports no other
ones. -/
theorem follows_load {propagate : Propagate} {F : List (List ExternalLit)} {l : Loader}
    (h : s.Follows tumble l.exports)
    (hvalid : ∀ elits ∈ F, ∀ elit ∈ elits, ValidExternalLiteral elit.int) :
  (s.run tumble (F.flatten.map Cadical.Lit.int)).Follows tumble
    (load tumble propagate F l).exports
  := by
  induction F generalizing l s with
  | nil => exact h
  | cons elits F ih =>
      have h₁ := follows_addLiterals (a := ⟨[], false, false⟩) h (hvalid elits List.mem_cons_self)
      rw [← exports_addClause _ propagate (addLiterals tumble elits l ⟨[], false, false⟩).2] at h₁
      rw [List.flatten_cons, List.map_append, Importer.run_append]
      exact ih h₁ (fun c hc => hvalid c (List.mem_cons_of_mem elits hc))

end Loader

/-- The solver behind the imports of the literals of a formula. -/
def Config.imported (cfg : Config) (F : List (List ExternalLit)) : Importer :=
  Importer.init.run cfg.tumble (F.flatten.map Cadical.Lit.int)

/-- A gate is printed in the external literals that the stacks have for its internal ones. -/
theorem printGate_imported (cfg : Config) {F : List (List ExternalLit)}
    (hvalid : ∀ elits ∈ F, ∀ elit ∈ elits, ValidExternalLiteral elit.int) (g : Report) :
  (((cfg.loaded F).printGate g).var : Int) = (cfg.imported F).exports.getD g.idx 0
    ∧ ((cfg.loaded F).printGate g).clauses
      = g.clauses.map (·.map (cfg.imported F).kissatExportLiteral)
  := by
  have h : (cfg.imported F).Follows cfg.tumble (cfg.loaded F).exports :=
    Loader.follows_load (Importer.follows_init cfg.tumble) hvalid
  constructor
  · exact (h.getD_exports g.idx).symm
  · rw [funext h.externalLiteral]
    rfl

end Kissat
