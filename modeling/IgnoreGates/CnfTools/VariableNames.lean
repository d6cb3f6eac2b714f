import IgnoreGates.CnfTools.Members

/-!
# Gapless names of variables

`normalizeVariableNames` gives the variables new names in the order of their first
occurrence while it rewrites the clauses.  The name zero stands for a variable without a
name, and the counter of names starts at zero as well: the first variable that occurs is
given the name that says it has none.  The rewritten formula is the image of the formula
under a renaming onto `1, …, nVars` exactly when no clause contains a literal.
-/

namespace CnfTools

namespace Members

/-! ### The loops of `normalizeVariableNames` -/

/-- The member of `name` for the variable of `lit` and the counter `max`, after the test for
a missing name. -/
def assignName (name : List Nat) (max : Nat) (lit : Lit) : List Nat × Nat :=
  if name.getD lit.var 0 = 0 then (name.set lit.var max, max + 1) else (name, max)

/-- The inner loop of `normalizeVariableNames`: the rewritten clause, the names and the
counter. -/
def renameClause (name : List Nat) (max : Nat) : Cl → Cl × List Nat × Nat
  | [] => ([], name, max)
  | lit :: clause =>
      let named := assignName name max lit
      let rest := renameClause named.1 named.2 clause
      (Lit.ofVar (named.1.getD lit.var 0) lit.sign :: rest.1, rest.2)

/-- The outer loop of `normalizeVariableNames`. -/
def renameFormula (name : List Nat) (max : Nat) : List Cl → List Cl × List Nat × Nat
  | [] => ([], name, max)
  | clause :: formula =>
      let renamed := renameClause name max clause
      let rest := renameFormula renamed.2.1 renamed.2.2 formula
      (renamed.1 :: rest.1, rest.2)

/-- `normalizeVariableNames`. -/
def normalizeVariableNames (F : Members) : Members :=
  let renamed := renameFormula (List.replicate (F.nVars + 1) 0) 0 F.formula
  { formula := renamed.1
    nVars := renamed.2.2 }

/-! ### Renamings -/

/-- The variable has a literal in a clause. -/
def Occurs (F : Members) (v : Nat) : Prop :=
  ∃ c ∈ F.formula, Logic.Clause.Mentions c v

/-- The clauses of the formula. -/
def clauses (F : Members) : Set (Logic.Clause Lit) :=
  {c | c ∈ F.formula}

/-- `f` maps the variables of `F` one to one onto `1, …, G.nVars`, and the literals of `G` are
the images of the literals of `F` at their positions. -/
structure RenamedBy (f : Nat → Nat) (F G : Members) : Prop where
  inj : ∀ v w, F.Occurs v → F.Occurs w → f v = f w → v = w
  onto : ∀ n, (∃ v, F.Occurs v ∧ f v = n) ↔ 1 ≤ n ∧ n ≤ G.nVars
  image : G.formula = F.formula.map (·.map (fun l => Lit.ofVar (f l.var) l.sign))

/-- The first literal of a formula is given the name zero. -/
theorem renameFormula_first {name : List Nat} (hname : ∀ v, name.getD v 0 = 0)
    {formula : List Cl} {l : Lit} {ls : List Lit} (h : formula.flatten = l :: ls) :
  ∃ k ks, (renameFormula name 0 formula).1.flatten = k :: ks ∧ k.var = 0
  := by
  induction formula with
  | nil => cases h
  | cons clause formula ih =>
      cases clause with
      | nil =>
          obtain ⟨k, ks, hks, hk⟩ := ih h
          exact ⟨k, ks, hks, hk⟩
      | cons lit clause =>
          refine ⟨_, _, rfl, ?_⟩
          rw [Lit.ofVar_var, assignName, if_pos (hname _)]
          by_cases hlt : lit.var < name.length
          · simp [List.getD_eq_getElem?_getD, hlt]
          · simp [List.getD_eq_getElem?_getD, hlt]

/-- A formula whose clauses are empty is left as it is, and no name is given. -/
theorem renameFormula_of_empty {name : List Nat} {formula : List Cl} (h : ∀ c ∈ formula, c = []) :
  renameFormula name 0 formula = (formula, name, 0)
  := by
  induction formula with
  | nil => rfl
  | cons clause formula ih =>
      obtain rfl := h clause List.mem_cons_self
      rw [renameFormula, renameClause, ih (fun c hc => h c (List.mem_cons_of_mem _ hc))]

/-- A literal under a renaming has the value of its image. -/
theorem value_image (τ : Logic.Assignment Nat) (f : Nat → Nat) (l : Lit) :
  τ.value (Lit.ofVar (f l.var) l.sign) = Logic.Assignment.value (fun v => τ (f v)) l
  := by
  show (τ (Lit.ofVar (f l.var) l.sign).var ^^ (Lit.ofVar (f l.var) l.sign).sign)
    = (τ (f l.var) ^^ l.sign)
  rw [Lit.ofVar_var, Lit.ofVar_sign]

/-- A renaming keeps satisfiability. -/
theorem RenamedBy.satisfiable_iff {f : Nat → Nat} {F G : Members} (h : RenamedBy f F G) :
  Logic.Satisfiable G.clauses ↔ Logic.Satisfiable F.clauses
  := by
  constructor
  · rintro ⟨τ, hτ⟩
    refine ⟨fun v => τ (f v), ?_⟩
    intro c hc
    have hd : c.map (fun l => Lit.ofVar (f l.var) l.sign) ∈ G.formula := by
      rw [h.image]
      apply List.mem_map_of_mem hc
    obtain ⟨k, hk, hval⟩ := hτ _ hd
    obtain ⟨l, hl, rfl⟩ := List.mem_map.mp hk
    refine ⟨l, hl, ?_⟩
    rw [← hval, value_image]
  · classical
    rintro ⟨σ, hσ⟩
    refine ⟨fun n => if hn : ∃ v, F.Occurs v ∧ f v = n then σ hn.choose else false, ?_⟩
    intro d hd
    obtain ⟨c, hc, rfl⟩ : ∃ c ∈ F.formula, c.map (fun l => Lit.ofVar (f l.var) l.sign) = d := by
      rw [← List.mem_map, ← h.image]
      exact hd
    obtain ⟨l, hl, hval⟩ := hσ c hc
    refine ⟨_, List.mem_map_of_mem hl, ?_⟩
    have hoccurs : F.Occurs l.var := ⟨c, hc, Logic.Clause.mentions_of_mem hl⟩
    have hn : ∃ v, F.Occurs v ∧ f v = f l.var := ⟨l.var, hoccurs, rfl⟩
    have hchoose := h.inj _ _ hn.choose_spec.1 hoccurs hn.choose_spec.2
    rw [value_image, ← hval]
    apply Logic.Assignment.value_congr
    simp only [dif_pos hn, hchoose, Lit.literal_var]

/-- The names that `normalizeVariableNames` starts with. -/
theorem name_replicate (n v : Nat) :
  (List.replicate n 0).getD v 0 = 0
  := by
  rw [List.getD_eq_getElem?_getD, List.getElem?_replicate]
  split <;> rfl

/-- A formula whose clauses are empty is renamed by any map. -/
theorem renamedBy_of_empty {F : Members} (hempty : ∀ c ∈ F.formula, c = []) :
  RenamedBy id F F.normalizeVariableNames
  := by
  have hnone : ∀ v, ¬ F.Occurs v := by
    rintro v ⟨c, hc, l, hl, -⟩
    rw [hempty c hc] at hl
    cases hl
  have hsame : F.normalizeVariableNames = ⟨F.formula, 0⟩ := by
    rw [normalizeVariableNames, renameFormula_of_empty hempty]
  rw [hsame]
  constructor
  · intro v w hv
    exact absurd hv (hnone v)
  · intro n
    constructor
    · rintro ⟨v, hv, -⟩
      exact absurd hv (hnone v)
    · rintro ⟨hpos, hle⟩
      exact absurd (hpos.trans hle) (Nat.not_succ_le_zero 0)
  · apply (List.map_id F.formula).symm.trans
    apply List.map_congr_left
    intro c hc
    rw [hempty c hc]
    rfl

/-- `normalizeVariableNames` renames the variables one to one onto `1, …, nVars`, and keeps
satisfiability, exactly when no clause contains a literal. -/
theorem normalizeVariableNames_renames_iff (F : Members) :
  ((∃ f, RenamedBy f F F.normalizeVariableNames)
      ∧ (Logic.Satisfiable F.normalizeVariableNames.clauses ↔ Logic.Satisfiable F.clauses))
    ↔ ∀ c ∈ F.formula, c = []
  := by
  constructor
  · rintro ⟨⟨f, hf⟩, -⟩
    by_contra hne
    obtain ⟨l, ls, hflat⟩ : ∃ l ls, F.formula.flatten = l :: ls := by
      apply List.exists_cons_of_ne_nil
      simpa [List.flatten_eq_nil_iff] using hne
    obtain ⟨k, ks, hks, hk⟩ := renameFormula_first (name_replicate (F.nVars + 1)) hflat
    have himage := congrArg List.flatten hf.image
    rw [← List.map_flatten, hflat, List.map_cons] at himage
    have hhead := (List.cons.inj (hks.symm.trans himage)).1
    have hoccurs : F.Occurs l.var := by
      obtain ⟨c, hc, hl⟩ := List.mem_flatten.mp (hflat ▸ List.mem_cons_self : l ∈ _)
      exact ⟨c, hc, Logic.Clause.mentions_of_mem hl⟩
    have hpos := ((hf.onto (f l.var)).mp ⟨l.var, hoccurs, rfl⟩).1
    rw [hhead, Lit.ofVar_var] at hk
    omega
  · intro hempty
    have hrenamed := renamedBy_of_empty hempty
    exact ⟨⟨id, hrenamed⟩, hrenamed.satisfiable_iff⟩

/-- The formula with the clauses `1` and `-1`: its two literals are given different names, and
what was unsatisfiable becomes satisfiable. -/
theorem normalizeVariableNames_not_renaming :
  ¬ ((∃ f, RenamedBy f (CNFFormula.readDimacs [[1], [-1]]).members
        (CNFFormula.readDimacs [[1], [-1]]).members.normalizeVariableNames)
      ∧ (Logic.Satisfiable
          (CNFFormula.readDimacs [[1], [-1]]).members.normalizeVariableNames.clauses
        ↔ Logic.Satisfiable (CNFFormula.readDimacs [[1], [-1]]).members.clauses))
  := by
  have hread : (CNFFormula.readDimacs [[1], [-1]]).members
      = ⟨[[Lit.ofVar 1 false], [Lit.ofVar 1 true]], 1⟩ := rfl
  have hnew : (CNFFormula.readDimacs [[1], [-1]]).members.normalizeVariableNames
      = ⟨[[Lit.ofVar 0 false], [Lit.ofVar 1 true]], 2⟩ := rfl
  rintro ⟨-, hsat⟩
  rw [hnew, hread] at hsat
  obtain ⟨σ, hσ⟩ := hsat.mp ⟨fun v => v == 0, by
    intro c hc
    obtain rfl | hc := List.mem_cons.mp hc
    · exact ⟨_, List.mem_cons_self, rfl⟩
    · rw [List.mem_singleton.mp hc]
      exact ⟨_, List.mem_cons_self, rfl⟩⟩
  obtain ⟨k, hk, hpos⟩ := hσ _ List.mem_cons_self
  obtain ⟨l, hl, hneg⟩ := hσ _ (List.mem_cons_of_mem _ List.mem_cons_self)
  rw [List.mem_singleton.mp hk] at hpos
  rw [List.mem_singleton.mp hl] at hneg
  have hpos' : (σ 1 ^^ false) = true := hpos
  have hneg' : (σ 1 ^^ true) = true := hneg
  cases hσ1 : σ 1 <;> simp [hσ1] at hpos' hneg'

end Members

end CnfTools
