import IgnoreGates.Kissat.Gates

/-!
# Reporting the gates of all variables

Each variable is visited once.  Its satisfied and garbage clauses are dropped from the
watches of its two literals, and the gate clauses that are found for it are printed; nothing
is eliminated.  Hence all gates are gates of the clauses that were connected at the start.
Gates none of which mentions the variable of a later one determine their variables jointly.
-/

namespace Kissat

open Logic

/-- The printed clauses of a gate, behind the line with its variable and its type. -/
structure Report where
  idx : Nat
  clauses : List (List Lit)

/-- The state while the variables are visited: the solver, and what has been printed. -/
structure Run where
  solver : Solver
  reports : List Report

namespace Solver

variable (s : Solver) (K : Kitten)

/-- `UINT_MAX` -/
def uintMax : Nat :=
  2 ^ 32 - 1

/-- The loop of `occurrences_literal`: satisfied binary clauses and garbage clauses are
dropped; at a too long clause it stops. -/
def countOccurrences : List Watch → Nat → Nat × List Watch
  | [], res => (res, [])
  | .binary other :: ws, res =>
      if s.value other = some true then countOccurrences ws res
      else
        let (res, ws) := countOccurrences ws (res + 1)
        (res, .binary other :: ws)
  | .large ref :: ws, res =>
      if s.flags.garbage ref then countOccurrences ws res
      else if (s.arena ref).length > s.options.clslim then (uintMax, .large ref :: ws)
      else
        let (res, ws) := countOccurrences ws (res + 1)
        (res, .large ref :: ws)

/-- `occurrences_literal` -/
def occurrencesLiteral (lit : Lit) : Nat × Solver :=
  let (res, ws) := s.countOccurrences (s.watches lit) 0
  (res, { s with watches := Function.update s.watches lit ws })

/-- The printed clauses: in those of the second stack, `lit` is printed as its complement. -/
def printedClauses (lit : Lit) : List (List Lit) :=
  (s.gates false).map (s.watchToClause lit)
    ++ (s.gates true).map
      (fun w => (s.watchToClause lit w).map (fun l => if l = lit then NOT lit else l))

end Solver

namespace Run

variable (K : Kitten)

/-- `!pure && kissat_find_gates (solver, lit)` -/
def gatesUnlessPure (pureLiteral : Bool) (s : Solver) (lit : Lit) : Option (Bool × Solver) :=
  if pureLiteral then some (false, s) else s.kissatFindGates K lit

/-- `kissat_generate_resolvents`: the literal with fewer occurrences is taken, its gate is
looked for and printed, and the stacks of gate clauses are cleared. -/
def kissatGenerateResolvents (idx : Nat) (r : Run) : Option Run := do
  let lit := LIT idx
  let notLit := NOT lit
  let (posCount, s) := r.solver.occurrencesLiteral lit
  let (negCount, s) := s.occurrencesLiteral notLit
  let (lit, posCount) :=
    if posCount > negCount then (notLit, negCount) else (lit, posCount)
  let (gates, s) ← gatesUnlessPure K (posCount = 0) s lit
  let reports := if gates then r.reports ++ [⟨idx, s.printedClauses lit⟩] else r.reports
  some { solver := { s with gates := fun _ => [] }, reports := reports }

/-- The loop of `eliminate_variables` over the variables, which an asynchronous termination
may stop. -/
def eliminateVariables (stop : Nat → Bool) : List Nat → Run → Option Run
  | [], r => some r
  | idx :: idxs, r =>
      if stop idx then some r
      else do
        let r ← r.kissatGenerateResolvents K idx
        eliminateVariables stop idxs r

end Run

namespace Solver

variable {s : Solver} {K : Kitten}

theorem countOccurrences_subset {ws : List Watch} {res : Nat} :
  ∀ w ∈ (s.countOccurrences ws res).2, w ∈ ws
  := by
  induction ws generalizing res with
  | nil => intro w hw; cases hw
  | cons v ws ih =>
      intro w hw
      have hcons : ∀ n, w ∈ v :: (s.countOccurrences ws n).2 → w ∈ v :: ws := by
        intro n h
        obtain rfl | h := List.mem_cons.mp h
        · exact List.mem_cons_self
        · exact List.mem_cons_of_mem _ (ih w h)
      cases v with
      | binary other =>
          rw [countOccurrences] at hw
          split at hw
          · exact List.mem_cons_of_mem _ (ih w hw)
          · exact hcons _ hw
      | large ref =>
          rw [countOccurrences] at hw
          split at hw
          · exact List.mem_cons_of_mem _ (ih w hw)
          · split at hw
            · exact hw
            · exact hcons _ hw

/-- A solver with fewer watches. -/
structure Fewer (s t : Solver) : Prop where
  arena : t.arena = s.arena
  values : t.values = s.values
  marks : t.marks = s.marks
  gates : t.gates = s.gates
  printed : t.printed = s.printed
  watches : ∀ lit, ∀ w ∈ t.watches lit, w ∈ s.watches lit

theorem occurrencesLiteral_fewer (lit : Lit) :
  Fewer s (s.occurrencesLiteral lit).2
  := by
  refine ⟨rfl, rfl, rfl, rfl, rfl, ?_⟩
  intro l w hw
  simp only [occurrencesLiteral, Function.update_apply] at hw
  split at hw
  · next heq =>
      rw [heq]
      exact countOccurrences_subset w hw
  · exact hw

namespace Fewer

variable {t u : Solver}

theorem trans (h : Fewer s t) (h' : Fewer t u) :
  Fewer s u
  := by
  constructor
  · exact h'.arena.trans h.arena
  · exact h'.values.trans h.values
  · exact h'.marks.trans h.marks
  · exact h'.gates.trans h.gates
  · exact h'.printed.trans h.printed
  · exact fun lit w hw => h.watches lit w (h'.watches lit w hw)

theorem ready (h : Fewer s t) (hs : s.Ready) :
  t.Ready
  := by
  refine ⟨hs.connected.of_subset h.arena h.watches, ?_, ?_⟩
  · intro l
    rw [h.marks]
    exact hs.unmarked l
  · intro negative
    rw [h.gates]
    exact hs.no_gates negative

end Fewer

/-- The assignment satisfies the connected clauses and extends the root-level values. -/
structure Model (s : Solver) (σ : Assignment Nat) : Prop where
  clauses : ∀ lit, ∀ w ∈ s.watches lit, Clause.Sat σ (s.watchToClause lit w)
  extends_values : s.Extends σ

theorem Fewer.model {t : Solver} (h : Fewer s t) {σ : Assignment Nat} (hσ : s.Model σ) :
  t.Model σ
  := by
  constructor
  · intro lit w hw
    rw [watchToClause_congr h.arena]
    exact hσ.clauses lit w (h.watches lit w hw)
  · intro idx b hb
    rw [h.values] at hb
    exact hσ.extends_values idx b hb

/-- A unit that is learned holds in every model. -/
theorem Outcome.model {lit : Lit} {r : Bool × Solver} (h : Outcome s lit r)
    {σ : Assignment Nat} (hσ : s.Model σ) :
  r.2.Model σ
  := by
  constructor
  · intro l w hw
    rw [h.watches] at hw
    rw [watchToClause_congr h.arena]
    exact hσ.clauses l w hw
  · intro idx b hb
    obtain hv | ⟨n, hunit, hv⟩ := h.values
    · rw [hv] at hb
      exact hσ.extends_values idx b hb
    · rw [hv, kissatLearnedUnit] at hb
      dsimp only at hb
      rw [Function.update_apply] at hb
      split at hb
      · next heq =>
          have hval := hunit σ (hσ.clauses _)
          change (σ (IDX (side lit n)) ^^ (side lit n).sign) = true at hval
          rw [heq]
          rw [Option.some.injEq] at hb
          rw [← hb]
          cases hsign : (side lit n).sign <;> simp_all
      · exact hσ.extends_values idx b hb

/-- The printed clauses are the gate clauses. -/
theorem printedClauses_eq {t : Solver} (hs : s.Connected) {lit : Lit}
    (harena : t.arena = s.arena) (hmem : ∀ w ∈ t.gates true, w ∈ s.watches (NOT lit)) :
  {c | c ∈ t.printedClauses lit} = t.gateClauses lit
  := by
  have hneg : ∀ w ∈ t.gates true,
      (t.watchToClause lit w).map (fun l => if l = lit then NOT lit else l)
        = t.watchToClause (NOT lit) w := by
    intro w hw
    have hwatch := hmem w hw
    cases w with
    | binary other =>
        have hne : other ≠ lit := by
          rintro rfl
          exact hs.not_taut _ _ hwatch other (by simp [Solver.watchToClause])
            (by simp [Solver.watchToClause])
        simp [Solver.watchToClause, hne]
    | large ref =>
        have hnot : lit ∉ s.arena ref := by
          have h := hs.not_taut _ _ hwatch (NOT lit) (hs.mem _ _ hwatch)
          rwa [NOT_NOT] at h
        change (t.arena ref).map _ = t.arena ref
        rw [harena]
        have hid : ∀ l ∈ s.arena ref, (if l = lit then NOT lit else l) = id l := by
          intro l hl
          rw [if_neg]
          · rfl
          · rintro rfl
            exact hnot hl
        rw [List.map_congr_left hid, List.map_id]
  ext c
  simp only [printedClauses, List.mem_append, List.mem_map, Set.mem_ofPred_eq, gateClauses]
  constructor
  · rintro (⟨w, hw, rfl⟩ | ⟨w, hw, rfl⟩)
    · exact ⟨false, w, hw, rfl⟩
    · exact ⟨true, w, hw, hneg w hw⟩
  · rintro ⟨negative, w, hw, rfl⟩
    cases negative with
    | false => exact Or.inl ⟨w, hw, rfl⟩
    | true => exact Or.inr ⟨w, hw, hneg w hw⟩

end Solver

/-- Two assignments agree on the reported variable once they agree on the other variables of
its clauses. -/
def Report.Determined (g : Report) (σ τ : Assignment Nat) : Prop :=
  (∀ c ∈ g.clauses, ∀ idx, Clause.Mentions c idx → idx ≠ g.idx → σ idx = τ idx) →
    σ g.idx = τ g.idx

namespace Solver

variable {s t : Solver} {K : Kitten} {clauses : K.State → Set (Nat × List Lit)}

/-- The clauses of a gate that is found determine its variable in any two models. -/
theorem determined_of_found (hK : K.Sound clauses) (hs : s.Ready) {lit : Lit}
    (h : s.kissatFindGates K lit = some (true, t)) {σ τ : Assignment Nat} (hσ : s.Model σ)
    (hτ : s.Model τ) :
  Report.Determined ⟨IDX lit, t.printedClauses lit⟩ σ τ
  := by
  intro hagree
  by_contra hne
  dsimp only at hagree hne
  have hr := find_gates_outcome hK hs h
  have hlit : s.value lit = none := by
    rw [value_eq_none_iff]
    cases hvalue : s.values (IDX lit) with
    | none => rfl
    | some b =>
        exact absurd ((hσ.extends_values _ b hvalue).trans (hτ.extends_values _ b hvalue).symm) hne
  have hfound := hr.found rfl hlit
  have hprinted := printedClauses_eq hs.connected hr.arena (fun w hw => hfound.mem true w hw)
  have hmodels : ∀ ρ : Assignment Nat, s.Model ρ → Models ρ (t.gateClauses lit) := by
    rintro ρ hρ c ⟨negative, w, hw, rfl⟩
    rw [watchToClause_congr hr.arena]
    exact hρ.clauses _ w (hfound.mem negative w hw)
  -- the first model with the value of the second one at the variable
  apply find_gates_sound hK hs h
  refine ⟨σ, Function.update σ (IDX lit) (τ (IDX lit)), hσ.extends_values, ?_, ?_, ?_,
    hmodels σ hσ, ?_⟩
  · intro idx b hb
    rw [Function.update_apply]
    split
    · next heq =>
        rw [← heq]
        exact hτ.extends_values idx b hb
    · exact hσ.extends_values idx b hb
  · rw [Function.update_self]
    exact hne
  · intro idx hidx
    rw [Function.update_of_ne hidx]
  · apply (Models.congr _).mpr (hmodels τ hτ)
    intro c hc idx hidx
    rw [Function.update_apply]
    split
    · next heq => rw [heq]
    · next hidx' =>
        rw [← hprinted] at hc
        exact hagree c hc idx hidx hidx'

end Solver

namespace Run

variable {K : Kitten} {clauses : K.State → Set (Nat × List Lit)}

/-- The invariant of the run for a set of models of the clauses at its start. -/
structure Inv (M : Set (Assignment Nat)) (r : Run) : Prop where
  ready : r.solver.Ready
  models : ∀ σ ∈ M, r.solver.Model σ
  determined : ∀ g ∈ r.reports, ∀ σ ∈ M, ∀ τ ∈ M, g.Determined σ τ
  printed : r.reports.map Report.idx = r.solver.printed.map Prod.fst

/-- Clearing the stacks of gate clauses makes the solver ready for the next variable. -/
theorem ready_of_outcome {s : Solver} {lit : Lit} {r : Bool × Solver} (hs : s.Ready)
    (hr : s.Outcome lit r) :
  ({ r.2 with gates := fun _ => [] } : Solver).Ready
  := by
  refine ⟨hs.connected.of_subset hr.arena ?_, hr.unmarked, fun _ => rfl⟩
  intro l w hw
  rw [← hr.watches]
  exact hw

@[simp]
theorem IDX_LIT (idx : Nat) :
  IDX (LIT idx) = idx
  := CnfTools.Lit.ofVar_var idx false

/-- Visiting a variable keeps the invariant: what is found for it is determined in the models,
and a unit that is learned holds in them. -/
theorem Inv.step (hK : K.Sound clauses) {M : Set (Assignment Nat)} {r r' : Run}
    (hr : r.Inv M) {idx : Nat} (h : r.kissatGenerateResolvents K idx = some r') :
  r'.Inv M
  := by
  rw [kissatGenerateResolvents] at h
  dsimp only at h
  have hfewer := (Solver.occurrencesLiteral_fewer (s := r.solver) (LIT idx)).trans
    (Solver.occurrencesLiteral_fewer (NOT (LIT idx)))
  generalize (r.solver.occurrencesLiteral (LIT idx)).1 = posCount at h
  generalize (r.solver.occurrencesLiteral (LIT idx)).2.occurrencesLiteral (NOT (LIT idx)) = p
    at h hfewer
  obtain ⟨negCount, s⟩ := p
  dsimp only at h hfewer
  have hs := hfewer.ready hr.ready
  have hmodels : ∀ σ ∈ M, s.Model σ := fun σ hσ => hfewer.model (hr.models σ hσ)
  have hidx : IDX (if posCount > negCount then (NOT (LIT idx), negCount)
      else (LIT idx, posCount)).1 = idx := by
    split <;> simp
  generalize (if posCount > negCount then (NOT (LIT idx), negCount)
      else (LIT idx, posCount)) = p at h hidx
  obtain ⟨lit, count⟩ := p
  dsimp only at h hidx
  obtain ⟨⟨gates, t⟩, hgates, h⟩ := Option.bind_eq_some_iff.mp h
  -- a pure literal is not looked at
  have houtcome : s.Outcome lit (gates, t) := by
    rw [gatesUnlessPure] at hgates
    split at hgates
    · cases hgates
      apply Solver.Unchanged.outcome_false
      exact ⟨Solver.Same.refl s, rfl, rfl, hs.unmarked⟩
    · exact Solver.find_gates_outcome hK hs hgates
  cases h
  constructor
  · exact ready_of_outcome hs houtcome
  · intro σ hσ
    have h := houtcome.model (hmodels σ hσ)
    exact ⟨h.clauses, h.extends_values⟩
  · intro g hg σ hσ τ hτ
    dsimp only at hg
    split at hg
    · next hfound =>
        obtain hg | hg := List.mem_append.mp hg
        · exact hr.determined g hg σ hσ τ hτ
        · rw [List.mem_singleton.mp hg, ← hidx]
          rw [gatesUnlessPure] at hgates
          split at hgates
          · cases hgates
            cases hfound
          · rw [hfound] at hgates
            exact Solver.determined_of_found hK hs hgates (hmodels σ hσ) (hmodels τ hτ)
    · exact hr.determined g hg σ hσ τ hτ
  · dsimp only
    cases gates with
    | false =>
        rw [(houtcome.failed rfl).2.2, hfewer.printed]
        exact hr.printed
    | true =>
        obtain ⟨type, htype⟩ := houtcome.printed rfl
        rw [htype, hfewer.printed, if_pos rfl, List.map_append, List.map_append, hr.printed, hidx]
        rfl

/-- The invariant holds when the variables have been visited. -/
theorem Inv.run (hK : K.Sound clauses) {M : Set (Assignment Nat)} {stop : Nat → Bool}
    {idxs : List Nat} {r r' : Run} (hr : r.Inv M)
    (h : eliminateVariables K stop idxs r = some r') :
  r'.Inv M
  := by
  induction idxs generalizing r with
  | nil =>
      cases h
      exact hr
  | cons idx idxs ih =>
      rw [eliminateVariables] at h
      split at h
      · cases h
        exact hr
      · obtain ⟨r₁, hstep, h⟩ := Option.bind_eq_some_iff.mp h
        exact ih (hr.step hK hstep) h

/-- Only visited variables are reported. -/
theorem reports_visited {stop : Nat → Bool} {idxs : List Nat} {r r' : Run}
    (h : eliminateVariables K stop idxs r = some r') :
  ∀ g ∈ r'.reports, g ∈ r.reports ∨ g.idx ∈ idxs
  := by
  induction idxs generalizing r with
  | nil =>
      cases h
      exact fun g hg => Or.inl hg
  | cons idx idxs ih =>
      rw [eliminateVariables] at h
      split at h
      · cases h
        exact fun g hg => Or.inl hg
      · obtain ⟨r₁, hstep, h⟩ := Option.bind_eq_some_iff.mp h
        intro g hg
        obtain hg | hg := ih h g hg
        · rw [kissatGenerateResolvents] at hstep
          obtain ⟨⟨gates, t⟩, -, hstep⟩ := Option.bind_eq_some_iff.mp hstep
          cases hstep
          dsimp only at hg
          split at hg
          · obtain hg | hg := List.mem_append.mp hg
            · exact Or.inl hg
            · rw [List.mem_singleton.mp hg]
              exact Or.inr List.mem_cons_self
          · exact Or.inl hg
        · exact Or.inr (List.mem_cons_of_mem _ hg)

end Run

end Kissat
