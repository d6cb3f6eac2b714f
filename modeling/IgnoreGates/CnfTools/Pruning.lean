import IgnoreGates.CnfTools.GateStructure

/-!
# Dropping backward definitions

The flag `notMono` of a gate is computed from the marks when the gate is added.  Where the
marks are complete, that is, where the complement of the output of a gate taken to be
monotonically nested does not occur in the clauses kept so far, the backward clauses of such
gates can be dropped: the formula keeps its satisfiability.
-/

namespace CnfTools

open Logic

namespace GateFormula

/-- The clauses of a gate that are kept. -/
def keptClauses (g : Gate) : For :=
  g.fwd ++ if g.hasNonMonotonicParent then g.bwd else []

/-- The roots, the remainder, and the clauses of the gates without the backward clauses of
monotonically nested ones. -/
def pruned (F : CNFFormula) (gf : GateFormula) : For :=
  gf.roots ++ gf.remainder ++ (gf.recorded F).flatMap keptClauses

/-- No root and no clause kept for a gate contains the literal `l`. -/
def Unused (F : CNFFormula) (gf : GateFormula) (l : Lit) : Prop :=
  (∀ p ∈ gf.roots, l ∉ F.deref p) ∧ ∀ g ∈ gf.recorded F, ∀ p ∈ keptClauses g, l ∉ F.deref p

instance (F : CNFFormula) (gf : GateFormula) (l : Lit) : Decidable (gf.Unused F l) :=
  inferInstanceAs (Decidable (_ ∧ _))

end GateFormula

/-- The marks were complete when the gate was added: if they made the gate monotonically
nested, the complement of its output was not used. -/
def Addition.MarksComplete (F : CNFFormula) (e : Addition) : Prop :=
  e.before.isNestedMonotonic e.gate.out = true → e.before.Unused F (~~~e.gate.out)

instance (F : CNFFormula) (e : Addition) : Decidable (e.MarksComplete F) :=
  inferInstanceAs (Decidable (_ → _))

namespace Analyzer

variable {env : Env} {F : CNFFormula}

/-! ### The gate formula at the time of an addition -/

/-- What the gate formula at the time of an addition has in common with the present one:
roots added since do not mention the output, and the gates added before are there. -/
structure History (F : CNFFormula) (a : Analyzer) : Prop where
  roots : ∀ e ∈ a.log, ∀ p ∈ a.gateFormula.roots,
    p ∈ e.before.roots ∨ ¬ Clause.Mentions (F.deref p) e.gate.out.var
  gates : a.log.Pairwise (fun e e' => e'.before.gates e.gate.out.var = e.gate)

theorem Reachable.history {pending : For} {a : Analyzer} (h : Reachable env F pending a) :
  History F a
  := by
  have hsame : ∀ {a a' : Analyzer}, History F a → a'.log = a.log →
      a'.gateFormula.roots = a.gateFormula.roots → History F a' := by
    intro a a' ha hlog hroots
    constructor
    · rw [hlog, hroots]
      exact ha.roots
    · rw [hlog]
      exact ha.gates
  induction h with
  | @init a roots heq =>
      obtain ⟨roots', index, heq', -⟩ := (Inv.init env F).estimateRoots
      rw [heq] at heq'
      cases heq'
      constructor
      · exact fun e he => absurd he List.not_mem_nil
      · exact List.Pairwise.nil
  | estimateRoots hreach heq ih =>
      obtain ⟨roots', index, heq', -⟩ := hreach.inv.1.estimateRoots
      rw [heq] at heq'
      cases heq'
      exact hsame ih rfl rfl
  | @addRoots a pending hreach ih =>
      constructor
      · intro e he p hp
        rw [addRoots_roots] at hp
        obtain hp | hp := List.mem_append.mp hp
        · exact ih.roots e he p hp
        · right
          exact hreach.inv.1.fresh e he p (Or.inl hp)
      · exact ih.gates
  | @visit a a' out frontier frontier' hreach heq ih =>
      obtain ⟨S, hvisit⟩ | ⟨type, S, index, hvisit, -, -⟩ :=
        visit_cases env hreach.inv.1.holds frontier out
      · rw [heq] at hvisit
        cases hvisit
        exact hsame ih rfl rfl
      · rw [heq] at hvisit
        cases hvisit
        constructor
        · intro e he p hp
          obtain he | he := List.mem_append.mp he
          · exact ih.roots e he p hp
          · left
            obtain rfl := List.mem_singleton.mp he
            exact hp
        · apply List.pairwise_append.mpr
          refine ⟨ih.gates, List.pairwise_singleton _ _, ?_⟩
          intro e he e' he'
          obtain rfl := List.mem_singleton.mp he'
          exact hreach.inv.1.gates e he

/-! ### Gates as definitions with two sides -/

/-- The sides of a gate. -/
def sides (F : CNFFormula) (g : Gate) : Sides Lit where
  out := g.out
  fwd := F.clausesAt g.fwd
  bwd := F.clausesAt g.bwd
  both := g.notMono = true

theorem mem_kept_iff {g : Gate} {c : Cl} :
  c ∈ (sides F g).kept ↔ c ∈ F.clausesAt (GateFormula.keptClauses g)
  := by
  simp only [Sides.kept, sides, CNFFormula.clausesAt, GateFormula.keptClauses,
    Gate.hasNonMonotonicParent, Set.mem_ofPred_eq, List.mem_append]
  by_cases hg : g.notMono = true
  · simp [hg, or_and_right, exists_or]
  · simp [hg]

theorem sides_wf {e : Addition} (h : e.Wf env F) :
  (sides F e.gate).Wf
  := by
  constructor
  · rintro d ⟨p, hp, rfl⟩
    exact h.fwd_mem p hp
  · rintro c ⟨p, hp, rfl⟩
    exact h.bwd_mem p hp
  · rintro c ⟨p, hp, rfl⟩ d ⟨q, hq, rfl⟩
    exact h.blocked p hp q hq

/-- Where all marks were complete, the gates in the order of the log are droppable. -/
theorem droppable_log {a : Analyzer} {pending : For} (h : Reachable env F pending a)
    (hmarks : ∀ e ∈ a.log, e.MarksComplete F) {rest : For}
    (hrest : ∀ p ∈ rest, p ∈ a.live F pending) :
  Droppable (F.clausesAt (a.gateFormula.roots ++ rest)) (a.gatesAdded.map (sides F))
  := by
  have hinv := h.inv.1
  have hhist := h.history
  have hunused : ∀ e ∈ a.log, ¬ (sides F e.gate).both → e.before.Unused F (~~~e.gate.out) := by
    intro e he hboth
    apply hmarks e he
    have hflag := (hinv.wf e he).notMono
    simp only [sides, Bool.not_eq_true] at hboth
    rw [hboth] at hflag
    simpa using hflag.symm
  have hfresh : ∀ {e : Addition} {p : Ptr}, ¬ Clause.Mentions (F.deref p) e.gate.out.var →
      ~~~e.gate.out ∉ F.deref p := by
    intro e p hnot hmem
    exact hnot ⟨_, hmem, Lit.var_compl _⟩
  apply droppable_of_pairwise
  · intro s hs hboth c hc
    obtain ⟨g, hg, rfl⟩ := List.mem_map.mp hs
    obtain ⟨e, he, rfl⟩ := List.mem_map.mp hg
    obtain ⟨p, hp, rfl⟩ := hc
    obtain hp | hp := List.mem_append.mp hp
    · obtain hp | hp := hhist.roots e he p hp
      · exact (hunused e he hboth).1 p hp
      · exact hfresh hp
    · exact hfresh (hinv.fresh e he p (Or.inr (Or.inr (hrest p hp))))
  · rw [gatesAdded, List.map_map, List.pairwise_map]
    apply (hinv.order.and hhist.gates).imp_of_mem
    rintro e e' he he' ⟨horder, hgates⟩
    constructor
    · rintro c (⟨p, hp, rfl⟩ | ⟨p, hp, rfl⟩)
      · exact horder p (List.mem_append_left _ hp)
      · exact horder p (List.mem_append_right _ hp)
    · intro hboth c hc
      obtain ⟨p, hp, rfl⟩ := mem_kept_iff.mp hc
      apply (hunused e' he' hboth).2 e.gate _ p hp
      apply List.mem_filter.mpr
      refine ⟨?_, decide_eq_true (hinv.wf e he).type_ne⟩
      apply List.mem_map.mpr
      refine ⟨e.gate.out.var, List.mem_range.mpr ?_, hgates⟩
      have := hinv.out_var_le he
      rw [GateFormula.size]
      omega

/-! ### Satisfiability of the pruned formula -/

/-- In a completed run without timeout on a formula without the empty clause, in which the
marks are complete whenever a gate is added, the pruned formula is satisfiable if and only if
the formula is. -/
theorem pruned_satisfiable_iff {r : Analyzer} (h : analyze env F = .ok r)
    (htimeout : ∀ b, RoundEnd env F b → env.timeout b = false) (hempty : [] ∉ F.formula)
    (hmarks : ∀ e ∈ r.log, e.MarksComplete F) :
  Satisfiable (F.clausesAt (r.gateFormula.pruned F)) ↔ Satisfiable F.clauses
  := by
  obtain ⟨pending, a, rfl, hreach, hended, -⟩ := of_analyze h
  have hinv := hreach.inv.1
  have hperm := hinv.recorded_perm
  obtain rfl : pending = [] := by
    obtain hnil | ⟨b, hb, htrue, -⟩ := hended
    · exact hnil
    · rw [htimeout b hb] at htrue
      cases htrue
  have hdist := (hinv.distributed hreach.inv.2).2
  have hrem : ∀ p ∈ (addRemainder env F a).gateFormula.remainder, p ∈ a.live F [] := by
    intro p hp
    rw [← mem_left hinv]
    simpa only [addRemainder, hinv.remainder, List.nil_append, env.mem_remainderOrder] using hp
  constructor
  · rintro ⟨σ, hσ⟩
    have hR : Models σ (F.clausesAt (a.gateFormula.roots
        ++ (addRemainder env F a).gateFormula.remainder)) := by
      rintro c ⟨p, hp, rfl⟩
      exact hσ _ ⟨p, List.mem_append_left _ hp, rfl⟩
    have hkept : ∀ s ∈ a.gatesAdded.map (sides F), Models σ s.kept := by
      intro s hs c hc
      obtain ⟨g, hg, rfl⟩ := List.mem_map.mp hs
      obtain ⟨p, hp, rfl⟩ := mem_kept_iff.mp hc
      apply hσ
      refine ⟨p, List.mem_append_right _ ?_, rfl⟩
      exact List.mem_flatMap.mpr ⟨g, hperm.mem_iff.mpr hg, hp⟩
    have hwf : ∀ s ∈ a.gatesAdded.map (sides F), s.Wf := by
      intro s hs
      obtain ⟨g, hg, rfl⟩ := List.mem_map.mp hs
      obtain ⟨e, he, rfl⟩ := List.mem_map.mp hg
      exact sides_wf (hinv.wf e he)
    obtain ⟨τ, hτR, hτ⟩ :=
      exists_models_of_droppable (droppable_log hreach hmarks hrem) hwf hR hkept
    use τ
    intro c hc
    obtain ⟨p, hp, rfl⟩ := List.mem_iff_getElem.mp hc
    have hderef : F.deref p = F.formula[p] := by
      rw [CNFFormula.deref, List.getD_eq_getElem _ _ hp]
    have hne : F.deref p ≠ [] := by
      intro hnil
      rw [hderef] at hnil
      rw [hnil] at hc
      exact hempty hc
    rw [← hderef]
    have hmem := (hdist p hne).mpr List.not_mem_nil
    obtain hmem | hmem := List.mem_append.mp hmem
    · obtain hmem | hmem := List.mem_append.mp hmem
      · exact hτR _ ⟨p, List.mem_append_left _ hmem, rfl⟩
      · obtain ⟨g, hg, hp⟩ := List.mem_flatMap.mp hmem
        apply hτ _ (List.mem_map_of_mem (hperm.mem_iff.mp hg))
        obtain hp | hp := List.mem_append.mp hp
        · left
          exact ⟨p, hp, rfl⟩
        · right
          exact ⟨p, hp, rfl⟩
    · exact hτR _ ⟨p, List.mem_append_right _ hmem, rfl⟩
  · apply Satisfiable.mono
    rintro c ⟨p, hp, rfl⟩
    obtain hmem | hnil := F.deref_mem_or p
    · exact hmem
    · exfalso
      have hused : p ∈ a.used [] ∨ p ∈ a.live F [] := by
        obtain hp | hp := List.mem_append.mp hp
        · obtain hp | hp := List.mem_append.mp hp
          · left
            exact mem_used.mpr (Or.inr (Or.inr (Or.inl hp)))
          · right
            exact hrem p hp
        · left
          obtain ⟨g, hg, hp⟩ := List.mem_flatMap.mp hp
          apply mem_used.mpr
          right; right; right
          apply List.mem_flatMap.mpr
          refine ⟨g, hperm.mem_iff.mp hg, ?_⟩
          obtain hp | hp := List.mem_append.mp hp
          · exact List.mem_append_left _ hp
          · apply List.mem_append_right
            split at hp
            · exact hp
            · cases hp
      obtain hused | hlive := hused
      · exact hinv.ne_nil p hused hnil
      · have := hlive.1
        rw [hnil] at this
        cases this

/-- The marks are complete in the run on `twoGates`. -/
theorem pruned_satisfiable_iff_twoGates :
  ∃ r, analyze (Env.small false) twoGates = .ok r ∧ r.log.length = 2
    ∧ (Satisfiable (twoGates.clausesAt (r.gateFormula.pruned twoGates))
      ↔ Satisfiable twoGates.clauses)
  := by
  obtain ⟨r, hr, hmarks⟩ := exists_ok_of_any
    (by decide +kernel : (analyze (Env.small false) twoGates).toOption.any
      (fun r => r.log.length = 2 ∧ ∀ e ∈ r.log, e.MarksComplete twoGates) = true)
  obtain ⟨hlen, hmarks⟩ := of_decide_eq_true hmarks
  exact ⟨r, hr, hlen, pruned_satisfiable_iff hr (fun _ _ => rfl) (by decide) hmarks⟩

/-- The gate `1` is a disjunction of `2` and `3`, the gate `3` a conjunction of `-2` and `4`,
and `-2` is a disjunction of `5` and `6`; the unit clauses contradict them. -/
def droppedInput : List (List Int) :=
  [[1], [5], [-4], [-1, 2, 3], [1, -2], [1, -3], [-3, -2], [-3, 4], [3, 2, -4], [2, 5, 6],
    [-2, -5], [-2, -6]]

theorem not_satisfiable_droppedInput :
  ¬ Satisfiable (CNFFormula.readDimacs droppedInput).clauses
  := by
  rintro ⟨σ, hσ⟩
  let conflict : List Cl := [[⟨2⟩], [⟨10⟩], [⟨9⟩], [⟨3⟩, ⟨4⟩, ⟨6⟩], [⟨7⟩, ⟨8⟩], [⟨5⟩, ⟨11⟩]]
  have hmem : ∀ c ∈ conflict, c ∈ (CNFFormula.readDimacs droppedInput).formula := by
    decide +kernel
  have hsat : ∀ c ∈ conflict, Clause.Sat σ c := fun c hc => hσ c (hmem c hc)
  have hvalue : ∀ l : Lit, σ.value l = (σ l.var ^^ l.sign) := fun _ => rfl
  simp [conflict, Clause.Sat, hvalue, Lit.var, Lit.sign] at hsat
  obtain ⟨h₁, h₅, h₄, hor, hand, hneg⟩ := hsat
  simp [h₁, h₄, h₅] at hor hand hneg
  simp [hand, hneg] at hor

/-- The input `2` is dropped from the list of the gate `1`, so that the gate `-2` counts as
monotonically nested and the pruned formula becomes satisfiable. -/
theorem not_equisatisfiable_droppedInput :
  ¬ ∀ (env : Env) (F : CNFFormula) (r : Analyzer), analyze env F = .ok r →
      (∀ b, RoundEnd env F b → env.timeout b = false) →
      (Satisfiable (F.clausesAt (r.gateFormula.pruned F)) ↔ Satisfiable F.clauses)
  := by
  intro h
  let σ : Assignment Nat := fun v => v = 1 ∨ v = 2 ∨ v = 5
  obtain ⟨r, hr, hsat⟩ := exists_ok_of_any
    (by decide +kernel : (analyze (Env.small false) (CNFFormula.readDimacs droppedInput)).toOption.any
      (fun r => ∀ p ∈ r.gateFormula.pruned (CNFFormula.readDimacs droppedInput),
        Clause.Sat (fun v => v = 1 ∨ v = 2 ∨ v = 5 : Assignment Nat)
          ((CNFFormula.readDimacs droppedInput).deref p)) = true)
  apply not_satisfiable_droppedInput
  apply (h _ _ r hr (fun _ _ => rfl)).mp
  use σ
  rintro c ⟨p, hp, rfl⟩
  exact of_decide_eq_true hsat p hp

end Analyzer

end CnfTools
