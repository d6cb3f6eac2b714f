import IgnoreGates.Cadical.RestoreRun
import Mathlib.Tactic.IntervalCases

/-!
# Eliminated variables in incremental runs

The clauses that bounded variable elimination saves on the extension stack can be restored one by
one: each of them is satisfied by making its witness true in a model of the clauses that stay and
of those that have been saved behind it.
-/

namespace Cadical

open Logic External

/-- Clauses that are satisfied need not be restored. -/
theorem restore_of_sat {entries : List (Lit × List Lit)} {σ : Assignment Nat}
    (h : ∀ e ∈ entries, Clause.Sat σ e.2) :
  restore entries σ = σ
  := by
  induction entries with
  | nil => rfl
  | cons e entries ih =>
      obtain ⟨he, hentries⟩ := List.forall_mem_cons.mp h
      rw [restore_cons, ih hentries, if_pos he]

namespace Eliminator

variable {s u : Eliminator} {pivot : Lit}

namespace Added

/-- Models of the old clauses are models of the new ones. -/
theorem modelOff (h : Added s u pivot) {σ : Assignment Nat} (hσ : s.Model σ) :
  u.ModelOff pivot.vidx σ
  := by
  refine ⟨h.reduces.root σ hσ, ?_⟩
  intro c hc hgarbage _
  by_cases hlt : c < s.clauses.length
  · rw [h.reduces.clause hlt]
    apply hσ.sat c hlt
    rw [← Bool.not_eq_true]
    intro hg
    rw [h.reduces.garbage c hlt hg] at hgarbage
    cases hgarbage
  · exact h.reduces.added σ hσ c hc (Nat.not_lt.mp hlt)

/-- A clause that has been saved is one of the old ones. -/
theorem sat_saved (h : Added s u pivot) (hs : s.Connected) {σ : Assignment Nat} (hσ : s.Model σ)
    {l : Lit} {c : Nat} (hc : c ∈ u.saved (s.occs l)) :
  Clause.Sat σ (s.clause c)
  := by
  obtain ⟨hmem, hgarbage, -⟩ := mem_saved.mp hc
  have hlt := lt_of_mem_clause (hs.mem l c hmem)
  apply hσ.sat c hlt
  rw [← Bool.not_eq_true]
  intro hg
  rw [h.reduces.garbage c hlt hg] at hgarbage
  cases hgarbage

/-- The clauses that stay do not depend on the pivot. -/
theorem modelOff_make (h : Added s u pivot) {σ : Assignment Nat} {l : Lit}
    (hl : l.vidx = pivot.vidx) (hσ : u.ModelOff pivot.vidx σ) :
  u.ModelOff pivot.vidx (σ.make l)
  := by
  have hmake : ∀ v, v ≠ pivot.vidx → σ.make l v = σ v := by
    intro v hv
    apply Assignment.make_apply_of_ne
    rwa [← hl] at hv
  constructor
  · intro v b hv
    rw [hmake v, hσ.root v b hv]
    rintro rfl
    rw [val_eq_none_iff.mp h.val] at hv
    cases hv
  · intro c hc hgarbage hoff
    apply (Clause.sat_congr _).mpr (hσ.sat c hc hgarbage hoff)
    rintro v ⟨k, hk, rfl⟩
    exact hmake _ (hoff k hk)

/-- The old clauses are those that stay together with the saved ones. -/
theorem model_iff (h : Added s u pivot) (hs : s.Connected)
    (hgate : s.gates = [] ∨ s.GatesDefine pivot ∧ s.GatesTotal pivot) (σ : Assignment Nat) :
  s.Model σ ↔ u.ModelOff pivot.vidx σ
    ∧ (∀ c ∈ (u.saved (s.occs pivot)).map s.clause, Clause.Sat σ c)
    ∧ ∀ c ∈ (u.saved (s.occs (-pivot))).map s.clause, Clause.Sat σ c
  := by
  constructor
  · intro hσ
    have hsaved : ∀ l, ∀ c ∈ (u.saved (s.occs l)).map s.clause, Clause.Sat σ c := by
      intro l k hk
      obtain ⟨c, hc, rfl⟩ := List.mem_map.mp hk
      exact h.sat_saved hs hσ hc
    exact ⟨h.modelOff hσ, hsaved pivot, hsaved (-pivot)⟩
  · rintro ⟨hσ, hpos, hneg⟩
    have hmodel := h.extend_model hs hgate hσ
    rwa [restore_of_sat] at hmodel
    intro e he
    obtain he | he := List.mem_append.mp he
    · obtain ⟨c, hc, rfl⟩ := List.mem_map.mp he
      exact hpos c hc
    · obtain ⟨c, hc, rfl⟩ := List.mem_map.mp he
      exact hneg c hc

theorem reconstructs (h : Added s u pivot) (hs : s.Connected)
    (hgate : s.gates = [] ∨ s.GatesDefine pivot ∧ s.GatesTotal pivot) :
  Reconstructs s.Model
    (((u.saved (s.occs pivot)).map s.clause).map (fun c => ⟨[pivot], c⟩)
      ++ ((u.saved (s.occs (-pivot))).map s.clause).map (fun c => ⟨[Literal.neg pivot], c⟩))
    (u.ModelOff pivot.vidx)
  := by
  have hmem : ∀ (l : Lit), ∀ k ∈ (u.saved (s.occs l)).map s.clause, l ∈ k := by
    intro l k hk
    obtain ⟨c, hc, rfl⟩ := List.mem_map.mp hk
    exact hs.mem l c (mem_saved.mp hc).1
  have hres := Reconstructs.resolved (Q := u.ModelOff pivot.vidx) (hmem pivot) (hmem (-pivot))
    (fun σ l hl hσ => h.modelOff_make hl hσ)
    (by
      intro σ hσ k hk l hl
      obtain ⟨c, hc, rfl⟩ := List.mem_map.mp hk
      obtain ⟨d, hd, rfl⟩ := List.mem_map.mp hl
      exact h.saved_resolved hs (fun hne => (hgate.resolve_left hne).2) hσ hc hd)
  exact hres.congr (h.model_iff hs hgate) (fun _ => Iff.rfl)

/-- After the elimination the clauses that stay do not mention the pivot. -/
theorem model_iff_modelOff {g : Nat → Bool} (occs : Lit → List Nat) (h : Added s u pivot)
    (hg : ∀ c, g c = true ↔ u.garbage c = true ∨ c ∈ u.occs pivot ∨ c ∈ u.occs (-pivot))
    (σ : Assignment Nat) :
  u.ModelOff pivot.vidx σ ↔ Model { u with garbage := g, occs := occs } σ
  := by
  have hu := h.reduces.connected
  have hneg : u.val (-pivot) = none := by
    rw [val_eq_none_iff, Lit.vidx_neg]
    exact val_eq_none_iff.mp h.val
  constructor
  · intro hσ
    refine ⟨hσ.root, ?_⟩
    intro c hc hgarbage
    have hnot := mt (hg c).mpr (Bool.eq_false_iff.mp hgarbage)
    rw [not_or, not_or, Bool.not_eq_true] at hnot
    apply hσ.sat c hc hnot.1
    intro l hl hvidx
    obtain rfl | rfl := Lit.eq_or_eq_neg hvidx
    · exact hnot.2.1 (hu.full c hnot.1 _ hl h.val)
    · exact hnot.2.2 (hu.full c hnot.1 _ hl hneg)
  · intro hσ
    refine ⟨hσ.root, ?_⟩
    intro c hc hgarbage hoff
    apply hσ.sat c hc
    change g c = false
    rw [← Bool.not_eq_true, hg]
    rintro (hgarbage' | hmem | hmem)
    · rw [hgarbage] at hgarbage'
      cases hgarbage'
    · exact hoff pivot (hu.mem _ c hmem) rfl
    · exact hoff (-pivot) (hu.mem _ c hmem) (Lit.vidx_neg pivot)

end Added

/-- The elimination of the pivot removes the saved clauses one after the other. -/
theorem eliminate_reconstructs {t : Eliminator} (hs : s.Connected) (hmarks : ∀ v, s.marks v = 0)
    (hpivot : s.val pivot = none)
    (hgate : s.gates = [] ∨ s.GatesDefine pivot ∧ s.GatesTotal pivot)
    (hbounded : s.elimResolventsAreBounded pivot = (true, t))
    (hunsat : (t.elimAddResolvents pivot).unsat = false) :
  let r := (t.elimAddResolvents pivot).markEliminatedClausesAsGarbage pivot
  Reconstructs s.Model (r.2.map Entry.weakened) r.1.Model
    ∧ ∀ e ∈ r.2, (e.witness = [pivot] ∨ e.witness = [-pivot]) ∧ ∃ c, e.clause = s.clause c
      ∧ ∃ l ∈ s.clause c, l.vidx = pivot.vidx
  := by
  have hadded := elimAddResolvents_added hs hmarks hpivot hbounded hunsat
  generalize t.elimAddResolvents pivot = u at hadded
  obtain ⟨g, occs, heq, hg⟩ := mark_eliminated_spec hadded.reduces.connected pivot
  rw [heq]
  have hclause : ∀ l, ∀ c ∈ u.saved (s.occs l), u.clause c = s.clause c := by
    intro l c hc
    exact hadded.reduces.clause (lt_of_mem_clause (hs.mem _ c (mem_saved.mp hc).1))
  simp only [hadded.reduces.occs pivot rfl, hadded.reduces.occs (-pivot) (Lit.vidx_neg pivot)]
  constructor
  · have hrec := (hadded.reconstructs hs hgate).congr (fun _ => Iff.rfl)
      (hadded.model_iff_modelOff occs hg)
    convert hrec using 1
    rw [List.map_append, List.map_map, List.map_map, List.map_map, List.map_map]
    congr 1
    · apply List.map_congr_left
      intro c hc
      exact congrArg (Weakened.mk [pivot]) (hclause pivot c hc)
    · apply List.map_congr_left
      intro c hc
      exact congrArg (Weakened.mk [-pivot]) (hclause (-pivot) c hc)
  · intro e he
    obtain he | he := List.mem_append.mp he
    · obtain ⟨c, hc, rfl⟩ := List.mem_map.mp he
      exact ⟨Or.inl rfl, c, hclause pivot c hc, pivot, hs.mem _ c (mem_saved.mp hc).1, rfl⟩
    · obtain ⟨c, hc, rfl⟩ := List.mem_map.mp he
      exact ⟨Or.inr rfl, c, hclause (-pivot) c hc, -pivot, hs.mem _ c (mem_saved.mp hc).1,
        Lit.vidx_neg pivot⟩

end Eliminator

namespace External

/-- Eliminating a variable that does not occur in the assumed clauses is a step of an incremental
run: whatever is added, restored or removed later, models are extended to models of all clauses
that have been added. -/
theorem eliminate_incremental {maxVar : Nat} {o : RestoreOptions} {O A : Set (Clause Lit)}
    {x : Extension} {s t : Eliminator} {pivot : Lit} (h : Incremental maxVar o O A ∅ s.Model x)
    (hs : s.Connected) (hmarks : ∀ v, s.marks v = 0) (hpivot : s.val pivot = none)
    (hgate : s.gates = [] ∨ s.GatesDefine pivot ∧ s.GatesTotal pivot)
    (hbounded : s.elimResolventsAreBounded pivot = (true, t))
    (hunsat : (t.elimAddResolvents pivot).unsat = false)
    (hvars : ∀ c, ∀ l ∈ s.clause c, l.vidx ≤ maxVar)
    (hfrozen : ∀ c ∈ A, ∀ l ∈ c, l.vidx ≠ pivot.vidx) :
  let r := (t.elimAddResolvents pivot).markEliminatedClausesAsGarbage pivot
  Incremental maxVar o O A ∅ r.1.Model (x.pushEntries r.2)
  := by
  obtain ⟨hrec, hentries⟩ := Eliminator.eliminate_reconstructs hs hmarks hpivot hgate hbounded hunsat
  have hwitness : ∀ e ∈ ((t.elimAddResolvents pivot).markEliminatedClausesAsGarbage pivot).2,
      ∀ l ∈ e.witness, l.vidx = pivot.vidx := by
    intro e he l hl
    obtain ⟨heq | heq, -⟩ := hentries e he
    · rw [heq, List.mem_singleton] at hl
      rw [hl]
    · rw [heq, List.mem_singleton] at hl
      rw [hl, Lit.vidx_neg]
  refine h.weaken hrec ?_ ?_
  · intro e he
    obtain ⟨-, c, hc, k, hk, hkv⟩ := hentries e he
    refine ⟨fun l hl => ?_, fun l hl => hvars c l (hc ▸ hl)⟩
    rw [hwitness e he l hl, ← hkv]
    exact hvars c k hk
  · intro e he c hc l hl hmem
    exact hfrozen c hc l hl ((Lit.vidx_neg l).symm.trans (hwitness e he _ hmem))

section Run

/-- The clauses of a gate and two other ones. -/
def gateFormula : Set (Clause Lit) :=
  {[Backward.lit 1, Backward.lit 2], [Backward.lit (-1), Backward.lit (-2)],
    [Backward.lit 1, Backward.lit 3], [Backward.lit (-1), Backward.lit 4]}

theorem models_gateFormula (σ : Assignment Nat) :
  ((True ∧ Models σ gateFormula) ∧ ∀ c ∈ ([] : List (List Lit)), Clause.Sat σ c)
    ↔ Eliminator.equivalenceGate.Model σ
  := by
  constructor
  · rintro ⟨⟨-, h⟩, -⟩
    refine ⟨nofun, fun c hc _ => h _ ?_⟩
    have hlt : c < 4 := hc
    interval_cases c
    · exact Or.inl rfl
    · exact Or.inr (Or.inl rfl)
    · exact Or.inr (Or.inr (Or.inl rfl))
    · exact Or.inr (Or.inr (Or.inr rfl))
  · intro h
    refine ⟨⟨trivial, ?_⟩, nofun⟩
    rintro c (rfl | rfl | rfl | rfl)
    · exact h.sat 0 (by decide) rfl
    · exact h.sat 1 (by decide) rfl
    · exact h.sat 2 (by decide) rfl
    · exact h.sat 3 (by decide) rfl

/-- A run in which the clauses have been added. -/
theorem gate_incremental :
  Incremental 4 runOptions gateFormula ∅ ∅ Eliminator.equivalenceGate.Model ⟨[], ∅, ∅⟩
  := by
  have hinit : Incremental 4 runOptions ∅ ∅ ∅ (fun _ => True) ⟨[], ∅, ∅⟩ := .init
  have hadd := (((hinit.add [Backward.lit (-1), Backward.lit 4]).add
    [Backward.lit 1, Backward.lit 3]).add [Backward.lit (-1), Backward.lit (-2)]).add
    [Backward.lit 1, Backward.lit 2]
  rw [insert_empty_eq] at hadd
  have hrestore := hadd.restore (t := ⟨[], ∅, ∅⟩) (fun _ _ => 0) []
    (fun _ _ hpos => absurd hpos (by decide)) (by decide +kernel)
  exact hrestore.equivalent models_gateFormula

/-- The variable of an equivalence is eliminated in a run in which its clauses have been added. -/
theorem eliminate_incremental_gate :
  let r := ((Eliminator.equivalenceGate.elimResolventsAreBounded
    (Backward.lit 1)).2.elimAddResolvents (Backward.lit 1)).markEliminatedClausesAsGarbage
      (Backward.lit 1)
  Incremental 4 runOptions gateFormula ∅ ∅ r.1.Model (Extension.pushEntries ⟨[], ∅, ∅⟩ r.2)
  := eliminate_incremental gate_incremental Eliminator.equivalenceGate_connected (fun _ => rfl) rfl
    (Or.inr Eliminator.equivalenceGate_define) (Prod.ext (by decide +kernel) rfl)
    (by decide +kernel) (fun c l hl => by
      have hc := Eliminator.lt_of_mem_clause hl
      have hlt : c < 4 := hc
      revert l
      interval_cases c <;> decide)
    nofun

end Run

end External

end Cadical
