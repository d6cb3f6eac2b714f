import IgnoreGates.Cadical.BackwardLoop

/-!
# Backward subsumption with one clause

When backward subsumption with a clause is sound, and a clause for which it is not: `satisfied`
is declared outside of the loop over the candidates, and is still set for the candidates that
come after a satisfied one.
-/

namespace Cadical

open Logic Eliminator

namespace Backward

variable {s : Backward} {c : Nat}

theorem model_marks (s : Eliminator) (marks : Nat → Int) (σ : Assignment Nat) :
  Model { s with marks := marks } σ ↔ s.Model σ
  := ⟨fun h => ⟨h.root, h.sat⟩, fun h => ⟨h.root, h.sat⟩⟩

/-- Marks do not matter. -/
theorem backwardSound_marks (s t : Eliminator) (marks marks' : Nat → Int) :
  BackwardSound { s with marks := marks } { t with marks := marks' } c ↔ BackwardSound s t c
  := by
  constructor
  · intro h
    refine ⟨h.garbage, h.removed, fun σ hσ => h.units σ ((model_marks _ _ σ).mpr hσ), ?_⟩
    intro σ
    have hiff := h.equivalent σ
    rwa [model_marks s, model_marks t] at hiff
  · intro h
    refine ⟨h.garbage, h.removed, fun σ hσ => h.units σ ((model_marks _ _ σ).mp hσ), ?_⟩
    intro σ
    rw [model_marks s, model_marks t]
    exact h.equivalent σ

theorem unmarkClause_eq (t : Eliminator) (c : Nat) :
  t.unmarkClause c
    = { t with marks := fun v => if v ∈ (t.clause c).map Lit.vidx then 0 else t.marks v }
  := foldl_unmark _ _

/-- Nothing is done with the clause. -/
theorem backwardSound_refl (s : Eliminator) (c : Nat) :
  BackwardSound s s c
  where
    garbage := by
      intro d hd hd'
      rw [hd] at hd'
      cases hd'
    removed := fun _ _ hl hnot => absurd hl hnot
    units := fun _ h => h.root
    equivalent := fun _ => Iff.rfl

theorem connected_marks {s : Eliminator} (hs : s.Connected) (marks : Nat → Int) :
  Connected { s with marks := marks }
  := ⟨hs.mem, hs.full, hs.occs_nodup, hs.nodup⟩

/-- A satisfied clause becomes garbage. -/
theorem elimBackwardClause_satisfied (hs : s.Connected) (hc : s.garbage c = false)
    (hsat : s.Satisfied (s.clause c)) :
  BackwardSound s.toEliminator (s.elimBackwardClause c).toEliminator c
  := by
  have hlt : c < s.clauses.length := by
    obtain ⟨lit, hlit, -⟩ := hsat
    exact lt_of_mem_clause hlit
  obtain ⟨hsnd, marks, hstate⟩ := markLoop_true (m := ⟨s.toEliminator, uintMax, 0, none⟩) hsat
  rw [elimBackwardClause, hc, if_neg Bool.false_ne_true]
  generalize markLoop (s.clause c) ⟨s.toEliminator, uintMax, 0, none⟩ = r at *
  obtain ⟨m, b⟩ := r
  simp only at hsnd hstate
  subst hsnd
  simp only [setEliminator, unmarkClause_eq, hstate]
  apply (backwardSound_marks s.toEliminator (s.markGarbage c) s.marks _).mpr
  apply Reduced.sound _ hs hlt hc
  exact ⟨s.toEliminator, Trimmed.refl hs c, Propagated.markGarbage hsat, .of_unsat rfl⟩

/-- What the clause is compared with, when it is neither garbage nor satisfied. -/
theorem elimBackwardClause_cases (hs : s.Connected) (hmarks : ∀ v, s.marks v = 0)
    (hsize : ∀ d, (s.clause d).length < 2 ^ 31) (hc : s.garbage c = false)
    (hsat : ¬ s.Satisfied (s.clause c)) :
  ((∀ best ∈ s.best c, ¬ (s.occs best).length ≤ s.opts.elimocclim)
      ∧ ∃ marks, (s.elimBackwardClause c).toEliminator = { s.toEliminator with marks := marks })
    ∨ ∃ best ∈ s.best c, (s.occs best).length ≤ s.opts.elimocclim
      ∧ ∃ marks marks' r, Eliminator.Ready { s.toEliminator with marks := marks } c
        ∧ LoopSpec { s.toEliminator with marks := marks } c (s.occs best) r
        ∧ (s.elimBackwardClause c).toEliminator = { r with marks := marks' }
  := by
  have hnot : ∀ l ∈ s.clause c, s.val l ≠ some true := fun l hl htrue => hsat ⟨l, hl, htrue⟩
  obtain ⟨hsnd, hloop, hfree⟩ := markLoop_marks (m := ⟨s.toEliminator, uintMax, 0, none⟩)
    (hs.nodup c) hnot
  obtain ⟨hbest, hlen⟩ := markLoop_best (hs.nodup c) hnot
  have hmatching := hloop.matching hmarks
  obtain ⟨⟨marks, hsame⟩, -, -⟩ := hloop
  rw [elimBackwardClause, hc, if_neg Bool.false_ne_true]
  generalize markLoop (s.clause c) ⟨s.toEliminator, uintMax, 0, none⟩ = r at *
  obtain ⟨⟨m, len, size, best⟩, b⟩ := r
  simp only at hsnd hbest hlen hfree hmatching hsame
  subst hsnd hsame
  have hlim : s.opts.elimocclim < uintMax :=
    s.opts.elimocclim_le.trans_lt (by decide)
  change best = (s.best c).filter (fun l => (s.occs l).length < uintMax) at hbest
  simp only
  split
  · next hlt =>
      left
      refine ⟨?_, _, by rw [setEliminator, unmarkClause_eq]⟩
      intro b hb hle
      rw [hb, Option.filter, decide_eq_true (hle.trans_lt hlim)] at hbest
      subst hbest hlen
      exact Nat.not_lt.mpr hle hlt
  · next hle =>
      right
      cases hb : s.best c with
      | none =>
          rw [hb] at hbest
          subst hbest hlen
          exact absurd hlim hle
      | some b =>
          have hocc : (s.occs b).length < uintMax := by
            by_contra hocc
            rw [hb, Option.filter, decide_eq_false hocc] at hbest
            subst hbest hlen
            exact hle hlim
          rw [hb, Option.filter, decide_eq_true hocc] at hbest
          subst hbest hlen
          have hm : Eliminator.Ready { s.toEliminator with marks := marks } c :=
            { matching := hmatching
              connected := connected_marks hs marks
              size_lt := fun d => (hsize d).trans (by decide)
              not_garbage := hc
              not_satisfied := hsat
              free_pos := List.length_pos_of_mem (List.argmin_mem hb) }
          refine ⟨b, rfl, Nat.not_lt.mp hle, marks, _, _, hm, ?_, by rw [setEliminator, unmarkClause_eq]⟩
          apply candidatesLoop_spec hm (Trimmed.refl (connected_marks hs marks) c)
          · exact ⟨hs.occs_nodup b, fun _ _ => rfl, fun _ _ => rfl⟩
          · exact hfree.trans (Nat.zero_add _)
          · rfl

/-- Backward subsumption with a clause removes only what is redundant exactly when no candidate
for which `satisfied` is left over is removed without being redundant. -/
theorem elimBackwardClause_sound_iff (s : Backward) (c : Nat) (hs : s.Connected)
    (hmarks : ∀ v, s.marks v = 0) (hsize : ∀ d, (s.clause d).length < 2 ^ 31) :
  BackwardSound s.toEliminator (s.elimBackwardClause c).toEliminator c ↔ s.NoneMistaken c
  := by
  by_cases hc : s.garbage c = true
  · rw [elimBackwardClause, if_pos hc]
    apply iff_of_true (backwardSound_refl _ c)
    intro hfalse
    rw [hc] at hfalse
    cases hfalse
  rw [Bool.not_eq_true] at hc
  by_cases hsat : s.Satisfied (s.clause c)
  · apply iff_of_true (elimBackwardClause_satisfied hs hc hsat)
    exact fun _ hnot => absurd hsat hnot
  obtain ⟨hmany, marks, heq⟩ | ⟨best, hbest, hle, marks, marks', r, hm, hspec, heq⟩ :=
    elimBackwardClause_cases hs hmarks hsize hc hsat
  · rw [heq]
    apply iff_of_true
    · exact (backwardSound_marks s.toEliminator s.toEliminator s.marks marks).mpr
        (backwardSound_refl _ c)
    · exact fun _ _ best hbest hle => absurd hle (hmany best hbest)
  · rw [heq]
    constructor
    · intro hsound _ _ best' hbest' _ pre d post hsplit hd hstill
      obtain rfl : best = best' := Option.some.inj (hbest.symm.trans hbest')
      obtain ⟨hgarbage, hvals⟩ := hspec.mistaken pre d post hsplit hd hstill
      obtain ⟨l, hl, htrue⟩ | hsubsumes := hsound.garbage d hd.not_garbage hgarbage
      · left
        refine ⟨l, hl, ?_⟩
        rw [← htrue, val, val]
        exact congrArg _ (congrFun hvals l.vidx).symm
      · exact Or.inr hsubsumes
    · intro hnone
      have hreduced := hspec.sound (hnone hc hsat best hbest hle)
      obtain ⟨k, hk⟩ := List.exists_mem_of_length_pos hm.free_pos
      have hlt := lt_of_mem_clause (List.mem_of_mem_filter hk)
      have hsound := hreduced.sound hm.connected hlt hm.not_garbage
      apply (backwardSound_marks s.toEliminator r s.marks marks').mpr
      exact (backwardSound_marks s.toEliminator r marks r.marks).mp hsound

/-- When no clause has a true literal that has not been removed, nothing is mistaken for
satisfied. -/
theorem noneMistaken_of_not_satisfied {s : Eliminator}
    (h : ∀ d, s.garbage d = false → ¬ s.Satisfied (s.clause d)) (c : Nat) :
  s.NoneMistaken c
  := by
  rintro - - best - - pre d post - - ⟨⟨pre', x, post', -, hx, hsets, -⟩, -⟩
  apply absurd _ (h x hx.2.1)
  obtain ⟨pre, lit, post, hsplit, -, htrue⟩ | ⟨-, -, pre, lit, post, hsplit, htrue, -⟩ := hsets
  · exact ⟨lit, by rw [hsplit]; exact List.mem_append_right pre List.mem_cons_self, htrue⟩
  · exact ⟨lit, by rw [hsplit]; exact List.mem_append_right pre List.mem_cons_self, htrue⟩

/-! ### Small states -/

/-- The state with the clauses, where all literals are connected, and with the values. -/
def ofClauses (opts : ElimOptions) (clauses : List (List Lit)) (vals : Nat → Option Bool) :
    Backward where
  clauses
  garbage := fun _ => false
  gate := fun _ => false
  occs := fun lit => (List.range clauses.length).filter (fun c => lit ∈ clauses.getD c [])
  vals
  unsat := false
  marks := fun _ => 0
  markedStack := []
  gates := []
  elimbound := 0
  opts
  backward := []
  enqueued := fun _ => false

theorem ofClauses_connected (opts : ElimOptions) {clauses : List (List Lit)}
    (vals : Nat → Option Bool) (h : ∀ c ∈ clauses, (c.map Lit.vidx).Nodup) :
  (ofClauses opts clauses vals).Connected
  where
    mem := by
      intro lit c hc
      have hmem := (List.mem_filter.mp hc).2
      rwa [decide_eq_true_eq] at hmem
    full := by
      intro c _ lit hlit _
      apply List.mem_filter.mpr
      exact ⟨List.mem_range.mpr (lt_of_mem_clause hlit), decide_eq_true hlit⟩
    occs_nodup := fun _ => List.nodup_range.filter _
    nodup := by
      intro c
      change ((clauses.getD c []).map Lit.vidx).Nodup
      obtain hlt | hle := Nat.lt_or_ge c clauses.length
      · rw [List.getD_eq_getElem _ _ hlt]
        exact h _ (List.getElem_mem hlt)
      · rw [List.getD_eq_default _ _ hle]
        exact List.nodup_nil

theorem ofClauses_size (opts : ElimOptions) {clauses : List (List Lit)}
    (vals : Nat → Option Bool) {n : Nat} (h : ∀ c ∈ clauses, c.length < n) (hn : 0 < n) (d : Nat) :
  ((ofClauses opts clauses vals).clause d).length < n
  := by
  change (clauses.getD d []).length < n
  obtain hlt | hle := Nat.lt_or_ge d clauses.length
  · rw [List.getD_eq_getElem _ _ hlt]
    exact h _ (List.getElem_mem hlt)
  · rwa [List.getD_eq_default _ _ hle]

/-- A literal that is given as a number. -/
def lit (n : Int) : Lit :=
  Lit.ofInt n

/-- The options with their default values. -/
def defaultOptions : ElimOptions where
  elimsubst := true
  elimequivs := true
  elimands := true
  elimites := true
  elimxors := true
  elimxorlim := 5
  elimclslim := 100
  elimbackward := true
  elimocclim := 100
  elimxorlim_le := by decide
  elimocclim_le := by decide

/-- Nothing is assigned.  The first clause subsumes the second one and strengthens the third. -/
def withoutUnits : Backward :=
  ofClauses defaultOptions
    [[lit 1, lit 2], [lit 1, lit 2, lit 3], [lit 1, lit (-2), lit 4], [lit 2, lit 5], [lit 2, lit 6]]
    (fun _ => none)

/-- With the clause (1 2) the clause (1 2 3) is removed, and (1 -2 4) loses a literal. -/
theorem elimBackwardClause_sound_withoutUnits :
  BackwardSound withoutUnits.toEliminator (withoutUnits.elimBackwardClause 0).toEliminator 0
    ∧ (withoutUnits.elimBackwardClause 0).garbage 1 = true
    ∧ (withoutUnits.elimBackwardClause 0).clause 2 = [lit 1, lit 4]
  := by
  refine ⟨?_, by decide +kernel, by decide +kernel⟩
  apply (elimBackwardClause_sound_iff withoutUnits 0 (ofClauses_connected _ _ (by decide))
    (fun _ => rfl) (ofClauses_size _ _ (by decide) (by decide))).mpr
  apply noneMistaken_of_not_satisfied
  rintro d - ⟨l, -, htrue⟩
  cases htrue

/-- The literal 3 is true, and the clause (1 3) has not been removed yet. -/
def unitNotPropagated : Backward :=
  ofClauses defaultOptions
    [[lit 1, lit 2], [lit 1, lit 3], [lit 1, lit 4], [lit 2, lit 4], [lit 2, lit 5]]
    (fun v => if v = 3 then some true else none)

theorem unitNotPropagated_connected :
  unitNotPropagated.Connected
  := ofClauses_connected _ _ (by decide)

theorem unitNotPropagated_size (d : Nat) :
  (unitNotPropagated.clause d).length < 2 ^ 31
  := ofClauses_size _ _ (by decide) (by decide) d

/-- With the clause (1 2) the satisfied clause (1 3) is removed, and then also (1 4). -/
theorem not_backwardSound :
  ∃ s : Backward, s.Connected ∧ (∀ v, s.marks v = 0) ∧ (∀ d, (s.clause d).length < 2 ^ 31)
    ∧ ¬ BackwardSound s.toEliminator (s.elimBackwardClause 0).toEliminator 0
  := by
  refine ⟨unitNotPropagated, unitNotPropagated_connected, fun _ => rfl,
    unitNotPropagated_size, ?_⟩
  intro hsound
  obtain hsat | hsubsumes := hsound.garbage 2 rfl (by decide +kernel)
  · revert hsat
    decide +kernel
  · obtain hfalse | hmem := hsubsumes (lit 2) (by decide)
    · revert hfalse
      decide
    · revert hmem
      decide

end Backward

end Cadical
