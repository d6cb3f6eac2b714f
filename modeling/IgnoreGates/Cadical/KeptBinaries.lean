import IgnoreGates.Cadical.PatternGates

/-!
# Actual binary clauses during propagation

When a unit has been propagated without a conflict, the clauses it satisfies are garbage, and
no actual binary clause has a false literal and an unassigned one.  Hence an actual binary
clause stays one, or its second literal has become true, as long as the first one is
unassigned.
-/

namespace Cadical

open Logic

namespace Eliminator

variable {s t u : Eliminator}

/-- A clause that is not garbage is an actual binary clause with the two literals. -/
def HasBinary (s : Eliminator) (first second : Lit) : Prop :=
  ∃ c, s.garbage c = false ∧ first ∈ s.clause c ∧ s.Binary c first second

/-- `t` is reached from `s` by steps of the detectors for the pivot: an actual binary clause
stays one as long as no literal of it is true, a satisfied clause was satisfied before unless
it is garbage, and a clause becomes garbage only when it is satisfied or is a copy of an actual
binary clause with the pivot. -/
structure Steady (pivot : Lit) (s t : Eliminator) : Prop extends Later s t where
  kept : ∀ a b, s.HasBinary a b → t.val a = none → t.val b = some true ∨ t.HasBinary a b
  satisfied : ∀ c, t.garbage c = false → t.Satisfied (t.clause c) → s.Satisfied (s.clause c)
  removed : ∀ c, t.garbage c = true → s.garbage c = true ∨ t.Satisfied (t.clause c)
    ∨ pivot ∈ t.clause c ∧ (t.free c).length ≤ 2

/-! ### Steps that leave the values as they are -/

theorem val_of_vals (h : t.vals = s.vals) (l : Lit) :
  t.val l = s.val l
  := by
  rw [val, val, h]

/-- The unassigned literals of a clause in a later state. -/
theorem Later.free_sublist (h : Later s t) (c : Nat) :
  (t.free c).Sublist (s.free c)
  := by
  rw [free, free, h.clause]
  apply List.monotone_filter_right
  intro l hl
  rw [decide_eq_true_eq] at hl ⊢
  exact h.val_none hl

namespace Steady

variable {pivot : Lit}

theorem trans (h : Steady pivot s t) (h' : Steady pivot t u) :
  Steady pivot s u
  where
    toLater := h.toLater.trans h'.toLater
    kept := by
      intro a b hbinary ha
      obtain htrue | hbinary := h.kept a b hbinary (h'.val_none ha)
      · exact Or.inl (h'.val htrue)
      · exact h'.kept a b hbinary ha
    satisfied := fun c hc hsat => h.satisfied c (h'.not_garbage hc) (h'.satisfied c hc hsat)
    removed := by
      intro c hc
      obtain hc | hc := h'.removed c hc
      · apply (h.removed c hc).imp_right
        rw [h'.clause]
        exact Or.imp h'.satisfied_mono
          (And.imp_right ((h'.free_sublist c).length_le.trans))
      · exact Or.inr hc

/-- A state with the same clauses, garbage and values. -/
theorem of_eq (h : Later s t) (hvals : t.vals = s.vals) (hgarbage : t.garbage = s.garbage) :
  Steady pivot s t
  := by
  have hval := val_of_vals hvals
  refine ⟨h, ?_, ?_, ?_⟩
  · rintro a b ⟨c, hc, ha, hbinary⟩ -
    refine Or.inr ⟨c, by rw [hgarbage, hc], h.clause c ▸ ha, hbinary.mono h ?_⟩
    rw [hval, hbinary.val]
  · intro c _ hsat
    rw [Satisfied, h.clause] at hsat
    simpa only [Satisfied, hval] using hsat
  · intro c hc
    rw [hgarbage] at hc
    exact Or.inl hc

theorem refl (s : Eliminator) :
  Steady pivot s s
  := of_eq (Later.refl s) rfl rfl

/-- A clause becomes garbage that is satisfied, or of which there is a copy. -/
theorem markGarbage {c : Nat} (hkept : ∀ a b, s.val a = none → a ∈ s.clause c →
      s.Binary c a b → (s.markGarbage c).HasBinary a b)
    (hremoved : s.Satisfied (s.clause c) ∨ pivot ∈ s.clause c ∧ (s.free c).length ≤ 2) :
  Steady pivot s (s.markGarbage c)
  := by
  refine ⟨(marking_markGarbage c).toLater, ?_, fun _ _ hsat => hsat, ?_⟩
  · rintro a b ⟨d, hd, ha, hbinary⟩ hval
    right
    by_cases hdc : d = c
    · subst hdc
      exact hkept a b hval ha hbinary
    · refine ⟨d, ?_, ha, ⟨hbinary.mem, hbinary.ne, hbinary.val, hbinary.rest⟩⟩
      rw [← Bool.not_eq_true, garbage_markGarbage, not_or, Bool.not_eq_true]
      exact ⟨hdc, hd⟩
  · intro d hd
    obtain rfl | hd := garbage_markGarbage.mp hd
    · exact Or.inr hremoved
    · exact Or.inl hd

end Steady

/-! ### Propagation -/

theorem val_eq_false_iff {lit : Lit} :
  s.val lit = some false ↔ s.val (-lit) = some true
  := by
  rw [val_neg]
  cases s.val lit with
  | none => simp
  | some b => simp

/-- The scan finds the only literal that is not false. -/
theorem scan_of_unit {lit : Lit} {c : List Lit} (hnodup : c.Nodup) (hmem : lit ∈ c)
    (hval : s.val lit = none) (hrest : ∀ k ∈ c, k = lit ∨ s.val k = some false) :
  s.scan c .falsified = .unit lit
  := by
  have hdone (l : List Lit) (hl : ∀ k ∈ l, s.val k = some false) (r : Scan) : s.scan l r = r := by
    induction l with
    | nil => rfl
    | cons k l ih =>
        rw [List.forall_mem_cons] at hl
        rw [scan, hl.1]
        exact ih hl.2
  induction c with
  | nil => cases hmem
  | cons k c ih =>
      obtain ⟨hk, hrest⟩ := List.forall_mem_cons.mp hrest
      obtain ⟨hnotin, hnodup⟩ := List.nodup_cons.mp hnodup
      rw [scan]
      obtain rfl | hfalse := hk
      · rw [hval]
        apply hdone c
        intro l hl
        apply (hrest l hl).resolve_left
        rintro rfl
        exact hnotin hl
      · rw [hfalse]
        apply ih hnodup ((List.mem_cons.mp hmem).resolve_left _) hrest
        rintro rfl
        rw [hval] at hfalse
        cases hfalse

/-- What holds when the literals assigned since `s` have been propagated, apart from those in
`work`, and apart from the clauses `cs` for those in `busy`: the clauses they satisfy are
garbage, and when the second literal of an actual binary clause is false, the first one is
assigned. -/
structure Pending (s t : Eliminator) (work busy : List Lit) (cs : List Nat) : Prop extends
    Grows s t where
  collected : ∀ l c, l ∈ s.clause c → s.val l = none → t.val l = some true →
    l ∈ work ∨ l ∈ busy ∨ t.garbage c = true
  falsified : ∀ c a b, s.garbage c = false → a ∈ s.clause c → s.Binary c a b →
    t.val b = some false → -b ∈ work ∨ -b ∈ busy ∧ c ∈ cs ∨ t.val a ≠ none

theorem val_assignUnit_true {l unit : Lit} (h : (s.assignUnit unit).val l = some true) :
  s.val l = some true ∨ l = unit
  := by
  by_cases hvar : l.vidx = unit.vidx
  · obtain rfl | rfl := Lit.eq_or_eq_neg hvar
    · exact Or.inr rfl
    · rw [val_neg, val_assignUnit_self] at h
      cases h
  · left
    simpa [val, Eliminator.assignUnit, hvar] using h

/-- A satisfied actual binary clause with a false second literal has a true first one. -/
theorem Grows.assigned_of_satisfied (h : Grows s t) {c : Nat} {a b : Lit}
    (hbinary : s.Binary c a b) (hb : t.val b = some false) (hsat : t.Satisfied (t.clause c)) :
  t.val a ≠ none
  := by
  obtain ⟨k, hk, htrue⟩ := hsat
  rw [h.clause] at hk
  obtain rfl | rfl | hfalse := hbinary.rest k hk
  · rw [htrue]
    exact Option.some_ne_none true
  · rw [hb] at htrue
    cases htrue
  · rw [h.val hfalse] at htrue
    cases htrue

/-- A clause has been looked at. -/
theorem Pending.tail {work busy : List Lit} {c : Nat} {cs : List Nat}
    (h : Pending s t work busy (c :: cs))
    (hc : ∀ a b, s.garbage c = false → a ∈ s.clause c → s.Binary c a b → t.val b = some false →
      t.val a ≠ none) :
  Pending s t work busy cs
  := by
  refine ⟨h.toGrows, h.collected, ?_⟩
  intro d a b hd ha hbinary hb
  obtain hwork | ⟨hbusy, hmem⟩ | hval := h.falsified d a b hd ha hbinary hb
  · exact Or.inl hwork
  · obtain rfl | hmem := List.mem_cons.mp hmem
    · exact Or.inr (Or.inr (hc a b hd ha hbinary hb))
    · exact Or.inr (Or.inl ⟨hbusy, hmem⟩)
  · exact Or.inr (Or.inr hval)

/-- A satisfied clause becomes garbage. -/
theorem Pending.markGarbage {work busy : List Lit} {c : Nat} {cs : List Nat}
    (h : Pending s t work busy cs) (hsat : t.Satisfied (t.clause c)) :
  Pending s (t.markGarbage c) work busy cs
  := by
  refine ⟨h.toGrows.trans (Grows.markGarbage hsat), ?_, h.falsified⟩
  intro l d hl hnone htrue
  apply (h.collected l d hl hnone htrue).imp_right
  exact Or.imp_right (fun hd => garbage_markGarbage.mpr (Or.inr hd))

/-- A unit is assigned, and remains to be propagated. -/
theorem Pending.assignUnit {work busy : List Lit} {unit : Lit} {cs : List Nat}
    (h : Pending s t work busy cs) (hunit : t.val unit = none) :
  Pending s (t.assignUnit unit) (work ++ [unit]) busy cs
  := by
  have hgrows := Grows.assignUnit hunit
  refine ⟨h.toGrows.trans hgrows, ?_, ?_⟩
  · intro l c hl hnone htrue
    rw [List.mem_append, List.mem_singleton]
    obtain htrue | rfl := val_assignUnit_true htrue
    · exact (h.collected l c hl hnone htrue).imp_left Or.inl
    · exact Or.inl (Or.inr rfl)
  · intro c a b hc ha hbinary hb
    rw [List.mem_append, List.mem_singleton]
    obtain htrue | heq := val_assignUnit_true (val_eq_false_iff.mp hb)
    · obtain hwork | hbusy | hval := h.falsified c a b hc ha hbinary (val_eq_false_iff.mpr htrue)
      · exact Or.inl (Or.inl hwork)
      · exact Or.inr (Or.inl hbusy)
      · exact Or.inr (Or.inr (mt hgrows.val_none hval))
    · exact Or.inl (Or.inr heq)

/-- The clauses with the complement of a literal are looked at. -/
theorem Pending.propagateFalsified (hs : s.Connected) (cs : List Nat)
    {work busy : List Lit} (h : Pending s t work busy cs)
    (hunsat : (propagateFalsified cs t work).1.unsat = false) :
  Pending s (propagateFalsified cs t work).1 (propagateFalsified cs t work).2 busy []
  := by
  induction cs generalizing t work with
  | nil => exact h
  | cons c cs ih =>
      rw [Eliminator.propagateFalsified] at hunsat ⊢
      split at hunsat
      · next hgarbage =>
          rw [if_pos hgarbage]
          apply ih _ hunsat
          apply h.tail
          intro a b hc ha hbinary hb
          obtain hold | hsat := h.toGrows.satisfied c hgarbage
          · rw [hc] at hold
            cases hold
          · exact h.toGrows.assigned_of_satisfied hbinary hb hsat
      · next hgarbage =>
          rw [if_neg hgarbage]
          split at hunsat
          · next hscan =>
              have hsat := scan_satisfied hscan (by simp)
              apply ih _ hunsat
              apply Pending.markGarbage _ hsat
              apply h.tail
              intro a b _ _ hbinary hb
              exact h.toGrows.assigned_of_satisfied hbinary hb hsat
          · cases hunsat
          · next unit hscan =>
              obtain ⟨hmem, hunit, hrest⟩ := scan_unit hscan
              apply ih _ hunsat
              apply (h.assignUnit hunit).tail
              intro a b _ ha _ _ hnone
              have hnone' := (Grows.assignUnit hunit).val_none hnone
              rw [← h.clause] at ha
              obtain rfl | hfalse := hrest a ha
              · rw [val_assignUnit_self] at hnone
                cases hnone
              · rw [hfalse] at hnone'
                cases hnone'
          · next hscan =>
              apply ih _ hunsat
              apply h.tail
              intro a b hc ha hbinary hb hnone
              have hunit : t.scan (t.clause c) .falsified = .unit a := by
                rw [h.clause]
                apply scan_of_unit (hs.nodup c).of_map ha hnone
                intro k hk
                obtain rfl | rfl | hfalse := hbinary.rest k hk
                · exact Or.inl rfl
                · exact Or.inr hb
                · exact Or.inr (h.val hfalse)
              rw [hunit] at hscan
              cases hscan

/-- The clauses become garbage. -/
theorem propagateSatisfied_frame (cs : List Nat) (s : Eliminator) :
  (propagateSatisfied cs s).vals = s.vals
    ∧ ∀ c, (propagateSatisfied cs s).garbage c = true ↔ s.garbage c = true ∨ c ∈ cs
  := by
  induction cs generalizing s with
  | nil => exact ⟨rfl, fun c => by simp [propagateSatisfied]⟩
  | cons d cs ih =>
      rw [propagateSatisfied]
      split
      · next hd =>
          obtain ⟨hvals, hgarbage⟩ := ih s
          refine ⟨hvals, ?_⟩
          intro c
          rw [hgarbage, List.mem_cons, ← or_assoc]
          apply or_congr_left
          constructor
          · exact Or.inl
          · rintro (hc | rfl)
            · exact hc
            · exact hd
      · obtain ⟨hvals, hgarbage⟩ := ih (s.markGarbage d)
        refine ⟨hvals, ?_⟩
        intro c
        rw [hgarbage, garbage_markGarbage, List.mem_cons, or_assoc, or_left_comm]

/-- A literal that is pending is looked at. -/
theorem Pending.pop (hs : s.Connected) {lit : Lit} {work : List Lit}
    (h : Pending s t (lit :: work) [] []) :
  Pending s t work [lit] (t.occs (-lit))
  := by
  refine ⟨h.toGrows, ?_, ?_⟩
  · intro l c hl hnone htrue
    rw [List.mem_singleton, ← or_assoc, or_comm (a := l ∈ work), ← List.mem_cons]
    exact (h.collected l c hl hnone htrue).imp_right (Or.resolve_left · List.not_mem_nil)
  · intro c a b hc ha hbinary hb
    obtain hwork | ⟨-, hmem⟩ | hval := h.falsified c a b hc ha hbinary hb
    · obtain rfl | hwork := List.mem_cons.mp hwork
      · right
        left
        refine ⟨List.mem_singleton_self _, ?_⟩
        rw [Lit.neg_neg, h.occs]
        exact hs.full c hc b hbinary.mem hbinary.val
      · exact Or.inl hwork
    · cases hmem
    · exact Or.inr (Or.inr hval)

/-- The clauses with a literal become garbage. -/
theorem Pending.propagateSatisfied (hs : s.Connected) {lit : Lit} {work : List Lit}
    (h : Pending s t work [lit] []) (hlit : t.val lit = some true) :
  Pending s (propagateSatisfied (t.occs lit) t) work [] []
  := by
  have ht := h.connected hs
  have hgrows := (propagateSatisfied_spec (ht.mem lit) hlit).toGrows
  obtain ⟨hvals, hgarbage⟩ := propagateSatisfied_frame (t.occs lit) t
  have hval := val_of_vals hvals
  refine ⟨h.toGrows.trans hgrows, ?_, ?_⟩
  · intro l c hl hnone htrue
    rw [hval] at htrue
    rw [hgarbage]
    obtain hwork | hbusy | hc := h.collected l c hl hnone htrue
    · exact Or.inl hwork
    · obtain rfl := List.mem_singleton.mp hbusy
      right
      right
      cases hc : s.garbage c with
      | true => exact Or.inl (h.garbage c hc)
      | false =>
          rw [h.occs]
          exact Or.inr (hs.full c hc l hl hnone)
    · exact Or.inr (Or.inr (Or.inl hc))
  · intro c a b hc ha hbinary hb
    rw [hval] at hb ⊢
    obtain hwork | ⟨-, hmem⟩ | hval := h.falsified c a b hc ha hbinary hb
    · exact Or.inl hwork
    · cases hmem
    · exact Or.inr (Or.inr hval)

/-- Propagating all literals that are pending. -/
theorem Pending.propagateWork (hs : s.Connected) {work : List Lit} {t : Eliminator}
    (h : Pending s t work [] []) (hwork : ∀ l ∈ work, t.val l = some true)
    (hunsat : (propagateWork work t).unsat = false) :
  Pending s (Eliminator.propagateWork work t) [] [] []
  := by
  induction work, t using propagateWork.induct with
  | case1 t =>
      rw [Eliminator.propagateWork]
      exact h
  | case2 t lit work t' rest heq hunsat' =>
      rw [Eliminator.propagateWork] at hunsat
      simp only [heq, hunsat', if_true] at hunsat
      cases hunsat
  | case3 t lit work t' rest heq hunsat' ih =>
      obtain ⟨hlit, hwork⟩ := List.forall_mem_cons.mp hwork
      obtain ⟨hprop, hrest⟩ := propagateFalsified_spec (t.occs (-lit)) hwork
      rw [Eliminator.propagateWork] at hunsat ⊢
      have hpending := (h.pop hs).propagateFalsified hs (t.occs (-lit))
      simp only [heq, hunsat'] at hprop hrest hpending hunsat ⊢
      have ht' := hprop.val hlit
      have hsat := propagateSatisfied_spec ((hprop.connected (h.connected hs)).mem lit) ht'
      apply ih ((hpending trivial).propagateSatisfied hs ht') _ hunsat
      intro l hl
      exact hsat.val (hrest l hl)

end Eliminator

end Cadical
