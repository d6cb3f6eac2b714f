import IgnoreGates.Cadical.BackwardClause

/-!
# Resolution during elimination

Two clauses are resolved on the pivot by marking the unassigned literals of the shorter one and
comparing those of the other one with the marks.  Satisfied antecedents become garbage, empty
resolvents and units are learned at once, and a clause that contains the resolvent is replaced
by its literals other than the pivot.  Only the remaining resolvents are returned.
-/

namespace Cadical

open Logic

namespace Eliminator

variable (s : Eliminator)

/-! ### Adding and replacing clauses -/

/-- `new_resolved_irredundant_clause` -/
def newResolvedIrredundantClause (clause : List Lit) : Eliminator :=
  { s with
    clauses := s.clauses ++ [clause]
    garbage := Function.update s.garbage s.clauses.length false
    gate := Function.update s.gate s.clauses.length false }

/-- `elim_update_added_clause` -/
def elimUpdateAddedClause (c : Nat) : Eliminator :=
  { s with
    occs := fun lit =>
      if lit ∈ s.clause c ∧ s.val lit = none then s.occs lit ++ [c] else s.occs lit }

/-- A resolvent is added and connected. -/
def addResolvent (clause : List Lit) : Eliminator :=
  (s.newResolvedIrredundantClause clause).elimUpdateAddedClause s.clauses.length

/-- `elim_on_the_fly_self_subsumption` -/
def elimOnTheFlySelfSubsumption (c : Nat) (pivot : Lit) : Eliminator :=
  (s.addResolvent ((s.clause c).filter (fun lit => lit ≠ pivot ∧ s.val lit ≠ some false))).markGarbage
    c

/-! ### Resolving two clauses -/

/-- The loop of `resolve_clauses` over the first antecedent: the number of its literals that are
not false and the resolvent so far, unless the antecedent is satisfied. -/
def firstLoop (pivot : Lit) : List Lit → Eliminator → Nat → List Lit →
    Option (Nat × List Lit) × Eliminator
  | [], s, size, clause => (some (size, clause), s)
  | lit :: rest, s, size, clause =>
      if lit = pivot then firstLoop pivot rest s (size + 1) clause
      else
        match s.val lit with
        | some true => (none, s)
        | some false => firstLoop pivot rest s size clause
        | none => firstLoop pivot rest (s.mark lit) (size + 1) (clause ++ [lit])

/-- What the literals of the second antecedent amount to. -/
inductive Second where
  | satisfied
  | tautological
  | literals (size : Nat) (clause : List Lit)

/-- The loop of `resolve_clauses` over the second antecedent. -/
def secondLoop (pivot : Lit) : List Lit → Nat → List Lit → Second
  | [], size, clause => .literals size clause
  | lit :: rest, size, clause =>
      if lit = -pivot then secondLoop pivot rest (size + 1) clause
      else
        match s.val lit with
        | some true => .satisfied
        | some false => secondLoop pivot rest size clause
        | none =>
            if s.marked lit < 0 then .tautological
            else if s.marked lit = 0 then secondLoop pivot rest (size + 1) (clause ++ [lit])
            else secondLoop pivot rest (size + 1) clause

/-- The part of `resolve_clauses` behind the loops, where the antecedents have `sizec` and
`sized` literals that are not false. -/
def resolveLiterals (c : Nat) (pivot : Lit) (d : Nat) (propagateEagerly : Bool)
    (sizec sized : Nat) : List Lit → Option (List Lit) × Eliminator
  | [] => (none, s.learnEmptyClause)
  | [unit] =>
      (none, if propagateEagerly then (s.assignUnit unit).elimPropagate unit
        else s.assignUnit unit)
  | clause =>
      let size := clause.length
      if sizec > size ∧ sized > size then
        (none, (s.elimOnTheFlySelfSubsumption c pivot).markGarbage d)
      else if sizec > size then (none, s.elimOnTheFlySelfSubsumption c pivot)
      else if sized > size then (none, s.elimOnTheFlySelfSubsumption d (-pivot))
      else (some clause, s)

/-- `resolve_clauses` for antecedents of which the first one is not longer. -/
def resolveOrdered (c : Nat) (pivot : Lit) (d : Nat) (propagateEagerly : Bool) :
    Option (List Lit) × Eliminator :=
  match firstLoop pivot (s.clause c) s 0 [] with
  | (none, s) => (none, (s.markGarbage c).unmarkClause c)
  | (some (sizec, clause), s) =>
      match s.secondLoop pivot (s.clause d) 0 clause with
      | .satisfied => (none, (s.unmarkClause c).markGarbage d)
      | .tautological => (none, s.unmarkClause c)
      | .literals sized clause =>
          (s.unmarkClause c).resolveLiterals c pivot d propagateEagerly sizec sized clause

/-- `resolve_clauses`: the resolvent if it is not redundant. -/
def resolveClauses (c : Nat) (pivot : Lit) (d : Nat) (propagateEagerly : Bool) :
    Option (List Lit) × Eliminator :=
  if s.garbage c || s.garbage d then (none, s)
  else if (s.clause c).length > (s.clause d).length then
    s.resolveOrdered d (-pivot) c propagateEagerly
  else s.resolveOrdered c pivot d propagateEagerly

/-! ### The literals of the antecedents -/

/-- The unassigned literals other than the pivot. -/
def antecedent (pivot : Lit) (lits : List Lit) : List Lit :=
  lits.filter (fun l => l ≠ pivot ∧ s.val l = none)

/-- The marked literals. -/
def Signs (lits : List Lit) : Prop :=
  ∀ l, 0 < s.marked l ↔ l ∈ lits

variable {s}

theorem mem_antecedent {pivot l : Lit} {lits : List Lit} :
  l ∈ s.antecedent pivot lits ↔ l ∈ lits ∧ l ≠ pivot ∧ s.val l = none
  := by
  rw [antecedent, List.mem_filter, decide_eq_true_iff]

theorem antecedent_cons (pivot lit : Lit) (lits : List Lit) :
  s.antecedent pivot (lit :: lits)
    = if lit ≠ pivot ∧ s.val lit = none then lit :: s.antecedent pivot lits
      else s.antecedent pivot lits
  := by
  rw [antecedent, List.filter_cons, antecedent]
  simp only [decide_eq_true_eq]

theorem Signs.neg_iff {lits : List Lit} (h : s.Signs lits) (l : Lit) :
  s.marked l < 0 ↔ -l ∈ lits
  := by
  rw [← h, marked_neg]
  omega

theorem Signs.mark {lits : List Lit} (h : s.Signs lits) {lit : Lit}
    (hlit : lit.vidx ∉ lits.map Lit.vidx) :
  (s.mark lit).Signs (lits ++ [lit])
  := by
  intro l
  rw [List.mem_append, List.mem_singleton]
  by_cases hvar : l.vidx = lit.vidx
  · have hnot : l ∉ lits := by
      intro hl
      apply hlit
      rw [← hvar]
      exact List.mem_map_of_mem hl
    obtain rfl | rfl := Lit.eq_or_eq_neg hvar
    · simp [marked_mark_self]
    · rw [marked_neg, marked_mark_self]
      simp [hnot, Lit.neg_ne]
  · rw [marked_mark_of_ne hvar, h]
    constructor
    · exact Or.inl
    · rintro (hl | rfl)
      · exact hl
      · exact absurd rfl hvar

/-- The first loop collects and marks the literals, unless one of them is true. -/
theorem firstLoop_spec {pivot : Lit} {lits clause : List Lit} {s : Eliminator} {size : Nat}
    (hnodup : (lits.map Lit.vidx).Nodup) (hdisj : ∀ l ∈ lits, l.vidx ∉ clause.map Lit.vidx)
    (hsigns : s.Signs clause) {r : Option (Nat × List Lit)} {t : Eliminator}
    (h : firstLoop pivot lits s size clause = (r, t)) :
  (∃ marks, t = { s with marks := marks } ∧ ∀ v, v ∉ lits.map Lit.vidx → marks v = s.marks v)
    ∧ (r = none → s.Satisfied lits)
    ∧ ∀ n k, r = some (n, k) → k = clause ++ s.antecedent pivot lits ∧ t.Signs k
      ∧ n = size + (s.antecedent pivot lits).length + lits.count pivot
      ∧ ∀ l ∈ lits, l ≠ pivot → s.val l ≠ some true
  := by
  induction lits generalizing s size clause with
  | nil =>
      cases h
      refine ⟨⟨_, rfl, fun _ _ => rfl⟩, nofun, ?_⟩
      rintro n k ⟨⟩
      simp [antecedent, hsigns]
  | cons lit rest ih =>
      obtain ⟨hlit, hnodup⟩ := List.nodup_cons.mp hnodup
      obtain ⟨hnot, hdisj⟩ := List.forall_mem_cons.mp hdisj
      have hsub : ∀ v, v ∉ (lit :: rest).map Lit.vidx → v ∉ rest.map Lit.vidx :=
        fun v hv hmem => hv (List.mem_cons_of_mem _ hmem)
      have hsat : s.Satisfied rest → s.Satisfied (lit :: rest) := by
        rintro ⟨l, hl, htrue⟩
        exact ⟨l, List.mem_cons_of_mem _ hl, htrue⟩
      rw [firstLoop] at h
      rw [antecedent_cons, List.count_cons]
      split at h
      · next heq =>
          obtain ⟨⟨marks, ht, hmarks⟩, hnone, hsome⟩ := ih hnodup hdisj hsigns h
          refine ⟨⟨marks, ht, fun v hv => hmarks v (hsub v hv)⟩, fun hr => hsat (hnone hr), ?_⟩
          intro n k hr
          obtain ⟨hk, hsigns, hn, hrest⟩ := hsome n k hr
          rw [if_neg (by simp [heq])]
          refine ⟨hk, hsigns, ?_, ?_⟩
          · rw [hn, if_pos (by simp [heq])]
            omega
          · rw [List.forall_mem_cons]
            exact ⟨fun hne => absurd heq hne, hrest⟩
      · next hne =>
          have hcount : (if lit == pivot then 1 else 0) = 0 := if_neg (by simp [hne])
          split at h
          · next htrue =>
              cases h
              exact ⟨⟨_, rfl, fun _ _ => rfl⟩, fun _ => ⟨lit, List.mem_cons_self, htrue⟩,
                nofun⟩
          · next hfalse =>
              obtain ⟨⟨marks, ht, hmarks⟩, hnone, hsome⟩ := ih hnodup hdisj hsigns h
              refine ⟨⟨marks, ht, fun v hv => hmarks v (hsub v hv)⟩, fun hr => hsat (hnone hr), ?_⟩
              intro n k hr
              obtain ⟨hk, hsigns, hn, hrest⟩ := hsome n k hr
              rw [if_neg (by simp [hfalse]), hcount]
              refine ⟨hk, hsigns, hn, ?_⟩
              rw [List.forall_mem_cons]
              exact ⟨fun _ => by simp [hfalse], hrest⟩
          · next hval =>
              have hdisj' : ∀ l ∈ rest, l.vidx ∉ (clause ++ [lit]).map Lit.vidx := by
                intro l hl
                rw [List.map_append, List.mem_append, not_or]
                refine ⟨hdisj l hl, ?_⟩
                rw [List.map_singleton, List.mem_singleton]
                intro hvar
                apply hlit
                rw [← hvar]
                exact List.mem_map_of_mem hl
              obtain ⟨⟨marks, ht, hmarks⟩, hnone, hsome⟩ := ih hnodup hdisj' (hsigns.mark hnot) h
              refine ⟨⟨marks, ht, ?_⟩, fun hr => hsat (hnone hr), ?_⟩
              · intro v hv
                rw [hmarks v (hsub v hv)]
                apply Function.update_of_ne
                rintro rfl
                exact hv List.mem_cons_self
              · intro n k hr
                obtain ⟨hk, hsigns, hn, hrest⟩ := hsome n k hr
                rw [if_pos ⟨hne, hval⟩, hcount]
                refine ⟨?_, hsigns, ?_, ?_⟩
                · rw [hk, List.append_assoc, List.singleton_append]
                  rfl
                · rw [hn, List.length_cons]
                  change size + 1 + (s.antecedent pivot rest).length + _ = _
                  omega
                · rw [List.forall_mem_cons]
                  exact ⟨fun _ => by simp [hval], hrest⟩

variable (s) in
/-- What the second loop says of the literals of the second antecedent. -/
def SecondSpec (pivot : Lit) (marked lits clause : List Lit) (size : Nat) : Second → Prop
  | .satisfied => s.Satisfied lits
  | .tautological => ∃ l ∈ s.antecedent (-pivot) lits, -l ∈ marked
  | .literals n k =>
      k = clause ++ (s.antecedent (-pivot) lits).filter (fun l => l ∉ marked)
        ∧ n = size + (s.antecedent (-pivot) lits).length + lits.count (-pivot)
        ∧ (∀ l ∈ lits, l ≠ -pivot → s.val l ≠ some true)
        ∧ ∀ l ∈ s.antecedent (-pivot) lits, -l ∉ marked

/-- A literal that is skipped. -/
theorem SecondSpec.skip {pivot lit : Lit} {marked rest clause : List Lit} {size : Nat} {r : Second}
    (hval : s.val lit ≠ some true) (hne : lit ≠ -pivot) (hnone : s.val lit ≠ none)
    (h : s.SecondSpec pivot marked rest clause size r) :
  s.SecondSpec pivot marked (lit :: rest) clause size r
  := by
  have hant : s.antecedent (-pivot) (lit :: rest) = s.antecedent (-pivot) rest := by
    rw [antecedent_cons, if_neg (fun hand => hnone hand.2)]
  have hcount : (lit :: rest).count (-pivot) = rest.count (-pivot) := by
    rw [List.count_cons, if_neg (by simpa using hne), Nat.add_zero]
  cases r with
  | satisfied =>
      obtain ⟨l, hl, htrue⟩ := h
      exact ⟨l, List.mem_cons_of_mem _ hl, htrue⟩
  | tautological =>
      rw [SecondSpec, hant]
      exact h
  | literals n k =>
      obtain ⟨hk, hn, htrue, hneg⟩ := h
      rw [SecondSpec, hant, hcount, List.forall_mem_cons]
      exact ⟨hk, hn, ⟨fun _ => hval, htrue⟩, hneg⟩

/-- The complement of the pivot. -/
theorem SecondSpec.pivot {pivot : Lit} {marked rest clause : List Lit} {size : Nat} {r : Second}
    (h : s.SecondSpec pivot marked rest clause (size + 1) r) :
  s.SecondSpec pivot marked (-pivot :: rest) clause size r
  := by
  have hant : s.antecedent (-pivot) (-pivot :: rest) = s.antecedent (-pivot) rest := by
    rw [antecedent_cons, if_neg (fun hand => hand.1 rfl)]
  cases r with
  | satisfied =>
      obtain ⟨l, hl, htrue⟩ := h
      exact ⟨l, List.mem_cons_of_mem _ hl, htrue⟩
  | tautological =>
      rw [SecondSpec, hant]
      exact h
  | literals n k =>
      obtain ⟨hk, hn, htrue, hneg⟩ := h
      rw [SecondSpec, hant, List.count_cons_self, List.forall_mem_cons]
      refine ⟨hk, ?_, ⟨fun hne => absurd rfl hne, htrue⟩, hneg⟩
      rw [hn]
      omega

/-- An unassigned literal whose complement is not marked is added unless it is marked. -/
theorem SecondSpec.add {pivot lit : Lit} {marked rest clause : List Lit} {size : Nat} {r : Second}
    (hne : lit ≠ -pivot) (hnone : s.val lit = none) (hneg : -lit ∉ marked)
    (h : s.SecondSpec pivot marked rest (if lit ∈ marked then clause else clause ++ [lit])
      (size + 1) r) :
  s.SecondSpec pivot marked (lit :: rest) clause size r
  := by
  have hant : s.antecedent (-pivot) (lit :: rest) = lit :: s.antecedent (-pivot) rest := by
    rw [antecedent_cons, if_pos ⟨hne, hnone⟩]
  cases r with
  | satisfied =>
      obtain ⟨l, hl, htrue⟩ := h
      exact ⟨l, List.mem_cons_of_mem _ hl, htrue⟩
  | tautological =>
      obtain ⟨l, hl, hmem⟩ := h
      rw [SecondSpec, hant]
      exact ⟨l, List.mem_cons_of_mem _ hl, hmem⟩
  | literals n k =>
      obtain ⟨hk, hn, htrue, hrest⟩ := h
      rw [SecondSpec, hant, List.count_cons, if_neg (by simpa using hne), List.forall_mem_cons,
        List.forall_mem_cons, List.filter_cons, List.length_cons]
      refine ⟨?_, ?_, ⟨fun _ => by simp [hnone], htrue⟩, hneg, hrest⟩
      · rw [hk]
        by_cases hmem : lit ∈ marked
        · simp [hmem]
        · simp [hmem]
      · rw [hn]
        omega

/-- The second loop stops at a true literal or at the complement of a marked one, or adds the
other literals. -/
theorem secondLoop_spec {pivot : Lit} {marked : List Lit} (hsigns : s.Signs marked)
    (lits clause : List Lit) (size : Nat) :
  s.SecondSpec pivot marked lits clause size (s.secondLoop pivot lits size clause)
  := by
  induction lits generalizing clause size with
  | nil => simp [secondLoop, SecondSpec, antecedent]
  | cons lit rest ih =>
      rw [secondLoop]
      split
      · next heq =>
          rw [heq]
          exact (ih clause (size + 1)).pivot
      · next hne =>
          split
          · next htrue => exact ⟨lit, List.mem_cons_self, htrue⟩
          · next hfalse => exact (ih clause size).skip (by simp [hfalse]) hne (by simp [hfalse])
          · next hnone =>
              split
              · next hneg =>
                  refine ⟨lit, ?_, (hsigns.neg_iff lit).mp hneg⟩
                  exact mem_antecedent.mpr ⟨List.mem_cons_self, hne, hnone⟩
              · next hneg =>
                  have hneg : -lit ∉ marked := mt (hsigns.neg_iff lit).mpr hneg
                  have hzero : s.marked lit = 0 ↔ lit ∉ marked := by
                    rw [← hsigns]
                    omega
                  apply SecondSpec.add hne hnone hneg
                  by_cases hmem : lit ∈ marked
                  · rw [if_neg (fun h => hzero.mp h hmem), if_pos hmem]
                    exact ih _ _
                  · rw [if_pos (hzero.mpr hmem), if_neg hmem]
                    exact ih _ _

end Eliminator

end Cadical
