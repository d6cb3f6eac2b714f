import IgnoreGates.Kissat.Dense

/-!
# Equivalences and AND gates

Both extractors mark the other literals of the binary clauses with a literal.  An
equivalence consists of two binary clauses of the literal and of its complement whose other
literals are complementary.  An AND gate consists of a large clause with the complement (the
base) and of the binary clauses that refute its unassigned literals.
-/

namespace Kissat

open Logic

namespace Solver

/-! ### Marking binary clauses -/

/-- The loop of `kissat_mark_binaries`: marks the other literals of binary clauses and counts
those that were not marked. -/
def kissatMarkBinaries : List Watch → (Lit → Bool) → Nat × (Lit → Bool)
  | [], marks => (0, marks)
  | .large _ :: ws, marks => kissatMarkBinaries ws marks
  | .binary other :: ws, marks =>
      if marks other then kissatMarkBinaries ws marks
      else
        let (res, marks) := kissatMarkBinaries ws (Function.update marks other true)
        (res + 1, marks)

/-- `kissat_unmark_binaries` -/
def kissatUnmarkBinaries : List Watch → (Lit → Bool) → (Lit → Bool)
  | [], marks => marks
  | .large _ :: ws, marks => kissatUnmarkBinaries ws marks
  | .binary other :: ws, marks => kissatUnmarkBinaries ws (Function.update marks other false)

theorem mark_binaries_apply (ws : List Watch) (marks : Lit → Bool) (l : Lit) :
  (kissatMarkBinaries ws marks).2 l = true ↔ marks l = true ∨ Watch.binary l ∈ ws
  := by
  induction ws generalizing marks with
  | nil => simp [kissatMarkBinaries]
  | cons w ws ih =>
      cases w with
      | large ref => simp [kissatMarkBinaries, ih]
      | binary other =>
          rw [kissatMarkBinaries, List.mem_cons, Watch.binary.injEq]
          split
          · next hmarked =>
              rw [ih]
              constructor
              · rintro (h | h)
                · exact Or.inl h
                · exact Or.inr (Or.inr h)
              · rintro (h | rfl | h)
                · exact Or.inl h
                · exact Or.inl hmarked
                · exact Or.inr h
          · rw [ih, Function.update_apply]
            split
            · next heq => simp [heq]
            · next hne => simp [hne]

theorem unmark_binaries_apply (ws : List Watch) (marks : Lit → Bool) (l : Lit) :
  kissatUnmarkBinaries ws marks l = true ↔ marks l = true ∧ Watch.binary l ∉ ws
  := by
  induction ws generalizing marks with
  | nil => simp [kissatUnmarkBinaries]
  | cons w ws ih =>
      cases w with
      | large ref => simp [kissatUnmarkBinaries, ih]
      | binary other =>
          rw [kissatUnmarkBinaries, ih, Function.update_apply, List.mem_cons,
            Watch.binary.injEq]
          split
          · next heq => simp [heq]
          · next hne => simp [hne]

/-- Unmarking what has been marked leaves no mark. -/
theorem unmark_mark_binaries {marks : Lit → Bool} (hmarks : ∀ l, marks l = false)
    (ws : List Watch) (l : Lit) :
  kissatUnmarkBinaries ws (kissatMarkBinaries ws marks).2 l = false
  := by
  rw [Bool.eq_false_iff]
  intro h
  obtain ⟨hmark, hws⟩ := (unmark_binaries_apply _ _ l).mp h
  obtain hmark | hmem := (mark_binaries_apply _ _ l).mp hmark
  · rw [hmarks] at hmark
    cases hmark
  · exact hws hmem

/-- Where no literal is counted, no literal has been marked. -/
theorem mark_binaries_zero {ws : List Watch} {marks : Lit → Bool}
    (h : (kissatMarkBinaries ws marks).1 = 0) :
  (kissatMarkBinaries ws marks).2 = marks
  := by
  induction ws generalizing marks with
  | nil => rfl
  | cons w ws ih =>
      cases w with
      | large ref => exact ih h
      | binary other =>
          rw [kissatMarkBinaries] at h ⊢
          split at h
          · next hmarked =>
              rw [if_pos hmarked]
              exact ih h
          · cases h

variable (s : Solver)

/-! ### Equivalences -/

/-- The loop of `kissat_find_equivalence_gate` over the watches of `not_lit`: the first binary
clause whose other literal has its complement marked. -/
def findReplace (marks : Lit → Bool) : List Watch → Option Lit
  | [] => none
  | .large _ :: ws => findReplace marks ws
  | .binary other :: ws => if marks (NOT other) then some other else findReplace marks ws

/-- `kissat_find_equivalence_gate` -/
def kissatFindEquivalenceGate (lit : Lit) : Bool × Solver :=
  if !s.options.equivalences then (false, s)
  else
    match kissatMarkBinaries (s.watches lit) s.marks with
    | (0, marks) => (false, { s with marks := marks })
    | (_, marks) =>
        let unmarked := kissatUnmarkBinaries (s.watches lit) marks
        match findReplace marks (s.watches (NOT lit)) with
        | none => (false, { s with marks := unmarked })
        | some replace =>
            (true, { s with
              marks := unmarked
              gates := pushGates (pushGates s.gates true [.binary replace]) false
                [.binary (NOT replace)] })

theorem findReplace_some {marks : Lit → Bool} {ws : List Watch} {replace : Lit}
    (h : findReplace marks ws = some replace) :
  Watch.binary replace ∈ ws ∧ marks (NOT replace) = true
  := by
  induction ws with
  | nil => cases h
  | cons w ws ih =>
      cases w with
      | large ref =>
          obtain ⟨hmem, hmark⟩ := ih h
          exact ⟨List.mem_cons_of_mem _ hmem, hmark⟩
      | binary other =>
          rw [findReplace] at h
          split at h
          · next hmark =>
              cases h
              exact ⟨List.mem_cons_self, hmark⟩
          · obtain ⟨hmem, hmark⟩ := ih h
            exact ⟨List.mem_cons_of_mem _ hmem, hmark⟩

variable {s} in
/-- The two binary clauses of an equivalence cannot both be satisfied apart from its
literal. -/
theorem findEquivalence_gate_extracted (hunmarked : s.Unmarked) (hgates : s.NoGates)
    (lit : Lit) :
  Extracted s lit (s.kissatFindEquivalenceGate lit)
  := by
  rw [kissatFindEquivalenceGate]
  split
  · exact ⟨⟨rfl, rfl, rfl, rfl⟩, rfl, hunmarked, fun _ => rfl, fun h => by cases h⟩
  split
  · next marks hmark =>
      have hzero := mark_binaries_zero (congrArg Prod.fst hmark)
      rw [hmark] at hzero
      refine ⟨⟨rfl, rfl, rfl, rfl⟩, rfl, ?_, fun _ => rfl, fun h => by cases h⟩
      intro l
      exact (congrFun hzero l).trans (hunmarked l)
  · next marked marks hne hmark =>
      have hunmark : ∀ l, kissatUnmarkBinaries (s.watches lit) marks l = false := by
        have h := unmark_mark_binaries hunmarked (s.watches lit)
        rwa [hmark] at h
      dsimp only
      split
      · exact ⟨⟨rfl, rfl, rfl, rfl⟩, rfl, hunmark, fun _ => rfl, fun h => by cases h⟩
      · next replace hreplace =>
          obtain ⟨hneg, hmarks⟩ := findReplace_some hreplace
          have hpos : Watch.binary (NOT replace) ∈ s.watches lit := by
            have h := mark_binaries_apply (s.watches lit) s.marks (NOT replace)
            rw [hmark, hunmarked] at h
            simpa using h.mp hmarks
          refine ⟨⟨rfl, rfl, rfl, rfl⟩, rfl, hunmark, (by simp), ?_⟩
          intro _ _
          have hmem : ∀ negative w, w ∈ pushGates (pushGates s.gates true [.binary replace]) false
                [.binary (NOT replace)] negative
              ↔ negative = true ∧ w = .binary replace
                ∨ negative = false ∧ w = .binary (NOT replace) := by
            intro negative w
            simp [mem_pushGates, hgates negative]
          constructor
          · intro negative w hw
            obtain ⟨rfl, rfl⟩ | ⟨rfl, rfl⟩ := (hmem negative w).mp hw
            · exact hneg
            · exact hpos
          · intro σ _ hsat
            have htrue := satOff_binary (IDX_side lit true)
              (hsat true _ ((hmem _ _).mpr (Or.inl ⟨rfl, rfl⟩)))
            have hfalse := satOff_binary (IDX_side lit false)
              (hsat false _ ((hmem _ _).mpr (Or.inr ⟨rfl, rfl⟩)))
            rw [value_NOT, htrue] at hfalse
            cases hfalse

/-! ### AND gates -/

/-- The loop of `kissat_find_and_gate` over the literals of a candidate: every unassigned
literal apart from `not_lit` must have its complement marked. -/
def baseLiterals (marks : Lit → Bool) (notLit : Lit) : List Lit → Scan Unit
  | [] => .done ()
  | other :: rest =>
      if other = notLit then baseLiterals marks notLit rest
      else
        match s.value other with
        | some true => .satisfied
        | some false => baseLiterals marks notLit rest
        | none => if marks (NOT other) then baseLiterals marks notLit rest else .failed

/-- The loop of `kissat_find_and_gate` over the watches of `not_lit`: the first large clause
whose literals are marked; satisfied clauses are eliminated. -/
def findBase (marks : Lit → Bool) (notLit : Lit) : List Watch → Flags → Option Nat × Flags
  | [], f => (none, f)
  | .binary _ :: ws, f => findBase marks notLit ws f
  | .large ref :: ws, f =>
      match s.baseLiterals marks notLit (s.arena ref) with
      | .satisfied => findBase marks notLit ws (f.eliminateClause ref)
      | .failed => findBase marks notLit ws f
      | .done () => (some ref, f)

/-- The loop over the base clause that unmarks the complements of its unassigned literals. -/
def unmarkBase (notLit : Lit) : List Lit → (Lit → Bool) → (Lit → Bool)
  | [], marks => marks
  | other :: rest, marks =>
      if other = notLit ∨ s.value other ≠ none then unmarkBase notLit rest marks
      else unmarkBase notLit rest (Function.update marks (NOT other) false)

/-- The last loop of `kissat_find_and_gate`: the binary clauses whose other literal is not
marked any more belong to the gate, the other ones are unmarked. -/
def andSide : List Watch → (Lit → Bool) → List Watch × (Lit → Bool)
  | [], marks => ([], marks)
  | .large _ :: ws, marks => andSide ws marks
  | .binary other :: ws, marks =>
      if marks other then andSide ws (Function.update marks other false)
      else
        let (gates, marks) := andSide ws marks
        (.binary other :: gates, marks)

/-- `kissat_find_and_gate` -/
def kissatFindAndGate (lit : Lit) (negative : Bool) : Bool × Solver :=
  if !s.options.ands then (false, s)
  else
    let (marked, marks) := kissatMarkBinaries (s.watches lit) s.marks
    if marked = 0 then (false, { s with marks := marks })
    else if marked < 2 then
      (false, { s with marks := kissatUnmarkBinaries (s.watches lit) marks })
    else
      match s.findBase marks (NOT lit) (s.watches (NOT lit)) s.flags with
      | (none, f) =>
          (false, { s with marks := kissatUnmarkBinaries (s.watches lit) marks, flags := f })
      | (some base, f) =>
          let (gates, marks) :=
            andSide (s.watches lit) (s.unmarkBase (NOT lit) (s.arena base) marks)
          (true, { s with
            flags := f
            marks := marks
            gates := pushGates (pushGates s.gates negative gates) (!negative) [.large base] })

variable {s}

theorem baseLiterals_done {marks : Lit → Bool} {notLit : Lit} {c : List Lit}
    (h : s.baseLiterals marks notLit c = .done ()) :
  ∀ l ∈ c, l = notLit ∨ s.value l = some false
    ∨ (s.value l = none ∧ marks (NOT l) = true)
  := by
  induction c with
  | nil => simp
  | cons other rest ih =>
      rw [baseLiterals] at h
      rw [List.forall_mem_cons]
      split at h
      · next heq => exact ⟨Or.inl heq, ih h⟩
      · split at h
        · cases h
        · next hvalue => exact ⟨Or.inr (Or.inl hvalue), ih h⟩
        · next hvalue =>
            split at h
            · next hmark => exact ⟨Or.inr (Or.inr ⟨hvalue, hmark⟩), ih h⟩
            · cases h

theorem findBase_some {marks : Lit → Bool} {notLit : Lit} {ws : List Watch} {f f' : Flags}
    {base : Nat} (h : s.findBase marks notLit ws f = (some base, f')) :
  Watch.large base ∈ ws ∧ s.baseLiterals marks notLit (s.arena base) = .done ()
  := by
  induction ws generalizing f with
  | nil => cases h
  | cons w ws ih =>
      have hrest : ∀ g, s.findBase marks notLit ws g = (some base, f') →
          Watch.large base ∈ w :: ws ∧ s.baseLiterals marks notLit (s.arena base) = .done () := by
        intro g hg
        obtain ⟨hmem, hdone⟩ := ih hg
        exact ⟨List.mem_cons_of_mem _ hmem, hdone⟩
      cases w with
      | binary other => exact hrest f h
      | large ref =>
          rw [findBase] at h
          split at h
          · exact hrest _ h
          · exact hrest _ h
          · next hdone =>
              cases h
              exact ⟨List.mem_cons_self, hdone⟩

theorem unmarkBase_apply {notLit : Lit} {c : List Lit} {marks : Lit → Bool} {l : Lit} :
  s.unmarkBase notLit c marks l = true
    ↔ marks l = true ∧ ∀ other ∈ c, other ≠ notLit → s.value other = none → l ≠ NOT other
  := by
  induction c generalizing marks with
  | nil => simp [unmarkBase]
  | cons other rest ih =>
      rw [unmarkBase, List.forall_mem_cons]
      split
      · next hskip =>
          rw [ih]
          apply and_congr_right
          intro _
          constructor
          · intro h
            refine ⟨?_, h⟩
            intro hne hvalue
            obtain heq | hassigned := hskip
            · exact absurd heq hne
            · exact absurd hvalue hassigned
          · exact And.right
      · next hskip =>
          rw [not_or, not_not] at hskip
          rw [ih, Function.update_apply]
          split
          · next heq => simp [hskip, heq]
          · next hne => simp [hskip, hne]

/-- The binary clauses whose other literal is not marked are collected. -/
theorem mem_andSide {ws : List Watch} {marks : Lit → Bool} {l : Lit}
    (hws : Watch.binary l ∈ ws) (hmark : marks l = false) :
  Watch.binary l ∈ (andSide ws marks).1
  := by
  induction ws generalizing marks with
  | nil => cases hws
  | cons w ws ih =>
      cases w with
      | large ref =>
          apply ih _ hmark
          simpa using hws
      | binary other =>
          rw [andSide]
          rw [List.mem_cons, Watch.binary.injEq] at hws
          split
          · next hother =>
              apply ih
              · obtain rfl | hws := hws
                · rw [hmark] at hother
                  cases hother
                · exact hws
              · rw [Function.update_apply, hmark, ite_self]
          · apply List.mem_cons.mpr
            obtain rfl | hws := hws
            · exact Or.inl rfl
            · exact Or.inr (ih hws hmark)

theorem andSide_subset {ws : List Watch} {marks : Lit → Bool} :
  ∀ w ∈ (andSide ws marks).1, w ∈ ws
  := by
  induction ws generalizing marks with
  | nil => intro w hw; cases hw
  | cons v ws ih =>
      intro w hw
      cases v with
      | large ref => exact List.mem_cons_of_mem _ (ih w hw)
      | binary other =>
          rw [andSide] at hw
          split at hw
          · exact List.mem_cons_of_mem _ (ih w hw)
          · obtain rfl | hw := List.mem_cons.mp hw
            · exact List.mem_cons_self
            · exact List.mem_cons_of_mem _ (ih w hw)

theorem andSide_marks {ws : List Watch} {marks : Lit → Bool} {l : Lit}
    (h : (andSide ws marks).2 l = true) :
  marks l = true ∧ Watch.binary l ∉ ws
  := by
  induction ws generalizing marks with
  | nil => exact ⟨h, List.not_mem_nil⟩
  | cons w ws ih =>
      rw [List.mem_cons]
      cases w with
      | large ref =>
          obtain ⟨hmark, hws⟩ := ih h
          simp [hmark, hws]
      | binary other =>
          rw [andSide] at h
          rw [Watch.binary.injEq]
          split at h
          · obtain ⟨hmark, hws⟩ := ih h
            rw [Function.update_apply] at hmark
            split at hmark
            · cases hmark
            · next hne => simp [hmark, hws, hne]
          · next hother =>
              obtain ⟨hmark, hws⟩ := ih h
              refine ⟨hmark, ?_⟩
              rintro (rfl | hmem)
              · exact hother hmark
              · exact hws hmem

/-- The unassigned literals of the base clause are refuted by the binary clauses of an AND
gate. -/
theorem findAndGate_extracted (hunmarked : s.Unmarked) (hgates : s.NoGates) (lit : Lit)
    (negative : Bool) :
  Extracted s lit (s.kissatFindAndGate (side lit negative) negative)
  := by
  rw [kissatFindAndGate]
  have hunmark := unmark_mark_binaries hunmarked (s.watches (side lit negative))
  have hmarks := mark_binaries_apply (s.watches (side lit negative)) s.marks
  have hzero := @mark_binaries_zero (s.watches (side lit negative)) s.marks
  generalize kissatMarkBinaries (s.watches (side lit negative)) s.marks = r at *
  obtain ⟨marked, marks⟩ := r
  dsimp only at *
  split
  · exact ⟨⟨rfl, rfl, rfl, rfl⟩, rfl, hunmarked, fun _ => rfl, fun h => by cases h⟩
  split
  · next h =>
      refine ⟨⟨rfl, rfl, rfl, rfl⟩, rfl, ?_, fun _ => rfl, fun h => by cases h⟩
      intro l
      exact (congrFun (hzero h) l).trans (hunmarked l)
  split
  · exact ⟨⟨rfl, rfl, rfl, rfl⟩, rfl, hunmark, fun _ => rfl, fun h => by cases h⟩
  split
  · exact ⟨⟨rfl, rfl, rfl, rfl⟩, rfl, hunmark, fun _ => rfl, fun h => by cases h⟩
  · next base f hbase =>
      obtain ⟨hbase, hdone⟩ := findBase_some hbase
      refine ⟨⟨rfl, rfl, rfl, rfl⟩, rfl, ?_, (by simp), ?_⟩
      · intro l
        rw [Bool.eq_false_iff]
        intro h
        obtain ⟨hl, hws⟩ := andSide_marks h
        obtain hl | hl := (hmarks l).mp (unmarkBase_apply.mp hl).1
        · rw [hunmarked] at hl
          cases hl
        · exact hws hl
      · intro _ _
        have hmem : ∀ b w, w ∈ pushGates (pushGates s.gates negative
              (andSide (s.watches (side lit negative))
                (s.unmarkBase (NOT (side lit negative)) (s.arena base) marks)).1)
              (!negative) [.large base] b
            ↔ b = negative ∧ w ∈ (andSide (s.watches (side lit negative))
                (s.unmarkBase (NOT (side lit negative)) (s.arena base) marks)).1
              ∨ b = (!negative) ∧ w = .large base := by
          intro b w
          simp [mem_pushGates, hgates b]
        constructor
        · intro b w hw
          obtain ⟨rfl, hw⟩ | ⟨rfl, rfl⟩ := (hmem b w).mp hw
          · exact andSide_subset w hw
          · rw [side_not]
            exact hbase
        · intro σ hσ hsat
          obtain ⟨l, hl, hvar, hval⟩ := hsat (!negative) _ ((hmem _ _).mpr (Or.inr ⟨rfl, rfl⟩))
          obtain rfl | hfalse | ⟨hnone, hmark⟩ := baseLiterals_done hdone l hl
          · exact hvar ((IDX_NOT _).trans (IDX_side lit negative))
          · rw [hσ.value_eq hfalse] at hval
            cases hval
          · -- the complement of `l` is no longer marked, so its binary clause is collected
            have hbinary : Watch.binary (NOT l) ∈ s.watches (side lit negative) := by
              obtain h | h := (hmarks (NOT l)).mp hmark
              · rw [hunmarked] at h
                cases h
              · exact h
            have hcollected : s.unmarkBase (NOT (side lit negative)) (s.arena base) marks (NOT l)
                = false := by
              rw [Bool.eq_false_iff]
              intro h
              apply (unmarkBase_apply.mp h).2 l hl _ hnone rfl
              rintro rfl
              exact hvar ((IDX_NOT _).trans (IDX_side lit negative))
            have hrefuted := satOff_binary (IDX_side lit negative)
              (hsat negative _ ((hmem _ _).mpr (Or.inl ⟨rfl, mem_andSide hbinary hcollected⟩)))
            rw [value_NOT, hval] at hrefuted
            cases hrefuted

end Solver

end Kissat
