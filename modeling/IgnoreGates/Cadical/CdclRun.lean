import IgnoreGates.Cadical.CdclStep
import IgnoreGates.Cadical.Decide

/-!
# Runs of the search loop

Original clauses are added, and the search loop propagates, analyzes, decides, goes back and
marks clauses as garbage.  Whatever the order of these steps, propagation and analysis end,
an answer that the formula is unsatisfiable is right, and when all variables are assigned and
propagated the trail satisfies the original clauses.
-/

namespace Cadical

open Logic

namespace Cdcl

variable {s : Cdcl} {o : Options} {e : External} {F : Set (Clause Lit)}

/-! ### Original clauses -/

/-- The literals of the clause that stay are unassigned, and the others are false. -/
theorem originalLiterals_some {marked original clause : List Lit}
    (h : s.originalLiterals marked original = some clause) :
  clause.Nodup ∧ (∀ k ∈ clause, k ∈ original ∧ k ∉ marked ∧ s.val k = 0)
    ∧ ∀ k ∈ original, k ∈ clause ∨ k ∈ marked ∨ -k ∈ s.trail
  := by
  induction original generalizing marked clause with
  | nil =>
      cases h
      exact ⟨List.nodup_nil, nofun, nofun⟩
  | cons lit original ih =>
      rw [originalLiterals] at h
      split at h
      · next hmarked =>
          obtain ⟨hnodup, hspec, hall⟩ := ih h
          refine ⟨hnodup, fun k hk => ⟨List.mem_cons_of_mem lit (hspec k hk).1, (hspec k hk).2⟩, ?_⟩
          intro k hk
          obtain rfl | hk := List.mem_cons.mp hk
          · exact Or.inr (Or.inl hmarked)
          · exact hall k hk
      · next hmarked =>
          split at h
          · cases h
          · split at h
            · next hneg =>
                obtain ⟨hnodup, hspec, hall⟩ := ih h
                refine ⟨hnodup, fun k hk => ⟨List.mem_cons_of_mem lit (hspec k hk).1,
                  fun hkm => (hspec k hk).2.1 (List.mem_cons_of_mem lit hkm), (hspec k hk).2.2⟩, ?_⟩
                intro k hk
                obtain rfl | hk := List.mem_cons.mp hk
                · exact Or.inr (Or.inr ((s.val_neg_iff k).mp hneg).2)
                · obtain hk | hk | hk := hall k hk
                  · exact Or.inl hk
                  · obtain rfl | hk := List.mem_cons.mp hk
                    · exact Or.inr (Or.inr ((s.val_neg_iff k).mp hneg).2)
                    · exact Or.inr (Or.inl hk)
                  · exact Or.inr (Or.inr hk)
            · next hneg =>
                split at h
                · cases h
                · next hpos =>
                    obtain ⟨clause, hclause, rfl⟩ := Option.map_eq_some_iff.mp h
                    obtain ⟨hnodup, hspec, hall⟩ := ih hclause
                    have hlit : lit ∉ clause := fun hmem =>
                      (hspec lit hmem).2.1 List.mem_cons_self
                    refine ⟨List.nodup_cons.mpr ⟨hlit, hnodup⟩, ?_, ?_⟩
                    · intro k hk
                      obtain rfl | hk := List.mem_cons.mp hk
                      · exact ⟨List.mem_cons_self, hmarked, by omega⟩
                      · obtain ⟨hmem, hnot, hval⟩ := hspec k hk
                        exact ⟨List.mem_cons_of_mem lit hmem,
                          fun hkm => hnot (List.mem_cons_of_mem lit hkm), hval⟩
                    · intro k hk
                      obtain rfl | hk := List.mem_cons.mp hk
                      · exact Or.inl List.mem_cons_self
                      · obtain hk | hk | hk := hall k hk
                        · exact Or.inl (List.mem_cons_of_mem lit hk)
                        · obtain rfl | hk := List.mem_cons.mp hk
                          · exact Or.inl List.mem_cons_self
                          · exact Or.inr (Or.inl hk)
                        · exact Or.inr (Or.inr hk)

/-- A clause that is skipped is tautological or has a true literal. -/
theorem originalLiterals_none {marked original : List Lit}
    (h : s.originalLiterals marked original = none) :
  (∃ k ∈ original, -k ∈ marked ∨ -k ∈ original) ∨ ∃ k ∈ original, k ∈ s.trail
  := by
  induction original generalizing marked with
  | nil => cases h
  | cons lit original ih =>
      have hup {marked : List Lit} (hor : (∃ k ∈ original, -k ∈ marked ∨ -k ∈ original)
          ∨ ∃ k ∈ original, k ∈ s.trail) :
          (∃ k ∈ lit :: original, -k ∈ marked ∨ -k ∈ lit :: original)
            ∨ ∃ k ∈ lit :: original, k ∈ s.trail := by
        obtain ⟨k, hk, hneg⟩ | ⟨k, hk, hmem⟩ := hor
        · exact Or.inl ⟨k, List.mem_cons_of_mem lit hk, hneg.imp_right (List.mem_cons_of_mem lit)⟩
        · exact Or.inr ⟨k, List.mem_cons_of_mem lit hk, hmem⟩
      have hcons (hor : (∃ k ∈ original, -k ∈ lit :: marked ∨ -k ∈ original)
          ∨ ∃ k ∈ original, k ∈ s.trail) :
          (∃ k ∈ lit :: original, -k ∈ marked ∨ -k ∈ lit :: original)
            ∨ ∃ k ∈ lit :: original, k ∈ s.trail := by
        obtain ⟨k, hk, hneg⟩ | ⟨k, hk, hmem⟩ := hor
        · left
          refine ⟨k, List.mem_cons_of_mem lit hk, ?_⟩
          obtain hneg | hneg := hneg
          · obtain heq | hneg := List.mem_cons.mp hneg
            · exact Or.inr (heq ▸ List.mem_cons_self)
            · exact Or.inl hneg
          · exact Or.inr (List.mem_cons_of_mem lit hneg)
        · exact Or.inr ⟨k, List.mem_cons_of_mem lit hk, hmem⟩
      rw [originalLiterals] at h
      split at h
      · exact hup (ih h)
      · split at h
        · next hneg => exact Or.inl ⟨lit, List.mem_cons_self, Or.inl hneg⟩
        · split at h
          · exact hcons (ih h)
          · split at h
            · next hpos =>
                exact Or.inr ⟨lit, List.mem_cons_self, (s.val_pos_iff lit).mp hpos⟩
            · exact hcons (ih (Option.map_eq_none_iff.mp h))

/-! ### The invariant of a run -/

/-- What holds for the formula `F` in every state of a run.  Everything that has been derived is in
each set that contains `F` and is closed under reverse unit propagation. -/
structure Ok (s : Cdcl) (e : External) (o : Options) (F : Set (Clause Lit)) : Prop where
  inv : s.Inv o.chrono
  aux : s.AuxReasons e
  holds : ∀ P, RupClosed P → F ⊆ P → s.Holds P
  covers : s.unsat = false → s.Covers F
  conflict : s.unsat = false → s.conflict = none
  level : s.unsat = true → s.level = 0

/-- A step that keeps what has been derived keeps the whole invariant. -/
theorem Ok.keeps {t : Cdcl} (h : s.Ok e o F) (hk : s.Keeps t) (hinv : t.Inv o.chrono)
    (hunsat : s.unsat = false)
    (hstop : t.unsat = s.unsat ∧ t.conflict = none ∨ t.unsat = true ∧ t.level = 0) :
  t.Ok e o F
  := by
  refine ⟨hinv, h.aux.keeps hk, fun P hP hF => hk.holds P hP (h.holds P hP hF),
    fun _ => hk.covers F (h.covers hunsat), ?_, ?_⟩
  · intro ht
    obtain ⟨-, hconflict⟩ | ⟨htrue, -⟩ := hstop
    · exact hconflict
    · rw [ht] at htrue
      cases htrue
  · intro ht
    obtain ⟨heq, -⟩ | ⟨-, hlevel⟩ := hstop
    · rw [heq, hunsat] at ht
      cases ht
    · exact hlevel

/-- Propagation and analysis come to their ends. -/
theorem Ok.propagateAndAnalyze (h : s.Ok e o F) (hunsat : s.unsat = false)
    (heuristics : Heuristics) :
  ∃ t, s.propagateAndAnalyze e o heuristics = some t ∧ t.Ok e o F ∧ s.Keeps t
  := by
  obtain ⟨s', hpropagate, hextends, hinv, -⟩ := h.inv.propagate
  have hkeeps := hextends.keeps
  rw [Cdcl.propagateAndAnalyze, hpropagate]
  simp only
  cases hconflict : s'.conflict with
  | none =>
      rw [if_neg (by simp)]
      exact ⟨s', rfl, h.keeps hkeeps hinv hunsat (Or.inl ⟨hextends.unsat, hconflict⟩), hkeeps⟩
  | some c =>
      rw [if_pos (by simp)]
      obtain ⟨t, ht, hanalyzes⟩ := hinv.analyze hconflict (h.aux.keeps hkeeps) heuristics
      have hall := hkeeps.trans (hanalyzes.keeps hconflict)
      refine ⟨t, ht, h.keeps hall hanalyzes.inv hunsat ?_, hall⟩
      have hstop := hanalyzes.unsat
      rwa [hextends.unsat] at hstop

/-- Going back keeps the invariant. -/
theorem Ok.backtrack {n : Nat} (h : s.Ok e o F) (hunsat : s.unsat = false) (hn : n ≤ s.level) :
  (s.backtrack n).Ok e o F
  := by
  obtain ⟨-, -, -, -, hconf, heq⟩ := s.backtrack_frame n
  have hconflict := h.conflict hunsat
  exact h.keeps (keeps_backtrack h.inv.trail hn) (h.inv.backtrack hconflict hn) hunsat
    (Or.inl ⟨heq, hconf.trans hconflict⟩)

/-- A new level on which nothing is assigned keeps the invariant. -/
theorem Ok.newLevel (h : s.Ok e o F) (hunsat : s.unsat = false)
    (hall : s.propagated = s.trail.length) :
  s.newLevel.Ok e o F
  := by
  refine ⟨h.inv.newLevel (h.conflict hunsat) hall, h.aux, ?_, h.covers, h.conflict, ?_⟩
  · intro P hP hF
    exact ⟨(h.holds P hP hF).clauses, (h.holds P hP hF).root, (h.holds P hP hF).unsat⟩
  · intro htrue
    have heq : s.unsat = true := htrue
    rw [hunsat] at heq
    cases heq

/-- Only a decision above root level has no reason. -/
theorem AuxReasons.searchAssign (h : s.AuxReasons e) (chrono : Nat) {x : Lit} (hx : s.val x = 0)
    (edge : Edge) (hdecision : edge = .decision → e.isAux x = false) :
  (s.searchAssign chrono x edge).AuxReasons e
  := by
  intro y hy haux hpos
  obtain hy | hy := List.mem_append.mp hy
  · rw [searchAssign_var_of_mem hx edge hy] at hpos ⊢
    exact h y hy haux hpos
  · obtain rfl := List.mem_singleton.mp hy
    rw [searchAssign_var_self] at hpos ⊢
    cases edge with
    | unit => exact absurd hpos (Nat.lt_irrefl 0)
    | decision =>
        rw [hdecision rfl] at haux
        cases haux
    | clause c =>
        simp only [litReason]
        rw [if_neg (Nat.ne_of_gt hpos)]
        exact Option.some_ne_none c

/-- A new clause does not change which auxiliary literals have reasons. -/
theorem AuxReasons.adds {t : Cdcl} {red : Bool} {l : List Lit} (h : s.AuxReasons e)
    (ha : s.Adds t red l) :
  t.AuxReasons e
  := by
  intro x hx
  rw [ha.trail] at hx
  rw [ha.var]
  exact h x hx

/-- A decision is assigned on a new level. -/
theorem Inv.assignable_decision {chrono : Nat} (h : s.Inv chrono) {lit : Lit}
    (hval : s.val lit = 0) (hvar : lit.vidx ≤ s.maxVar) :
  s.newLevel.Assignable chrono lit .decision
  := by
  refine ⟨hval, hvar, nofun, ?_, fun _ => rfl⟩
  intro _ y hy
  have hle : (s.var y).level ≤ s.level := h.trail.search.level_le y hy
  exact Nat.ne_of_lt (Nat.lt_succ_of_le hle)

/-- A decision on a variable that is not auxiliary keeps the invariant. -/
theorem Ok.searchAssumeDecision (h : s.Ok e o F) (hunsat : s.unsat = false)
    (hall : s.propagated = s.trail.length) {lit : Lit} (hval : s.val lit = 0)
    (hvar : lit.vidx ≤ s.maxVar) (haux : e.isAux lit = false) :
  (s.searchAssumeDecision o.chrono lit).Ok e o F
  := by
  have hnew := h.newLevel hunsat hall
  have ha := h.inv.assignable_decision hval hvar
  have hlevel : (s.searchAssumeDecision o.chrono lit).unsat = false := hunsat
  refine ⟨hnew.inv.searchAssign (h.conflict hunsat) ha,
    hnew.aux.searchAssign o.chrono ha.val .decision (fun _ => haux), ?_,
    fun _ => (hnew.covers hunsat).searchAssign o.chrono ha.val .decision,
    fun _ => h.conflict hunsat, ?_⟩
  · intro P hP hF
    exact (hnew.holds P hP hF).searchAssign hP hnew.inv.trail ha
      (fun hzero => absurd hzero (Nat.succ_ne_zero s.level))
  · intro htrue
    rw [hlevel] at htrue
    cases htrue

/-- Marking a useless clause as garbage keeps the invariant. -/
theorem Ok.markGarbage (h : s.Ok e o F) (hunsat : s.unsat = false) {c : Nat}
    (hc : s.Useless c) :
  (s.markGarbage c).Ok e o F
  := by
  have hmarks := marks_markGarbage hc
  exact h.keeps hmarks.keeps (h.inv.marks hmarks) hunsat (Or.inl ⟨rfl, h.conflict hunsat⟩)

/-- New variables are initialized, and original clauses added, on root level. -/
theorem Ok.backtrack_zero (h : s.Ok e o F) :
  (s.backtrack 0).Ok e o F
  := by
  cases hunsat : s.unsat with
  | false => exact h.backtrack hunsat (Nat.zero_le _)
  | true =>
      rw [← h.level hunsat, backtrack_self]
      exact h

/-- More variables keep the invariant. -/
theorem Ok.initVars (h : s.Ok e o F) (newMaxVar : Nat) :
  (s.initVars newMaxVar).Ok e o F
  := by
  rw [Cdcl.initVars]
  split
  · exact h
  · next hlt =>
      have hle : (s.backtrack 0).maxVar ≤ newMaxVar := by
        rw [(s.backtrack_frame 0).1]
        exact (Nat.not_le.mp hlt).le
      have hroot := h.backtrack_zero
      generalize s.backtrack 0 = t at hle hroot
      have hinv := hroot.inv
      refine ⟨⟨⟨hinv.clauses.length, hinv.clauses.nodup, hinv.clauses.pos, ?_⟩,
        ⟨hinv.trail.search, fun x hx => (hinv.trail.vidx_le x hx).trans hle, hinv.trail.reason,
          hinv.trail.control, hinv.trail.start_mono, hinv.trail.start_le,
          hinv.trail.propagated_le, hinv.trail.level_le, hinv.trail.le_level⟩,
        hinv.watches.congr rfl rfl, hinv.levels, hinv.settled, ?_⟩, hroot.aux, ?_, hroot.covers,
        hroot.conflict, hroot.level⟩
      · intro c hc k hk
        exact (hinv.clauses.vidx_le c hc k hk).trans hle
      · intro c hc
        exact ⟨(hinv.conflict c hc).lt, (hinv.conflict c hc).false_, (hinv.conflict c hc).level⟩
      · intro P hP hF
        exact ⟨(hroot.holds P hP hF).clauses, (hroot.holds P hP hF).root,
          (hroot.holds P hP hF).unsat⟩

/-! ### Adding a clause -/

/-- The literals on the trail have been derived on root level. -/
theorem Ok.root_mem (h : s.Ok e o F) (hlevel : s.level = 0) {P : Set (Clause Lit)}
    (hP : RupClosed P) (hF : F ⊆ P) {x : Lit} (hx : x ∈ s.trail) :
  [x] ∈ P
  := by
  apply (h.holds P hP hF).root x hx
  have hle : (s.var x).level ≤ s.level := h.inv.trail.search.level_le x hx
  omega

/-- In a model of the original clauses everything that has been derived is true. -/
theorem Ok.holds_satisfiedBy (h : s.Ok e o F) {σ : Assignment Nat} (hσ : Models σ F) :
  s.Holds (satisfiedBy σ)
  := h.holds _ (rupClosed_satisfiedBy σ) hσ

theorem models_insert {σ : Assignment Nat} {c : Clause Lit} :
  Models σ (insert c F) ↔ Clause.Sat σ c ∧ Models σ F
  := Set.forall_mem_insert

/-- A new clause of unassigned literals is settled. -/
theorem Inv.added {chrono : Nat} {t : Cdcl} {red : Bool} {l : List Lit} (h : s.Inv chrono)
    (hconflict : s.conflict = none) (ha : s.Added t chrono red l) (hl : ∀ k ∈ l, s.val k = 0) :
  t.Inv chrono
  := by
  have hself (n : Nat) (ok : Lit → Prop) : t.SettledAt s.numClauses n ok := by
    intro _ k hk hneg
    rw [Cdcl.watched, ha.adds.lits, if_pos rfl] at hk
    rw [ha.adds.trail] at hneg
    exact absurd (List.mem_of_mem_take hneg)
      ((s.val_eq_zero_iff k).mp (hl k (List.mem_of_mem_take hk))).2
  have hstart : t.start = s.start := by
    funext l
    rw [start, start, ha.adds.control]
  refine ⟨ha.clauses, ha.trail, ha.watches, ?_, ?_, ?_⟩
  · intro l hl c hc
    by_cases hne : c = s.numClauses
    · rw [hne]
      exact hself _ _
    · rw [ha.adds.numClauses] at hc
      rw [ha.adds.level] at hl
      simp only [hstart, ha.adds.var]
      have hlt := Nat.lt_of_le_of_ne (Nat.le_of_lt_succ hc) hne
      exact ha.settledAt c hlt _ _ (h.levels l hl c hlt)
  · intro _ c hc
    by_cases hne : c = s.numClauses
    · rw [hne]
      exact hself _ _
    · rw [ha.adds.numClauses] at hc
      rw [ha.adds.propagated]
      have hlt := Nat.lt_of_le_of_ne (Nat.le_of_lt_succ hc) hne
      exact ha.settledAt c hlt _ _ (h.settled hconflict c hlt)
  · intro c hc
    rw [ha.adds.conflict, hconflict] at hc
    cases hc

/-- An irredundant clause that covers the original one has been added. -/
theorem Adds.covers {t : Cdcl} {l original : List Lit} (ha : s.Adds t false l) (h : s.Covers F)
    (hsub : ∀ k ∈ l, k ∈ original) :
  t.Covers (insert original F)
  := by
  intro σ hσ hroot
  rw [models_insert]
  constructor
  · have hself : t.clauses s.numClauses = ⟨l, 2, false, false⟩ := by
      rw [ha.clauses, Function.update_self]
    obtain ⟨k, hk, hval⟩ := hσ s.numClauses (by rw [ha.numClauses]; exact Nat.lt_succ_self _)
      (by rw [hself]) (by rw [hself])
    rw [ha.lits, if_pos rfl] at hk
    exact ⟨k, hsub k hk, hval⟩
  · exact h.adds ha σ hσ hroot

/-- An original unit is assigned and propagated. -/
theorem Ok.assignOriginalUnit (h : s.Ok e o F) (hunsat : s.unsat = false) (hlevel : s.level = 0)
    {lit : Lit} (hval : s.val lit = 0) (hvar : lit.vidx ≤ s.maxVar) {original : List Lit}
    (hmem : lit ∈ original)
    (hderived : ∀ P, RupClosed P → insert original F ⊆ P → [lit] ∈ P) :
  ∃ t, s.assignOriginalUnit o.chrono lit = some t ∧ t.Ok e o (insert original F)
  := by
  have ha : s.Assignable o.chrono lit .unit :=
    ⟨hval, hvar, nofun, nofun, fun _ => hlevel.symm⟩
  have hinv := h.inv.searchAssign (h.conflict hunsat) ha
  have hok : (s.searchAssign o.chrono lit .unit).Ok e o (insert original F) := by
    refine ⟨hinv, h.aux.searchAssign o.chrono hval .unit nofun, ?_, ?_, fun _ => h.conflict hunsat,
      fun _ => hlevel⟩
    · intro P hP hF
      exact (h.holds P hP (Set.insert_subset_iff.mp hF).2).searchAssign hP h.inv.trail ha
        (fun _ _ => hderived P hP hF)
    · intro _ σ hσ hroot
      rw [models_insert]
      refine ⟨⟨lit, hmem, ?_⟩,
        (h.covers hunsat).searchAssign o.chrono hval .unit σ hσ hroot⟩
      apply hroot lit (List.mem_append_right _ (List.mem_singleton_self lit))
      rw [searchAssign_var_self]
      rfl
  generalize hs' : s.searchAssign o.chrono lit .unit = s' at hok
  have hlevel' : s'.level = 0 := by
    rw [← hs']
    exact hlevel
  have hunsat' : s'.unsat = false := by
    rw [← hs']
    exact hunsat
  obtain ⟨t, hpropagate, hextends, htinv, -⟩ := hok.inv.propagate
  rw [Cdcl.assignOriginalUnit, hs', hpropagate]
  simp only
  cases hconflict : t.conflict with
  | none =>
      rw [if_neg (by simp)]
      exact ⟨t, rfl, hok.keeps hextends.keeps htinv hunsat' (Or.inl ⟨hextends.unsat, hconflict⟩)⟩
  | some c =>
      rw [if_pos (by simp)]
      have htlevel : t.level = 0 := hextends.level.trans hlevel'
      exact ⟨_, rfl, hok.keeps
        (hextends.keeps.trans (keeps_learnEmptyClause htinv hconflict htlevel))
        htinv.learnEmptyClause hunsat' (Or.inr ⟨rfl, htlevel⟩)⟩

/-- Adding an original clause ends, and keeps the invariant with the clause among the original ones.
-/
theorem Ok.addNewOriginalClause (h : s.Ok e o F) {original : List Lit}
    (hvars : ∀ lit ∈ original, lit.vidx ≤ s.maxVar) :
  ∃ t, s.addNewOriginalClause o.chrono original = some t ∧ t.Ok e o (insert original F)
  := by
  rw [Cdcl.addNewOriginalClause]
  have hroot := h.backtrack_zero
  have hlevel := s.backtrack_level 0
  rw [← (s.backtrack_frame 0).1] at hvars
  generalize s.backtrack 0 = t at hroot hlevel hvars
  cases hunsat : t.unsat with
  | true =>
      rw [if_pos rfl]
      refine ⟨t, rfl, hroot.inv, hroot.aux,
        fun P hP hF => hroot.holds P hP (Set.insert_subset_iff.mp hF).2, ?_, hroot.conflict,
        hroot.level⟩
      intro hfalse
      rw [hunsat] at hfalse
      cases hfalse
  | false =>
      rw [if_neg Bool.false_ne_true]
      have hconflict := hroot.conflict hunsat
      have hcovers := hroot.covers hunsat
      cases hlits : t.originalLiterals [] original with
      | none =>
          refine ⟨t, rfl, hroot.inv, hroot.aux,
            fun P hP hF => hroot.holds P hP (Set.insert_subset_iff.mp hF).2, ?_, hroot.conflict,
            hroot.level⟩
          intro _ σ hσ hroots
          rw [models_insert]
          refine ⟨?_, hcovers σ hσ hroots⟩
          obtain ⟨k, hk, hneg | hneg⟩ | ⟨k, hk, hmem⟩ := originalLiterals_none hlits
          · cases hneg
          · cases hval : σ.value k with
            | true => exact ⟨k, hk, hval⟩
            | false =>
                refine ⟨-k, hneg, ?_⟩
                rw [show -k = Literal.neg k from rfl, Assignment.value_neg, hval]
                rfl
          · refine ⟨k, hk, hroots k hmem ?_⟩
            have hle : (t.var k).level ≤ t.level := hroot.inv.trail.search.level_le k hmem
            omega
      | some clause =>
          obtain ⟨hnodup, hspec, hall⟩ := originalLiterals_some hlits
          have hderived : ∀ P, RupClosed P → insert original F ⊆ P → clause ∈ P := by
            intro P hP hF
            obtain ⟨horiginal, hF⟩ := Set.insert_subset_iff.mp hF
            apply hP.remove horiginal
            intro k hk
            obtain hk | hk | hneg := hall k hk
            · exact Or.inl hk
            · cases hk
            · exact Or.inr (hroot.root_mem hlevel hP hF hneg)
          obtain _ | ⟨lit, _ | ⟨lit', rest⟩⟩ := clause
          · refine ⟨_, rfl, hroot.inv.learnEmptyClause, hroot.aux, ?_, nofun, nofun,
              fun _ => hlevel⟩
            intro P hP hF
            have hs := hroot.holds P hP (Set.insert_subset_iff.mp hF).2
            exact ⟨hs.clauses, hs.root, fun _ => hderived P hP hF⟩
          · obtain ⟨hmem, -, hval⟩ := hspec lit List.mem_cons_self
            exact hroot.assignOriginalUnit hunsat hlevel hval (hvars lit hmem) hmem hderived
          · have hok : t.ClauseOk (lit :: lit' :: rest) :=
              ⟨by simp, hnodup, fun k hk => hvars k (hspec k hk).1⟩
            have hadded := added_addClause hroot.inv.clauses hroot.inv.trail hroot.inv.watches hok
              false
            refine ⟨_, rfl, hroot.inv.added hconflict hadded (fun k hk => (hspec k hk).2.2),
              hroot.aux.adds hadded.adds,
              fun P hP hF => (hroot.holds P hP (Set.insert_subset_iff.mp hF).2).adds hadded.adds
                (hderived P hP hF),
              fun _ => hadded.adds.covers hcovers (fun k hk => (hspec k hk).1), ?_, ?_⟩
            · intro _
              rw [hadded.adds.conflict]
              exact hconflict
            · intro htrue
              rw [hadded.adds.unsat, hunsat] at htrue
              cases htrue

/-! ### Runs -/

/-- The states that the solver can reach, with the original clauses that have been added.
Decisions are made when everything has been propagated, and not on auxiliary variables. -/
inductive Reachable (e : External) (o : Options) : Set (Clause Lit) → Cdcl → Prop
  | init : Reachable e o ∅ (init 0)
  | initVars {F : Set (Clause Lit)} {s : Cdcl} (h : Reachable e o F s) (newMaxVar : Nat) :
      Reachable e o F (s.initVars newMaxVar)
  | add {F : Set (Clause Lit)} {s t : Cdcl} {original : List Lit} (h : Reachable e o F s)
      (hvars : ∀ lit ∈ original, lit.vidx ≤ s.maxVar)
      (ht : s.addNewOriginalClause o.chrono original = some t) :
      Reachable e o (insert original F) t
  | search {F : Set (Clause Lit)} {s t : Cdcl} (h : Reachable e o F s) (hunsat : s.unsat = false)
      (heuristics : Heuristics) (ht : s.propagateAndAnalyze e o heuristics = some t) :
      Reachable e o F t
  | decide {F : Set (Clause Lit)} {s : Cdcl} {lit : Lit} (h : Reachable e o F s)
      (hunsat : s.unsat = false) (hall : s.propagated = s.trail.length) (hval : s.val lit = 0)
      (hvar : lit.vidx ≤ s.maxVar) (haux : e.isAux lit = false) :
      Reachable e o F (s.searchAssumeDecision o.chrono lit)
  | pseudo {F : Set (Clause Lit)} {s : Cdcl} (h : Reachable e o F s) (hunsat : s.unsat = false)
      (hall : s.propagated = s.trail.length) :
      Reachable e o F s.newLevel
  | restart {F : Set (Clause Lit)} {s : Cdcl} {n : Nat} (h : Reachable e o F s)
      (hunsat : s.unsat = false) (hn : n ≤ s.level) :
      Reachable e o F (s.backtrack n)
  | markGarbage {F : Set (Clause Lit)} {s : Cdcl} {c : Nat} (h : Reachable e o F s)
      (hunsat : s.unsat = false) (hc : s.Useless c) :
      Reachable e o F (s.markGarbage c)

theorem ok_init (e : External) (o : Options) :
  (init 0).Ok e o ∅
  := by
  refine ⟨⟨⟨nofun, nofun, nofun, nofun⟩, ⟨⟨List.nodup_nil, nofun, nofun, nofun, ?_, nofun, ?_⟩, nofun,
    nofun, rfl, nofun, le_rfl, le_rfl, nofun, ?_⟩,
    WatchTable.empty (fun c hc => absurd hc.1 (Nat.not_lt_zero c)), nofun, fun _ => nofun, nofun⟩, nofun,
    fun _ _ _ => ⟨nofun, nofun, nofun⟩, fun _ σ _ _ => nofun, fun _ => rfl, fun _ => rfl⟩
  · intro pre x post r h
    exact absurd h (by simp [toSearch, init])
  · intro pre x post h
    exact absurd h (by simp [toSearch, init])
  · intro _ l hl x hx
    have hnil : ([] : List Lit).drop ((init 0).start l) = [] := List.drop_nil
    change x ∈ ([] : List Lit).drop ((init 0).start l) at hx
    rw [hnil] at hx
    cases hx

/-- The invariant holds in every reachable state. -/
theorem Reachable.ok (h : Reachable e o F s) :
  s.Ok e o F
  := by
  induction h with
  | init => exact ok_init e o
  | initVars h newMaxVar ih => exact ih.initVars newMaxVar
  | add h hvars ht ih =>
      obtain ⟨t, ht', hok⟩ := ih.addNewOriginalClause hvars
      obtain rfl := Option.some.inj (ht.symm.trans ht')
      exact hok
  | search h hunsat heuristics ht ih =>
      obtain ⟨t, ht', hok, -⟩ := ih.propagateAndAnalyze hunsat heuristics
      obtain rfl := Option.some.inj (ht.symm.trans ht')
      exact hok
  | decide h hunsat hall hval hvar haux ih =>
      exact ih.searchAssumeDecision hunsat hall hval hvar haux
  | pseudo h hunsat hall ih => exact ih.newLevel hunsat hall
  | restart h hunsat hn ih => exact ih.backtrack hunsat hn
  | markGarbage h hunsat hc ih => exact ih.markGarbage hunsat hc

/-- The search may decide on a variable that `next_decision_variable` finds, since that variable
is not auxiliary. -/
theorem Reachable.decide_next (h : Reachable e o F s) (hunsat : s.unsat = false)
    (hall : s.propagated = s.trail.length) {d d' : Decider} (hd : Decider.Reachable d)
    (hexternal : d.external = e) (hmax : d.maxVar = s.maxVar)
    (hvals : ∀ k : Lit, d.assigned k.vidx = false → s.val k = 0) (hhas : d.HasDecision) {n : Nat}
    {lit : Lit} (hnext : d.nextDecisionVariable n = some (lit.vidx, d')) :
  Reachable e o F (s.searchAssumeDecision o.chrono lit)
  := by
  obtain ⟨hvar, hun, haux, -⟩ := hd.inv.of_nextDecisionVariable hhas hnext
  subst hexternal
  exact h.decide hunsat hall (hvals lit hun) (hmax ▸ hvar.2) haux

/-! ### A small run -/

/-- The state after adding a clause. -/
def added (s : Cdcl) (o : Options) (original : List Lit) : Cdcl :=
  (s.addNewOriginalClause o.chrono original).getD s

/-- The state after propagating, and analyzing a conflict. -/
def searched (s : Cdcl) (e : External) (o : Options) : Cdcl :=
  (s.propagateAndAnalyze e o ⟨0, fun _ _ => true⟩).getD s

theorem Reachable.added (h : Reachable e o F s) (original : List Lit)
    (hvars : ∀ lit ∈ original, lit.vidx ≤ s.maxVar) :
  Reachable e o (insert original F) (s.added o original)
  := by
  obtain ⟨t, ht, -⟩ := h.ok.addNewOriginalClause hvars
  rw [Cdcl.added, ht]
  exact h.add hvars ht

theorem Reachable.searched (h : Reachable e o F s) (hunsat : s.unsat = false) :
  Reachable e o F (s.searched e o)
  := by
  obtain ⟨t, ht, -⟩ := h.ok.propagateAndAnalyze hunsat ⟨0, fun _ _ => true⟩
  rw [Cdcl.searched, ht]
  exact h.search hunsat _ ht

section Run

/-- Chronological backtracking and eager subsumption. -/
def runOptions : Options :=
  ⟨1, false, 100, false, true, 20⟩

/-- The second variable is auxiliary. -/
def runExternal : External :=
  ⟨{2}, id⟩

def runClause (k l : Int) : List Lit :=
  [Lit.ofInt k, Lit.ofInt l]

/-- One clause over two variables, and the first one is decided. -/
def oneClause : Cdcl :=
  (((init 0).initVars 2).added runOptions (runClause 1 2)).searchAssumeDecision 1 (Lit.ofInt (-1))

theorem oneClause_reachable :
  Reachable runExternal runOptions {runClause 1 2} oneClause
  := by
  have hvars := Reachable.initVars (.init (e := runExternal) (o := runOptions)) 2
  have hadd := hvars.added (runClause 1 2) (by decide +kernel)
  rw [insert_empty_eq] at hadd
  exact hadd.decide (by decide +kernel) (by decide +kernel) (by decide +kernel) (by decide +kernel)
    (by decide +kernel)

/-- All four clauses over two variables. -/
def fourClauses : Cdcl :=
  (((((init 0).initVars 2).added runOptions (runClause 1 2)).added runOptions
    (runClause 1 (-2))).added runOptions (runClause (-1) 2)).added runOptions (runClause (-1) (-2))

def fourClausesDecided : Cdcl :=
  fourClauses.searchAssumeDecision 1 (Lit.ofInt 1)

/-- The formula of the four clauses. -/
def fourFormula : Set (Clause Lit) :=
  {runClause (-1) (-2), runClause (-1) 2, runClause 1 (-2), runClause 1 2}

theorem fourClausesDecided_reachable :
  Reachable runExternal runOptions fourFormula fourClausesDecided
  := by
  have hvars := Reachable.initVars (.init (e := runExternal) (o := runOptions)) 2
  have hadd := (((hvars.added (runClause 1 2) (by decide +kernel)).added
    (runClause 1 (-2)) (by decide +kernel)).added (runClause (-1) 2)
    (by decide +kernel)).added (runClause (-1) (-2)) (by decide +kernel)
  rw [insert_empty_eq] at hadd
  exact hadd.decide (by decide +kernel) (by decide +kernel) (by decide +kernel) (by decide +kernel)
    (by decide +kernel)

end Run

/-! ### Propagation -/

/-- In every reachable state propagation ends.  It finds a clause whose literals are all false,
or it misses no clause: every clause that is not garbage has a true literal, or its two watched
literals are not false. -/
theorem propagate_complete (h : Reachable e o F s) :
  ∃ t, s.propagate o.chrono = some t ∧ (∃ new, t.trail = s.trail ++ new)
    ∧ (∀ c, t.conflict = some c → c < t.numClauses ∧ ∀ k ∈ t.lits c, -k ∈ t.trail)
    ∧ (t.conflict = none → t.propagated = t.trail.length
      ∧ ∀ c < t.numClauses, (t.clauses c).garbage = false → (∃ x ∈ t.lits c, x ∈ t.trail)
        ∨ ∃ k₀ k₁ rest, t.lits c = k₀ :: k₁ :: rest ∧ -k₀ ∉ t.trail ∧ -k₁ ∉ t.trail)
  := by
  obtain ⟨t, ht, hextends, hinv, hall⟩ := h.ok.inv.propagate
  obtain ⟨new, hnew, -⟩ := hextends.trail
  refine ⟨t, ht, ⟨new, hnew⟩, fun c hc => ⟨(hinv.conflict c hc).lt, (hinv.conflict c hc).false_⟩, ?_⟩
  intro hconflict
  refine ⟨hall hconflict, ?_⟩
  intro c hc hgarbage
  obtain htrue | hwatched := hinv.propagated hconflict (hall hconflict) hc hgarbage
  · exact Or.inl htrue
  · right
    have hlength := hinv.clauses.length c hc
    rw [watched] at hwatched
    generalize t.lits c = l at hlength hwatched
    obtain _ | ⟨k₀, _ | ⟨k₁, rest⟩⟩ := l
    · exact absurd hlength (by decide)
    · exact absurd hlength (by simp)
    · exact ⟨k₀, k₁, rest, rfl, hwatched k₀ (by simp), hwatched k₁ (by simp)⟩

/-- The clause forces its second literal. -/
theorem propagate_complete_oneClause :
  ∃ t, oneClause.propagate runOptions.chrono = some t ∧ (∃ new, t.trail = oneClause.trail ++ new)
    ∧ (∀ c, t.conflict = some c → c < t.numClauses ∧ ∀ k ∈ t.lits c, -k ∈ t.trail)
    ∧ (t.conflict = none → t.propagated = t.trail.length
      ∧ ∀ c < t.numClauses, (t.clauses c).garbage = false → (∃ x ∈ t.lits c, x ∈ t.trail)
        ∨ ∃ k₀ k₁ rest, t.lits c = k₀ :: k₁ :: rest ∧ -k₀ ∉ t.trail ∧ -k₁ ∉ t.trail)
  := propagate_complete oneClause_reachable

/-- In every reachable state a clause that is not garbage has exactly one watch in the list of
each of its first two literals, with another literal of the clause as blocking literal, and no
watch in the other lists. -/
theorem watches_complete (h : Reachable e o F s) {c : Nat} (hc : c < s.numClauses)
    (hgarbage : (s.clauses c).garbage = false) (lit : Lit) :
  (if lit ∈ (s.lits c).take 2 then
      ∃ blit ∈ s.lits c, blit ≠ lit
        ∧ (s.wtab lit).filter (fun w => w.clause = c) = [⟨c, blit, (s.lits c).length⟩]
    else (s.wtab lit).filter (fun w => w.clause = c) = [])
  := by
  have hw := h.ok.inv.watches
  split
  · next hlit =>
      obtain ⟨w, hwmem, rfl⟩ := List.mem_map.mp (hw.exists_ c ⟨hc, hgarbage⟩ lit hlit)
      obtain ⟨hblit, hne⟩ := hw.blit lit w hwmem
      have hsize := hw.size lit w hwmem
      refine ⟨w.blit, hblit, hne, ?_⟩
      have hself : w = ⟨w.clause, w.blit, (s.lits w.clause).length⟩ := by rw [← hsize]
      rw [← hself]
      have hnodup := hw.nodup lit
      obtain ⟨pre, post, hsplit⟩ := List.append_of_mem hwmem
      rw [hsplit, List.map_append, List.map_cons, List.nodup_middle, List.nodup_cons,
        List.mem_append, not_or] at hnodup
      have hnone {l : List Watch} (hl : w.clause ∉ l.map Watch.clause) :
          l.filter (fun v => v.clause = w.clause) = [] := by
        rw [List.filter_eq_nil_iff]
        intro v hv heq
        exact hl (of_decide_eq_true heq ▸ List.mem_map_of_mem hv)
      rw [hsplit, List.filter_append, List.filter_cons, hnone hnodup.1.1, hnone hnodup.1.2]
      simp
  · next hlit =>
      rw [List.filter_eq_nil_iff]
      intro w hwmem heq
      rw [decide_eq_true_eq] at heq
      apply hlit
      rw [← heq]
      exact hw.watched lit w hwmem

/-- The watches of a literal in the state with one clause. -/
theorem watches_complete_oneClause :
  if Lit.ofInt 1 ∈ (oneClause.lits 0).take 2 then
      ∃ blit ∈ oneClause.lits 0, blit ≠ Lit.ofInt 1
        ∧ (oneClause.wtab (Lit.ofInt 1)).filter (fun w => w.clause = 0)
          = [⟨0, blit, (oneClause.lits 0).length⟩]
    else (oneClause.wtab (Lit.ofInt 1)).filter (fun w => w.clause = 0) = []
  := watches_complete oneClause_reachable (by decide +kernel) (by decide +kernel) (Lit.ofInt 1)

/-! ### Answers -/

/-- Whatever the solver derives follows from the original clauses: the clauses, learned or not,
the literals of root level, and the answer that there is no model. -/
theorem derived_sound (h : Reachable e o F s) :
  (∀ c < s.numClauses, Entails F (s.lits c))
    ∧ (∀ x ∈ s.trail, (s.var x).level = 0 → Entails F [x])
    ∧ (s.unsat = true → ¬ Satisfiable F)
  := by
  refine ⟨fun c hc σ hσ => (h.ok.holds_satisfiedBy hσ).clauses c hc, ?_, ?_⟩
  · intro x hx hlevel σ hσ
    exact (h.ok.holds_satisfiedBy hσ).root x hx hlevel
  · rintro hunsat ⟨σ, hσ⟩
    exact nil_not_mem_satisfiedBy ((h.ok.holds_satisfiedBy hσ).unsat hunsat)

/-- The run on the four clauses ends with the empty clause. -/
theorem derived_sound_fourClauses :
  ¬ Satisfiable fourFormula
  := (derived_sound ((fourClausesDecided_reachable.searched (by decide +kernel)).searched
    (by decide +kernel))).2.2 (by decide +kernel)

/-- The conflict analysis always comes to its end, and what it leaves is a state without a
conflict or the answer that there is no model. -/
theorem analyze_complete (h : Reachable e o F s) (hunsat : s.unsat = false)
    (heuristics : Heuristics) :
  ∃ t, s.propagateAndAnalyze e o heuristics = some t
    ∧ (t.unsat = true ∧ ¬ Satisfiable F ∨ t.unsat = false ∧ t.conflict = none)
  := by
  obtain ⟨t, ht, hok, -⟩ := h.ok.propagateAndAnalyze hunsat heuristics
  refine ⟨t, ht, ?_⟩
  cases htunsat : t.unsat with
  | false => exact Or.inr ⟨rfl, hok.conflict htunsat⟩
  | true =>
      refine Or.inl ⟨rfl, ?_⟩
      rintro ⟨σ, hσ⟩
      exact nil_not_mem_satisfiedBy ((hok.holds_satisfiedBy hσ).unsat htunsat)

/-- On the four clauses the analysis of the conflict comes to its end. -/
theorem analyze_complete_fourClauses :
  ∃ t, fourClausesDecided.propagateAndAnalyze runExternal runOptions ⟨0, fun _ _ => true⟩
      = some t
    ∧ (t.unsat = true ∧ ¬ Satisfiable fourFormula ∨ t.unsat = false ∧ t.conflict = none)
  := analyze_complete fourClausesDecided_reachable (by decide +kernel) ⟨0, fun _ _ => true⟩

/-- The assignment of the trail. -/
def model (s : Cdcl) : Assignment Nat :=
  fun idx => 0 < s.val (Lit.ofInt idx)

/-- The literals on the trail are true in its assignment. -/
theorem model_value {chrono : Nat} (h : s.WfTrail chrono) {x : Lit} (hx : x ∈ s.trail) :
  s.model.value x = true
  := by
  have hvalue : s.model.value x = (s.model x.vidx ^^ decide (x.int < 0)) := rfl
  rw [hvalue]
  have hne := x.ne_zero
  have hvidx : x.vidx = x.int.natAbs := rfl
  by_cases hneg : x.int < 0
  · have heq : Lit.ofInt x.vidx = -x := by
      apply Lit.ext
      rw [Lit.ofInt, dif_neg (by omega)]
      change (x.vidx : Int) = -x.int
      omega
    have hfalse : s.model x.vidx = false := by
      rw [model, decide_eq_false_iff_not, val_pos_iff, heq]
      exact h.neg_not_mem hx
    rw [hfalse, decide_eq_true hneg]
    rfl
  · have heq : Lit.ofInt x.vidx = x := by
      apply Lit.ext
      rw [Lit.ofInt, dif_neg (by omega)]
      change (x.vidx : Int) = x.int
      omega
    have htrue : s.model x.vidx = true := by
      rw [model, decide_eq_true_eq, val_pos_iff, heq]
      exact hx
    rw [htrue, decide_eq_false hneg]
    rfl

/-- When the trail is as long as there are variables, all literals have values. -/
theorem WfTrail.assigned {chrono : Nat} (h : s.WfTrail chrono) (hlength : s.trail.length = s.maxVar)
    {k : Lit} (hk : k.vidx ≤ s.maxVar) :
  k ∈ s.trail ∨ -k ∈ s.trail
  := by
  have hsub : s.trail.map Lit.vidx ⊆ List.range' 1 s.maxVar := by
    intro v hv
    obtain ⟨x, hx, rfl⟩ := List.mem_map.mp hv
    have hle := h.vidx_le x hx
    have hpos : 0 < x.vidx := Int.natAbs_pos.mpr x.ne_zero
    rw [List.mem_range'_1]
    omega
  have hperm := (h.search.nodup.subperm hsub).perm_of_length_le (by
    rw [List.length_range', List.length_map]
    exact hlength.ge)
  have hmem : k.vidx ∈ s.trail.map Lit.vidx := by
    apply hperm.symm.subset
    have hpos : 0 < k.vidx := Int.natAbs_pos.mpr k.ne_zero
    rw [List.mem_range'_1]
    omega
  obtain ⟨x, hx, hvidx⟩ := List.mem_map.mp hmem
  obtain rfl | rfl := Lit.eq_or_eq_neg hvidx
  · exact Or.inl hx
  · exact Or.inr hx

/-- When all variables are assigned and propagated, the trail is a model of the original
clauses. -/
theorem Ok.models_model (h : s.Ok e o F) (hunsat : s.unsat = false)
    (hpropagated : s.propagated = s.trail.length) (hlength : s.trail.length = s.maxVar) :
  Models s.model F
  := by
  have ht := h.inv.trail
  apply h.covers hunsat
  · intro c hc hgarbage _
    obtain ⟨x, hx, hmem⟩ | hwatched := h.inv.propagated (h.conflict hunsat) hpropagated hc hgarbage
    · exact ⟨x, hx, model_value ht hmem⟩
    · have hpos : 0 < (s.watched c).length := by
        rw [watched, List.length_take]
        have hlength := h.inv.clauses.length c hc
        omega
      obtain ⟨k, hk⟩ := List.exists_mem_of_length_pos hpos
      have hkmem := List.mem_of_mem_take hk
      have htrue := (ht.assigned hlength (h.inv.clauses.vidx_le c hc k hkmem)).resolve_right
        (hwatched k hk)
      exact ⟨k, hkmem, model_value ht htrue⟩
  · intro x hx _
    exact model_value ht hx

end Cdcl

end Cadical
