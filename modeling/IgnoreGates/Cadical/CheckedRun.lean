import IgnoreGates.Cadical.CdclRun
import IgnoreGates.Cadical.CheckerRun

/-!
# The search and the checker

Whatever the solver derives, clauses, literals of root level and the empty clause, can be derived
from the original clauses by reverse unit propagation, one clause after the other.  The checker
accepts every such derivation, and it is inconsistent when the empty clause has been derived.  So
each state of a run of the solver has a proof that the checker accepts.
-/

namespace Cadical

open Logic

/-! ### Runs without deletions -/

namespace Checker

/-- A proof that deletes nothing. -/
def proof (os ds : List (List Lit)) : List Event :=
  os.map .original ++ ds.map .derived

variable {os ds : List (List Lit)} {k : Checker}

theorem deletions_proof (os ds : List (List Lit)) (c : List Lit) :
  deletions (proof os ds) c = 0
  := by
  rw [deletions, List.countP_eq_zero]
  intro e he
  obtain he | he := List.mem_append.mp he
  · obtain ⟨d, -, rfl⟩ := List.mem_map.mp he
    exact Bool.false_ne_true
  · obtain ⟨d, -, rfl⟩ := List.mem_map.mp he
    exact Bool.false_ne_true

theorem additions_proof_pos {c : List Lit} (hc : c ∈ os ∨ c ∈ ds) :
  0 < additions (proof os ds) c
  := by
  rw [additions, List.countP_pos_iff]
  obtain hc | hc := hc
  · refine ⟨.original c, List.mem_append_left _ (List.mem_map_of_mem hc), ?_⟩
    exact decide_eq_true rfl
  · refine ⟨.derived c, List.mem_append_right _ (List.mem_map_of_mem hc), ?_⟩
    exact decide_eq_true rfl

theorem mem_live_proof {c : List Lit} (hc : c ∈ os ∨ c ∈ ds) :
  c ∈ live (proof os ds)
  := by
  change deletions (proof os ds) c < additions (proof os ds) c
  rw [deletions_proof]
  exact additions_proof_pos hc

theorem exists_run_originals (os : List (List Lit)) :
  ∃ k, Run (proof os []) k
  := by
  induction os using List.reverseRecOn with
  | nil => exact ⟨init, .init⟩
  | append_singleton os c ih =>
      obtain ⟨k, hk⟩ := ih
      obtain ⟨k', hk'⟩ := hk.addOriginalClause c
      refine ⟨k', ?_⟩
      have hrun := hk.step _ hk'
      rw [proof, List.map_nil, List.append_nil] at hrun ⊢
      rwa [List.map_append]

/-- Every derivation is accepted. -/
theorem exists_run_proof (h : Derivation {c | c ∈ os} ds) :
  ∃ k, Run (proof os ds) k
  := by
  induction h with
  | nil => exact exists_run_originals os
  | @concat ds c h hc ih =>
      obtain ⟨k, hk⟩ := ih
      have hrup : Rup (live (proof os ds)) c := hc.mono (fun d hd => mem_live_proof hd)
      obtain ⟨k', hk'⟩ | ⟨-, hnot⟩ := hk.addDerivedClause c
      · refine ⟨k', ?_⟩
        have hrun := hk.step _ hk'
        rw [proof, List.append_assoc] at hrun
        rwa [proof, List.map_append]
      · exact absurd hrup hnot

/-- The checker is inconsistent when the empty clause has been added. -/
theorem Run.inconsistent_of_nil (h : Run (proof os ds) k) (hnil : [] ∈ os ∨ [] ∈ ds) :
  k.inconsistent = true
  := by
  by_contra hnot
  rw [Bool.not_eq_true] at hnot
  have hcount := h.ok.count hnot [] ⟨List.forall_mem_nil _, List.forall_mem_nil _⟩
  have hpos := additions_proof_pos hnil
  rw [deletions_proof, Nat.zero_add] at hcount
  rw [hcount] at hpos
  obtain ⟨d, hd, hsame⟩ := (k.count_pos_iff []).mp hpos
  have htable := (h.ok.inv hnot).table
  have hlength := htable.length d (htable.stored_lt hd)
  rw [List.toFinset_nil, List.toFinset_eq_empty_iff] at hsame
  rw [hsame] at hlength
  exact absurd hlength (by decide)

/-- When the empty clause can be derived, the checker accepts a proof and is inconsistent after
it. -/
theorem exists_refutation (h : Derived {c | c ∈ os} []) :
  ∃ ds k, Run (proof os ds) k ∧ k.inconsistent = true
  := by
  obtain ⟨ds, hds, hnil⟩ := h.exists_derivation
  obtain ⟨k, hk⟩ := exists_run_proof hds
  exact ⟨ds, k, hk, hk.inconsistent_of_nil hnil⟩

end Checker

/-! ### Proofs of what the solver derives -/

namespace Cdcl

variable {s : Cdcl} {o : Options} {e : External} {F : Set (Clause Lit)}

/-- The clauses, the literals of root level as unit clauses, and the empty clause when it has been
derived. -/
def formula (s : Cdcl) : List (List Lit) :=
  (List.range s.numClauses).map s.lits
    ++ (s.trail.filter (fun x => (s.var x).level = 0)).map (fun x => [x])
    ++ if s.unsat then [[]] else []

theorem Holds.formula {P : Set (Clause Lit)} (h : s.Holds P) :
  ∀ c ∈ s.formula, c ∈ P
  := by
  intro c hc
  rw [Cdcl.formula, List.append_assoc] at hc
  obtain hc | hc := List.mem_append.mp hc
  · obtain ⟨i, hi, rfl⟩ := List.mem_map.mp hc
    exact h.clauses i (List.mem_range.mp hi)
  · obtain hc | hc := List.mem_append.mp hc
    · obtain ⟨x, hx, rfl⟩ := List.mem_map.mp hc
      obtain ⟨hx, hlevel⟩ := List.mem_filter.mp hx
      exact h.root x hx (of_decide_eq_true hlevel)
    · split at hc
      · next hunsat =>
          rw [List.mem_singleton.mp hc]
          exact h.unsat hunsat
      · cases hc

theorem nil_mem_formula (h : s.unsat = true) :
  [] ∈ s.formula
  := by
  apply List.mem_append_right
  rw [if_pos h]
  exact List.mem_singleton_self []

/-- Finitely many clauses have been added. -/
theorem Reachable.exists_list (h : Reachable e o F s) :
  ∃ os : List (List Lit), F = {c | c ∈ os}
  := by
  induction h with
  | init => exact ⟨[], by simp⟩
  | @add F s t original h hvars ht ih =>
      obtain ⟨os, rfl⟩ := ih
      refine ⟨original :: os, ?_⟩
      ext c
      exact List.mem_cons.symm
  | initVars h newMaxVar ih => exact ih
  | search h hunsat heuristics ht ih => exact ih
  | decide h hunsat hall hval hvar haux ih => exact ih
  | pseudo h hunsat hall ih => exact ih
  | restart h hunsat hn ih => exact ih
  | markGarbage h hunsat hc ih => exact ih

/-- What the solver works with in a reachable state has a derivation from the original clauses. -/
theorem Reachable.exists_derivation (h : Reachable e o F s) :
  ∃ ds, Derivation F ds ∧ ∀ c ∈ s.formula, c ∈ F ∨ c ∈ ds
  := by
  apply Logic.exists_derivation
  intro c hc
  have hderived := (h.ok.holds _ (rupClosed_derived F) (fun d hd => .given hd)).formula c hc
  exact hderived.exists_derivation

/-- In every reachable state there is a proof that the checker accepts: it consists of the original
clauses and of clauses that are derived, and it contains all clauses of the solver and all literals
of root level.  When the solver has derived the empty clause, the checker is inconsistent
afterwards. -/
theorem proof_accepted (h : Reachable e o F s) :
  ∃ os ds k, F = {c | c ∈ os} ∧ Checker.Run (Checker.proof os ds) k
    ∧ (∀ c ∈ s.formula, c ∈ os ∨ c ∈ ds)
    ∧ (s.unsat = true → k.inconsistent = true)
  := by
  obtain ⟨os, rfl⟩ := h.exists_list
  obtain ⟨ds, hds, hall⟩ := h.exists_derivation
  obtain ⟨k, hk⟩ := Checker.exists_run_proof hds
  refine ⟨os, ds, k, rfl, hk, hall, ?_⟩
  intro hunsat
  exact hk.inconsistent_of_nil (hall [] (nil_mem_formula hunsat))

/-- The unsatisfiability of the four clauses is checked. -/
theorem proof_accepted_fourClauses :
  ∃ os ds k, fourFormula = {c | c ∈ os} ∧ Checker.Run (Checker.proof os ds) k
    ∧ k.inconsistent = true
  := by
  obtain ⟨os, ds, k, hos, hrun, -, hinconsistent⟩ :=
    proof_accepted ((fourClausesDecided_reachable.searched (by decide +kernel)).searched
      (by decide +kernel))
  exact ⟨os, ds, k, hos, hrun, hinconsistent (by decide +kernel)⟩

end Cdcl

end Cadical
