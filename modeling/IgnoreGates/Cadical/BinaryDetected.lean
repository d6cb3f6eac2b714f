import IgnoreGates.Cadical.KeptBinaries

/-!
# When no equivalence and no AND gate is found

When the detectors of equivalences and AND gates neither find a gate nor assign the pivot nor
derive the empty clause, there is no such gate among the actual binary clauses, and the clauses
with the pivot or its complement in which they come to a true literal are garbage.
-/

namespace Cadical

open Logic

namespace Eliminator

variable (s : Eliminator)

/-- Two actual binary clauses with the pivot and its complement force their other literal. -/
def HasResolvedUnit (pivot : Lit) : Prop :=
  ∃ l, s.HasBinary pivot l ∧ s.HasBinary (-pivot) l

/-- Some literal of the clause is true, and at most one unassigned literal comes before it apart
from the pivot. -/
def SeenTrue (pivot : Lit) (c : Nat) : Prop :=
  ∃ pre lit post, s.clause c = pre ++ lit :: post ∧ s.val lit = some true
    ∧ (pre.filter (fun k => k.vidx ≠ pivot.vidx ∧ s.val k = none)).length ≤ 1

variable {s} {t : Eliminator}

/-! ### Scanning for the second literal -/

theorem SeenTrue.satisfied {pivot : Lit} {c : Nat} (h : s.SeenTrue pivot c) :
  s.Satisfied (s.clause c)
  := by
  obtain ⟨pre, lit, post, heq, htrue, -⟩ := h
  exact ⟨lit, by simp [heq], htrue⟩

/-- Fewer literals are unassigned later. -/
theorem SeenTrue.later {pivot : Lit} {c : Nat} (h : s.SeenTrue pivot c) (hst : Later s t) :
  t.SeenTrue pivot c
  := by
  obtain ⟨pre, lit, post, heq, htrue, hlen⟩ := h
  refine ⟨pre, lit, post, by rw [hst.clause, heq], hst.val htrue, le_trans ?_ hlen⟩
  apply List.Sublist.length_le
  apply List.monotone_filter_right
  intro k hk
  rw [decide_eq_true_eq] at hk ⊢
  exact hk.imp_right hst.val_none

/-- Among the clauses `pre`, those that are not garbage have no true literal that the scan comes
to, and their second literals are marked. -/
structure MarkedAll (s : Eliminator) (first : Lit) (pre : List Nat) : Prop where
  marked : ∀ c ∈ pre, s.garbage c = false → ∀ l, s.Binary c first l → 0 < s.marked l
  seen : ∀ c ∈ pre, s.garbage c = false → ¬ s.SeenTrue first c

theorem MarkedAll.nil (s : Eliminator) (first : Lit) :
  s.MarkedAll first []
  := ⟨fun _ hc => absurd hc List.not_mem_nil, fun _ hc => absurd hc List.not_mem_nil⟩

/-- A binary clause found later is one at the start, when no value has been set in between. -/
theorem Binary.of_vals {c : Nat} {first l : Lit} (h : t.Binary c first l) (hst : Later s t)
    (hvals : t.vals = s.vals) :
  s.Binary c first l
  := by
  have hval := val_of_vals hvals
  have hmem := h.mem
  have hrest := h.rest
  rw [hst.clause] at hmem hrest
  refine ⟨hmem, h.ne, (hval l).symm.trans h.val, ?_⟩
  intro k hk
  rw [← hval]
  exact hrest k hk

theorem HasBinary.of_vals {a b : Lit} (h : t.HasBinary a b) (hst : Later s t)
    (hvals : t.vals = s.vals) :
  s.HasBinary a b
  := by
  obtain ⟨c, hc, ha, hb⟩ := h
  exact ⟨c, hst.not_garbage hc, hst.clause c ▸ ha, hb.of_vals hst hvals⟩

theorem SeenTrue.of_vals {pivot : Lit} {c : Nat} (h : t.SeenTrue pivot c) (hst : Later s t)
    (hvals : t.vals = s.vals) :
  s.SeenTrue pivot c
  := by
  have hval := val_of_vals hvals
  rw [SeenTrue, hst.clause] at h
  simpa only [SeenTrue, hval] using h

/-- Marks are added, and one more clause has been looked at. -/
theorem MarkedAll.step {first : Lit} {pre : List Nat} (h : s.MarkedAll first pre)
    (hst : Later s t) (hvals : t.vals = s.vals) (hmarks : ∀ l, 0 < s.marked l → 0 < t.marked l)
    {c : Nat} (hmarked : t.garbage c = false → ∀ l, s.Binary c first l → 0 < t.marked l)
    (hseen : t.garbage c = false → ¬ s.SeenTrue first c) :
  t.MarkedAll first (pre ++ [c])
  := by
  constructor
  · intro d hd hgarbage l hl
    have hl := hl.of_vals hst hvals
    obtain hd | hd := List.mem_append.mp hd
    · exact hmarks l (h.marked d hd (hst.not_garbage hgarbage) l hl)
    · rw [List.mem_singleton.mp hd] at hgarbage hl
      exact hmarked hgarbage l hl
  · intro d hd hgarbage hsee
    have hsee := hsee.of_vals hst hvals
    obtain hd | hd := List.mem_append.mp hd
    · exact h.seen d hd (hst.not_garbage hgarbage) hsee
    · rw [List.mem_singleton.mp hd] at hgarbage hsee
      exact hseen hgarbage hsee

/-- A unit that could be resolved later could be resolved at the start. -/
theorem HasResolvedUnit.of_vals {pivot : Lit} (h : t.HasResolvedUnit pivot) (hst : Later s t)
    (hvals : t.vals = s.vals) :
  s.HasResolvedUnit pivot
  := by
  obtain ⟨l, hfst, hsnd⟩ := h
  exact ⟨l, hfst.of_vals hst hvals, hsnd.of_vals hst hvals⟩

end Eliminator

end Cadical
