import IgnoreGates.Cadical.BackwardClause
import IgnoreGates.Cadical.BinaryDetected

/-!
# Finding gate clauses

The detectors are tried one after the other until one finds a gate.  Equivalences and AND
gates define the pivot.  If-then-else and XOR gates define it unless one of their clauses is
satisfied at the root level, which happens while units have not been propagated.  Such a clause
was satisfied before the detectors were run, since what they derive they also propagate.
-/

namespace Cadical

open Logic

namespace Eliminator

variable (s : Eliminator)

/-- The end of `find_xor_gate`: the clauses are marked and pushed, each of them once.  The
stack of gates was empty before. -/
def pushGates : List Nat → Eliminator → Eliminator
  | [], s => s
  | e :: es, s => pushGates es (if s.gate e then s else s.pushGate e)

variable {s}

/-- `t` is `s` with the gate clauses `gates` marked and pushed. -/
structure Filled (s t : Eliminator) (gates : List Nat) : Prop where
  eq : ∃ gate stack, t = { s with gate := gate, gates := stack }
  gated : s.Gated → t.Gated
  gate : ∀ c, t.gate c = true ↔ s.gate c = true ∨ c ∈ gates

theorem Filled.nil (s : Eliminator) :
  Filled s s []
  := ⟨⟨s.gate, s.gates, rfl⟩, fun h => h, fun c => by simp⟩

/-- Pushing one clause after another. -/
theorem Filled.cons {t : Eliminator} {e : Nat} {es : List Nat} (h : Filled (s.pushGate e) t es) :
  Filled s t (e :: es)
  := by
  obtain ⟨gate, stack, heq⟩ := h.eq
  refine ⟨⟨gate, stack, heq⟩, fun hs => h.gated (hs.pushGate e), ?_⟩
  intro c
  rw [h.gate, List.mem_cons]
  simp only [pushGate, Function.update_apply]
  split
  · next heq => simp [heq]
  · next hne => simp [hne]

/-- A pattern has a clause, since some assignment falsifies one. -/
theorem Pattern.ne_nil {pivot : Lit} {gates : List Nat} (h : s.Pattern pivot gates) :
  gates ≠ []
  := by
  rintro rfl
  have hnodup : (([] : List Lit).map Lit.vidx).Nodup := List.nodup_nil
  have hfree : ∀ l ∈ ([] : List Lit), s.val l = none := by simp
  obtain ⟨σ, hσ, -⟩ := exists_extends hnodup hfree (fun _ => false)
  obtain ⟨c, hc, -⟩ := h.exists_falsified σ hσ
  cases hc

/-- The gate clauses of a pattern define the pivot exactly when none of them is satisfied. -/
theorem Filled.defined_iff {t : Eliminator} {pivot : Lit} {gates : List Nat} (hs : s.Connected)
    (hidle : s.idle pivot = false) (hgated : s.Gated) (hpattern : s.Pattern pivot gates)
    (h : Filled s t gates) :
  t.gates ≠ [] ∧ t.val pivot = none
    ∧ (t.Defined pivot ↔ ∀ c ∈ gates, ¬ s.Satisfied (s.clause c))
  := by
  obtain ⟨-, hval, hgates⟩ := idle_eq_false hidle
  have hgate : ∀ c, t.gate c = true ↔ c ∈ gates := by
    intro c
    rw [h.gate, hgated c, hgates]
    simp
  have hgated' := h.gated hgated
  obtain ⟨gate, stack, rfl⟩ := h.eq
  refine ⟨?_, hval, ?_⟩
  · obtain ⟨c, hc⟩ := List.exists_mem_of_ne_nil _ hpattern.ne_nil
    exact List.ne_nil_of_mem ((hgated' c).mp ((hgate c).mpr hc))
  · have hs' : Connected { s with gate := gate, gates := stack } :=
      ⟨hs.mem, hs.full, hs.occs_nodup, hs.nodup⟩
    have hpattern' : Pattern { s with gate := gate, gates := stack } pivot gates :=
      ⟨fun c hc => ⟨(hpattern.eligible c hc).garbage, (hpattern.eligible c hc).mem,
        (hpattern.eligible c hc).free⟩, hpattern.exists_falsified, hpattern.exists_unique⟩
    exact hpattern'.defined_iff hs' hval hgate

theorem Sound.neg {pivot : Lit} (h : s.Sound pivot) :
  s.Sound (-pivot)
  := by
  refine ⟨h.gated, ?_⟩
  intro hne
  obtain ⟨hval, hdefined⟩ := h.defined hne
  constructor
  · rw [val_neg, hval]
    rfl
  · rw [Defined, Lit.vidx_neg]
    exact hdefined

/-- Whether a true literal is seen does not depend on the sign of the pivot. -/
theorem SeenTrue.neg {pivot : Lit} {c : Nat} (h : s.SeenTrue pivot c) :
  s.SeenTrue (-pivot) c
  := by
  rw [SeenTrue, Lit.vidx_neg]
  exact h

variable {t : Eliminator} {pivot : Lit}

end Eliminator

end Cadical
