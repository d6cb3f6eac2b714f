import IgnoreGates.Logic.Literal

/-!
# Subsumption modulo false literals

A clause `c` subsumes a clause `d` when its literals are false or occur in `d`.  When this is
so except for the complement of a literal `l` of `d`, then the resolvent of the two clauses on
`l` subsumes `d` without `l`, which may be put in its place.  The literals that are known to be
false are those with a property `F`.
-/

universe u v

namespace Logic

open Literal

namespace Clause

variable {L : Type u} {V : Type v} [Literal L V]

/-- The literals of `c` are false or in `d`. -/
def Subsumes (F : L → Prop) (c d : Clause L) : Prop :=
  ∀ l ∈ c, F l ∨ l ∈ d

/-- The resolvent of `c` and `d` on `l` subsumes `d` without `l`. -/
structure Strengthens (F : L → Prop) (c : Clause L) (l : L) (d : Clause L) : Prop where
  neg_mem : neg l ∈ c
  rest : ∀ k ∈ c, k = neg l ∨ F k ∨ k ∈ d

variable {F : L → Prop} {c d : Clause L} {σ : Assignment V}

theorem Subsumes.sat (h : Subsumes F c d) (hF : ∀ l, F l → σ.value l = false) (hc : Sat σ c) :
  Sat σ d
  := by
  obtain ⟨l, hl, hval⟩ := hc
  obtain hfalse | hmem := h l hl
  · rw [hF l hfalse] at hval
    cases hval
  · exact ⟨l, hmem, hval⟩

/-- The true literal of `c` is in `d` when it is not the complement of `l`. -/
theorem Strengthens.exists_mem {l : L} (h : Strengthens F c l d)
    (hF : ∀ l, F l → σ.value l = false) (hc : Sat σ c) (hl : σ.value l = true) :
  ∃ k ∈ c, k ∈ d ∧ σ.value k = true
  := by
  obtain ⟨k, hk, hval⟩ := hc
  obtain rfl | hfalse | hmem := h.rest k hk
  · rw [Assignment.value_neg, hl] at hval
    cases hval
  · rw [hF k hfalse] at hval
    cases hval
  · exact ⟨k, hk, hmem, hval⟩

/-- Removing literals by resolution with `c` keeps satisfaction. -/
theorem sat_of_strengthened {d' : Clause L} (hc : ∀ l ∈ c, neg l ∉ c)
    (hF : ∀ l, F l → σ.value l = false) (hremoved : ∀ l ∈ d, l ∉ d' → Strengthens F c l d)
    (hsat : Sat σ c) (hd : Sat σ d) :
  Sat σ d'
  := by
  obtain ⟨l, hl, hval⟩ := hd
  by_cases hmem : l ∈ d'
  · exact ⟨l, hmem, hval⟩
  · obtain ⟨k, hk, hkd, hkval⟩ := (hremoved l hl hmem).exists_mem hF hsat hval
    by_cases hkmem : k ∈ d'
    · exact ⟨k, hkmem, hkval⟩
    · exact absurd (hremoved k hkd hkmem).neg_mem (hc k hk)

/-- The unit that hyper unary resolution gives is true. -/
theorem Strengthens.unit {l u : L} (h : Strengthens F c l d) (hc : ∀ l ∈ c, neg l ∉ c)
    (hF : ∀ l, F l → σ.value l = false) (hd : ∀ k ∈ d, F k ∨ k = l ∨ k = u)
    (hsat : Sat σ c) (hdsat : Sat σ d) :
  σ.value u = true
  := by
  obtain ⟨k, hk, hval⟩ := hdsat
  obtain hfalse | rfl | rfl := hd k hk
  · rw [hF k hfalse] at hval
    cases hval
  · obtain ⟨m, hmc, hmd, hmval⟩ := h.exists_mem hF hsat hval
    obtain hfalse | rfl | rfl := hd m hmd
    · rw [hF m hfalse] at hmval
      cases hmval
    · exact absurd h.neg_mem (hc m hmc)
    · exact hmval
  · exact hval

end Clause

end Logic
