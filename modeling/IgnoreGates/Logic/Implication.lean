import IgnoreGates.Logic.UnitPropagation

/-!
# Implication graphs

An implication graph consists of true literals with their reasons, of literals that are
fixed, and of a conflict, which is a clause that is false.  The literals of the conflict are
traced back to the literals that made them false, and from a traced literal one goes on to
the literals of its reason as far as this is expanded.

* A clause that contains the literals where this stops follows by reverse unit propagation.
* When it stops at a literal without a reason that is missing in the clause, the clause is
  not entailed: flip this literal and those on a way from it to the conflict.
-/

universe u v

namespace Logic

open Literal Assignment

/-- The true literals with a reason, the fixed ones and the conflict. -/
structure ImplicationGraph (L : Type u) where
  reason : L → Option (Clause L)
  fixed : L → Prop
  conflict : Clause L

namespace ImplicationGraph

variable {L : Type u} {V : Type v} [Literal L V] (g : ImplicationGraph L)

/-- The conflict, the reasons, and the fixed literals as unit clauses. -/
def clauses : Set (Clause L) :=
  {c | c = g.conflict ∨ (∃ x, g.reason x = some c) ∨ ∃ x, g.fixed x ∧ c = [x]}

/-- The assignment under which the graph has been built. -/
structure Wf (σ : Assignment V) : Prop where
  conflict : ∀ k ∈ g.conflict, σ.value k = false
  reason_mem : ∀ {x r}, g.reason x = some r → x ∈ r
  reason_true : ∀ {x r}, g.reason x = some r → σ.value x = true
  reason_false : ∀ {x r}, g.reason x = some r → ∀ k ∈ r, k ≠ x → σ.value k = false
  fixed : ∀ {x}, g.fixed x → σ.value x = true

/-- The literals that are traced from the conflict when the literals in `E` are expanded. -/
inductive Traced (E : L → Prop) : L → Prop
  | conflict {x : L} (hx : neg x ∈ g.conflict) (hfixed : ¬ g.fixed x) : Traced E x
  | reason {x y : L} {r : Clause L} (hy : Traced E y) (hE : E y) (hr : g.reason y = some r)
      (hx : neg x ∈ r) (hxy : neg x ≠ y) (hfixed : ¬ g.fixed x) : Traced E x

variable {g}

theorem Traced.not_fixed {E : L → Prop} {x : L} (h : g.Traced E x) :
  ¬ g.fixed x
  := by
  cases h with
  | conflict hx hfixed => exact hfixed
  | reason hy hE hr hx hxy hfixed => exact hfixed

theorem Traced.mono {E E' : L → Prop} {x : L} (hE : ∀ y, g.Traced E y → E y → E' y)
    (h : g.Traced E x) :
  g.Traced E' x
  := by
  induction h with
  | conflict hx hfixed => exact .conflict hx hfixed
  | reason hy hEy hr hx hxy hfixed ih => exact .reason ih (hE _ hy hEy) hr hx hxy hfixed

/-- A clause follows by reverse unit propagation when it contains all literals at which tracing
stops: the literals that are traced are derived, those with reasons by the reasons. -/
theorem rup_of_traced {E : L → Prop} {c : Clause L} (rank : L → Nat)
    (hmem : ∀ x r, g.reason x = some r → x ∈ r)
    (hrank : ∀ x r, g.reason x = some r → ∀ k ∈ r, k ≠ x → ¬ g.fixed (neg k) →
      rank (neg k) < rank x)
    (hstop : ∀ x, g.Traced E x → (E x ∧ (g.reason x).isSome) ∨ neg x ∈ c) :
  Rup g.clauses c
  := by
  have hfixed {x : L} (hx : g.fixed x) : Propagated g.clauses (fun l => neg l ∈ c) x :=
    .of_mem (Or.inr (Or.inr ⟨x, hx, rfl⟩))
  have htraced : ∀ n x, rank x = n → g.Traced E x →
      Propagated g.clauses (fun l => neg l ∈ c) x := by
    intro n
    induction n using Nat.strong_induction_on with
    | h n ih =>
        rintro x rfl hx
        obtain ⟨hE, hsome⟩ | hstop := hstop x hx
        · obtain ⟨r, hr⟩ := Option.isSome_iff_exists.mp hsome
          apply Propagated.unit (Or.inr (Or.inl ⟨x, hr⟩)) (hmem x r hr)
          intro k hk hkx
          by_cases hroot : g.fixed (neg k)
          · exact hfixed hroot
          · apply ih _ (hrank x r hr k hk hkx hroot) _ rfl
            exact hx.reason hE hr (by rwa [Literal.neg_neg]) (by rwa [Literal.neg_neg]) hroot
        · exact .assumed hstop
  use g.conflict, Or.inl rfl
  intro k hk
  by_cases hroot : g.fixed (neg k)
  · exact hfixed hroot
  · exact htraced _ _ rfl (.conflict (by rwa [Literal.neg_neg]) hroot)

/-! ### Literals without a reason -/

/-- The expanded literals on the ways from `d` to the conflict. -/
inductive Above (g : ImplicationGraph L) (E : L → Prop) (d : L) : L → Prop
  | self : Above g E d d
  | step {x y : L} {r : Clause L} (hx : Above g E d x) (hE : E y) (hfixed : ¬ g.fixed y)
      (hr : g.reason y = some r) (hxr : neg x ∈ r) (hxy : neg x ≠ y) : Above g E d y

theorem Traced.exists_above {E : L → Prop} {d x : L} (hx : g.Traced E x) (h : g.Above E d x) :
  ∃ y, g.Above E d y ∧ neg y ∈ g.conflict
  := by
  induction hx with
  | conflict hx hfixed => exact ⟨_, h, hx⟩
  | reason hy hE hr hx hxy hfixed ih => exact ih (h.step hE hy.not_fixed hr hx hxy)

/-- A clause is not entailed when tracing stops at a literal without a reason, and the clause
contains neither the complement of this literal nor that of an expanded one. -/
theorem not_entails_of_traced {σ : Assignment V} (hg : g.Wf σ) {E : L → Prop} {c : Clause L}
    {d : L} (hd : g.Traced E d) (htrue : σ.value d = true) (hnone : g.reason d = none)
    (hc : ∀ k ∈ c, σ.value k = false ∧ ¬ E (neg k) ∧ neg k ≠ d) :
  ¬ Entails g.clauses c
  := by
  classical
  let P : Set V := {v | ∃ x, g.Above E d x ∧ var x = v}
  let τ : Assignment V := fun v => if v ∈ P then !σ v else σ v
  have habove : ∀ x, g.Above E d x → σ.value x = true := by
    intro x hx
    cases hx with
    | self => exact htrue
    | step hx hE hfixed hr hxr hxy => exact hg.reason_true hr
  have hflip : ∀ l : L, var l ∈ P → τ.value l = !σ.value l := by
    intro l hl
    have hτ : τ (var l) = !σ (var l) := if_pos hl
    rw [value, value, hτ, Bool.not_xor]
  have hkeep : ∀ l : L, var l ∉ P → τ.value l = σ.value l := by
    intro l hl
    apply value_congr
    exact if_neg hl
  have hmem : ∀ l : L, σ.value l = true → var l ∈ P → g.Above E d l := by
    rintro l hl ⟨x, hx, hvar⟩
    obtain rfl | rfl := eq_or_eq_neg hvar
    · exact hx
    · have hval := habove _ hx
      rw [value_neg, hl] at hval
      cases hval
  intro hentails
  obtain ⟨k, hk, hval⟩ := hentails τ (by
    rintro r (rfl | ⟨x, hr⟩ | ⟨x, hfixed, rfl⟩)
    · obtain ⟨y, hy, hyconf⟩ := hd.exists_above .self
      use neg y, hyconf
      rw [hflip _ ⟨y, hy, (var_neg y).symm⟩, value_neg, habove y hy]
      rfl
    · by_cases hxP : var x ∈ P
      · have hx := hmem x (hg.reason_true hr) hxP
        cases hx with
        | self =>
            rw [hnone] at hr
            cases hr
        | @step y _ _ hy hE hfixed hr' hyr hyx =>
            obtain rfl := Option.some.inj (hr.symm.trans hr')
            use neg y, hyr
            rw [hflip _ ⟨y, hy, (var_neg y).symm⟩, value_neg, habove y hy]
            rfl
      · use x, hg.reason_mem hr
        rw [hkeep x hxP, hg.reason_true hr]
    · use x, List.mem_singleton_self x
      rw [hkeep x, hg.fixed hfixed]
      intro hxP
      cases hmem x (hg.fixed hfixed) hxP with
      | self => exact hd.not_fixed hfixed
      | step hy hE hnot hr hyr hyx => exact hnot hfixed)
  obtain ⟨hfalse, hE, hkd⟩ := hc k hk
  by_cases hkP : var k ∈ P
  · have hneg : σ.value (neg k) = true := by rw [value_neg, hfalse, Bool.not_false]
    cases h : hmem (neg k) hneg (by rwa [var_neg]) with
    | self => exact hkd rfl
    | step hy hEk hnot hr hyr hyx => exact hE hEk
  · rw [hkeep k hkP, hfalse] at hval
    cases hval

end ImplicationGraph

end Logic
