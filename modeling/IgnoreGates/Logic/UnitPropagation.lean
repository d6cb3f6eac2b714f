import IgnoreGates.Logic.Literal

/-!
# Reverse unit propagation

`Propagated F A` are the literals that unit propagation derives in `F` from the literals `A`.  A
clause follows by reverse unit propagation when its complement leads to a clause of `F` without
a literal that is not false; then it is entailed.  Where no clause of `F` is false or has a
single literal left, propagation derives nothing more.

What is in every set of clauses that contains `F` and is closed under reverse unit propagation is
true in the models of `F`, and it has a derivation from `F`: finitely many clauses each of which
follows from those in front of it.
-/

universe u v

namespace Logic

open Literal Assignment

variable {L : Type u} {V : Type v} [Literal L V]

/-- The literals that are derived from those of `A`. -/
inductive Propagated (F : Set (Clause L)) (A : L → Prop) : L → Prop
  | assumed {l : L} (h : A l) : Propagated F A l
  | unit {c : Clause L} {l : L} (hc : c ∈ F) (hl : l ∈ c)
      (h : ∀ k ∈ c, k ≠ l → Propagated F A (neg k)) : Propagated F A l

/-- All literals of some clause become false. -/
def Refuted (F : Set (Clause L)) (A : L → Prop) : Prop :=
  ∃ c ∈ F, ∀ k ∈ c, Propagated F A (neg k)

/-- The clause follows by reverse unit propagation. -/
def Rup (F : Set (Clause L)) (c : Clause L) : Prop :=
  Refuted F (fun l => neg l ∈ c)

variable {F G : Set (Clause L)} {A : L → Prop} {l : L} {c : Clause L}

/-- More clauses propagate no fewer literals. -/
theorem Propagated.mono (hFG : F ⊆ G) (h : Propagated F A l) :
  Propagated G A l
  := by
  induction h with
  | assumed h => exact .assumed h
  | unit hc hl _ ih => exact .unit (hFG hc) hl ih

/-- More clauses make no fewer clauses implied. -/
theorem Rup.mono (hFG : F ⊆ G) (h : Rup F c) :
  Rup G c
  := by
  obtain ⟨d, hd, hfalse⟩ := h
  exact ⟨d, hFG hd, fun k hk => (hfalse k hk).mono hFG⟩

/-- More assumptions propagate no fewer literals. -/
theorem Propagated.mono_assumed {B : L → Prop} (hAB : ∀ l, A l → B l) (h : Propagated F A l) :
  Propagated F B l
  := by
  induction h with
  | assumed h => exact .assumed (hAB _ h)
  | unit hc hl _ ih => exact .unit hc hl ih

/-- A clause with more literals is implied too. -/
theorem Rup.of_subset {d : Clause L} (h : Rup F c) (hcd : c ⊆ d) :
  Rup F d
  := by
  obtain ⟨e, he, hfalse⟩ := h
  exact ⟨e, he, fun k hk => (hfalse k hk).mono_assumed (fun _ hl => hcd hl)⟩

/-- What is derived is true in the models of the formula in which the assumptions are. -/
theorem Propagated.value {σ : Assignment V} (hσ : Models σ F) (hA : ∀ l, A l → σ.value l = true)
    (h : Propagated F A l) :
  σ.value l = true
  := by
  induction h with
  | assumed h => exact hA _ h
  | @unit c l hc hl _ ih =>
      obtain ⟨k, hk, hval⟩ := hσ c hc
      by_cases hkl : k = l
      · rwa [← hkl]
      · have hneg := ih k hk hkl
        rw [value_neg, hval] at hneg
        cases hneg

/-- A clause implied by reverse unit propagation is entailed. -/
theorem Rup.entails (h : Rup F c) :
  Entails F c
  := by
  intro σ hσ
  by_contra hc
  rw [Clause.not_sat_iff] at hc
  obtain ⟨d, hd, hfalse⟩ := h
  obtain ⟨k, hk, hval⟩ := hσ d hd
  have hneg : σ.value (neg k) = true := by
    apply (hfalse k hk).value hσ
    intro l hl
    have hlneg := hc (neg l) hl
    rwa [value_neg, Bool.not_eq_false'] at hlneg
  rw [value_neg, hval] at hneg
  cases hneg

/-! ### Literals that are closed under propagation -/

/-- The literals of `T` are consistent, and every clause of `F` has a literal in `T` or two
literals whose complements are not. -/
structure Closed (F : Set (Clause L)) (T : L → Prop) : Prop where
  consistent : ∀ l, T l → ¬ T (neg l)
  clause : ∀ c ∈ F, (∃ l ∈ c, T l) ∨ ∃ k ∈ c, ∃ l ∈ c, k ≠ l ∧ ¬ T (neg k) ∧ ¬ T (neg l)

variable {T : L → Prop}

/-- A closed set of literals that has the assumptions has what is propagated. -/
theorem Closed.propagated (hT : Closed F T) (hA : ∀ l, A l → T l) (h : Propagated F A l) :
  T l
  := by
  induction h with
  | assumed h => exact hA _ h
  | @unit c l hc hl _ ih =>
      obtain ⟨k, hk, hTk⟩ | ⟨k, hk, k', hk', hne, hTk, hTk'⟩ := hT.clause c hc
      · by_cases hkl : k = l
        · rwa [← hkl]
        · exact absurd (ih k hk hkl) (hT.consistent k hTk)
      · by_cases hkl : k = l
        · apply absurd (ih k' hk' _) hTk'
          rw [← hkl]
          exact hne.symm
        · exact absurd (ih k hk hkl) hTk

/-- Unit propagation does not run into a conflict. -/
theorem Closed.not_refuted (hT : Closed F T) (hA : ∀ l, A l → T l) :
  ¬ Refuted F A
  := by
  rintro ⟨c, hc, hfalse⟩
  have hall : ∀ k ∈ c, T (neg k) := fun k hk => hT.propagated hA (hfalse k hk)
  obtain ⟨k, hk, hTk⟩ | ⟨k, hk, -, -, -, hTk, -⟩ := hT.clause c hc
  · exact hT.consistent k hTk (hall k hk)
  · exact hTk (hall k hk)

/-! ### Closure under reverse unit propagation -/

/-- The set contains what follows from its clauses. -/
def RupClosed (P : Set (Clause L)) : Prop :=
  ∀ c, Rup P c → c ∈ P

variable {P : Set (Clause L)} {d : Clause L}

/-- A literal that is a unit clause is derived. -/
theorem Propagated.of_mem (h : [l] ∈ F) :
  Propagated F A l
  := by
  apply Propagated.unit h (List.mem_singleton_self l)
  intro k hk hne
  exact absurd (List.mem_singleton.mp hk) hne

theorem RupClosed.of_subset (hP : RupClosed P) (hc : c ∈ P) (hcd : c ⊆ d) :
  d ∈ P
  := by
  apply hP
  use c, hc
  intro k hk
  apply Propagated.assumed
  rw [Literal.neg_neg]
  exact hcd hk

/-- Literals whose complements are unit clauses are removed from a clause. -/
theorem RupClosed.remove (hP : RupClosed P) (hc : c ∈ P) (h : ∀ k ∈ c, k ∈ d ∨ [neg k] ∈ P) :
  d ∈ P
  := by
  apply hP
  use c, hc
  intro k hk
  obtain hkd | hunit := h k hk
  · apply Propagated.assumed
    rwa [Literal.neg_neg]
  · exact .of_mem hunit

/-- The empty clause follows from complementary unit clauses. -/
theorem RupClosed.nil_mem (hP : RupClosed P) (hl : [l] ∈ P) (hneg : [neg l] ∈ P) :
  [] ∈ P
  := by
  apply hP.remove hl
  intro k hk
  rw [List.mem_singleton.mp hk]
  exact Or.inr hneg

/-- The clauses that an assignment satisfies. -/
def satisfiedBy (σ : Assignment V) : Set (Clause L) :=
  {c | Clause.Sat σ c}

/-- The clauses that an assignment satisfies are closed under reverse unit propagation. -/
theorem rupClosed_satisfiedBy (σ : Assignment V) :
  RupClosed (satisfiedBy σ : Set (Clause L))
  := fun _ h => h.entails σ (fun _ hd => hd)

theorem singleton_mem_satisfiedBy {σ : Assignment V} :
  [l] ∈ (satisfiedBy σ : Set (Clause L)) ↔ σ.value l = true
  := by
  constructor
  · rintro ⟨k, hk, hval⟩
    rwa [← List.mem_singleton.mp hk]
  · intro hval
    exact ⟨l, List.mem_singleton_self l, hval⟩

theorem nil_not_mem_satisfiedBy {σ : Assignment V} :
  [] ∉ (satisfiedBy σ : Set (Clause L))
  := by
  rintro ⟨k, hk, -⟩
  cases hk

/-- The clauses that are derived, one after the other. -/
inductive Derived (F : Set (Clause L)) : Clause L → Prop
  | given {c : Clause L} (hc : c ∈ F) : Derived F c
  | rup {c : Clause L} (G : Set (Clause L)) (hG : ∀ d ∈ G, Derived F d) (hc : Rup G c) : Derived F c

/-- What is derived is closed under reverse unit propagation. -/
theorem rupClosed_derived (F : Set (Clause L)) :
  RupClosed {c | Derived F c}
  := fun _ h => .rup _ (fun _ hd => hd) h

/-! ### Finitely many clauses -/

/-- What holds of each element for some list holds of all elements for one list. -/
theorem exists_list_forall {Q : List (Clause L) → L → Prop}
    (hmono : ∀ G G' k, G ⊆ G' → Q G k → Q G' k) (c : List L)
    (h : ∀ k ∈ c, ∃ G : List (Clause L), (∀ d ∈ G, d ∈ F) ∧ Q G k) :
  ∃ G : List (Clause L), (∀ d ∈ G, d ∈ F) ∧ ∀ k ∈ c, Q G k
  := by
  induction c with
  | nil => exact ⟨[], List.forall_mem_nil _, List.forall_mem_nil _⟩
  | cons k c ih =>
      obtain ⟨G, hG, hk⟩ := h k List.mem_cons_self
      obtain ⟨G', hG', hc⟩ := ih (fun l hl => h l (List.mem_cons_of_mem k hl))
      refine ⟨G ++ G', ?_, ?_⟩
      · intro d hd
        exact (List.mem_append.mp hd).elim (hG d) (hG' d)
      · intro l hl
        obtain rfl | hl := List.mem_cons.mp hl
        · exact hmono _ _ _ (List.subset_append_left G G') hk
        · exact hmono _ _ _ (List.subset_append_right G G') (hc l hl)

/-- A literal is propagated by finitely many of the clauses. -/
theorem Propagated.exists_list (h : Propagated F A l) :
  ∃ G : List (Clause L), (∀ d ∈ G, d ∈ F) ∧ Propagated {d | d ∈ G} A l
  := by
  induction h with
  | assumed h => exact ⟨[], List.forall_mem_nil _, .assumed h⟩
  | @unit c l hc hl _ ih =>
      obtain ⟨G, hG, hall⟩ := exists_list_forall
        (Q := fun G k => k ≠ l → Propagated {d | d ∈ G} A (neg k)) (F := F)
        (fun _ _ _ hsub hk hne => (hk hne).mono hsub) c
        (fun k hk => by
          by_cases hne : k = l
          · exact ⟨[], List.forall_mem_nil _, fun hnot => absurd hne hnot⟩
          · obtain ⟨G, hG, hprop⟩ := ih k hk hne
            exact ⟨G, hG, fun _ => hprop⟩)
      refine ⟨c :: G, ?_, ?_⟩
      · intro d hd
        obtain rfl | hd := List.mem_cons.mp hd
        · exact hc
        · exact hG d hd
      · apply Propagated.unit (c := c) (List.mem_cons_self : c ∈ c :: G) hl
        intro k hk hne
        exact (hall k hk hne).mono (fun d hd => List.mem_cons_of_mem c hd)

/-- A clause is implied by finitely many of the clauses. -/
theorem Rup.exists_list (h : Rup F c) :
  ∃ G : List (Clause L), (∀ d ∈ G, d ∈ F) ∧ Rup {d | d ∈ G} c
  := by
  obtain ⟨d, hd, hfalse⟩ := h
  obtain ⟨G, hG, hall⟩ := exists_list_forall
    (Q := fun G k => Propagated {d | d ∈ G} (fun l => neg l ∈ c) (neg k)) (F := F)
    (fun _ _ _ hsub hk => hk.mono hsub) d (fun k hk => (hfalse k hk).exists_list)
  refine ⟨d :: G, ?_, d, List.mem_cons_self, ?_⟩
  · intro d' hd'
    obtain rfl | hd' := List.mem_cons.mp hd'
    · exact hd
    · exact hG d' hd'
  · intro k hk
    exact (hall k hk).mono (fun d' hd' => List.mem_cons_of_mem d hd')

/-- Each clause of the list follows from `F` and the clauses in front of it. -/
inductive Derivation (F : Set (Clause L)) : List (Clause L) → Prop
  | nil : Derivation F []
  | concat {ds : List (Clause L)} {c : Clause L} (h : Derivation F ds)
      (hc : Rup (F ∪ {d | d ∈ ds}) c) : Derivation F (ds ++ [c])

/-- Derivations from the same clauses can be put one behind the other. -/
theorem Derivation.append {ds es : List (Clause L)} (hds : Derivation F ds)
    (hes : Derivation F es) :
  Derivation F (ds ++ es)
  := by
  induction hes with
  | nil => rwa [List.append_nil]
  | @concat es c hes hc ih =>
      rw [← List.append_assoc]
      apply ih.concat
      apply hc.mono
      rintro d (hd | hd)
      · exact Or.inl hd
      · exact Or.inr (List.mem_append_right ds hd)

/-- Clauses that have derivations have one in common. -/
theorem exists_derivation (cs : List (Clause L))
    (h : ∀ c ∈ cs, ∃ ds, Derivation F ds ∧ (c ∈ F ∨ c ∈ ds)) :
  ∃ ds, Derivation F ds ∧ ∀ c ∈ cs, c ∈ F ∨ c ∈ ds
  := by
  induction cs with
  | nil => exact ⟨[], .nil, List.forall_mem_nil _⟩
  | cons c cs ih =>
      obtain ⟨ds, hds, hc⟩ := h c List.mem_cons_self
      obtain ⟨ds', hds', hcs⟩ := ih (fun d hd => h d (List.mem_cons_of_mem c hd))
      refine ⟨ds ++ ds', hds.append hds', ?_⟩
      intro d hd
      obtain rfl | hd := List.mem_cons.mp hd
      · exact hc.imp_right (List.mem_append_left ds')
      · exact (hcs d hd).imp_right (List.mem_append_right ds)

/-- Whatever is derived has a derivation as a list of clauses. -/
theorem Derived.exists_derivation (h : Derived F c) :
  ∃ ds, Derivation F ds ∧ (c ∈ F ∨ c ∈ ds)
  := by
  induction h with
  | given hc => exact ⟨[], .nil, Or.inl hc⟩
  | @rup c G _ hc ih =>
      obtain ⟨cs, hcs, hrup⟩ := hc.exists_list
      obtain ⟨ds, hds, hall⟩ := Logic.exists_derivation cs (fun d hd => ih d (hcs d hd))
      refine ⟨ds ++ [c], hds.concat (hrup.mono hall), Or.inr ?_⟩
      exact List.mem_append_right ds (List.mem_singleton_self c)

end Logic
