import IgnoreGates.Logic.Reconstruction

/-!
# Formulas with removed clauses

Clauses are removed from a formula, each with a witness: literals that are made true when the
clause turns out to be false.  `Reconstructs` says of a list of removed clauses that it leads from
the models of what is left back to the models of the original formula.  It is kept when the
formula is replaced by an equivalent one, when a clause is removed, and when a clause is added
that no witness makes false; a removed clause can be put back, or dropped when it is implied.
-/

universe u v

namespace Logic

open Literal Assignment

/-- A clause that has been removed, with its witness. -/
structure Weakened (L : Type u) where
  witness : List L
  clause : Clause L

variable {L : Type u} {V : Type v} [Literal L V] [DecidableEq V]

namespace Weakened

/-- The witness is made true when the clause is false. -/
def extend (e : Weakened L) (σ : Assignment V) : Assignment V :=
  if Clause.Sat σ e.clause then σ else e.witness.foldr (fun l σ => σ.make l) σ

/-- No literal of the clause is the complement of a witness literal. -/
def Spares (e : Weakened L) (c : Clause L) : Prop :=
  ∀ l ∈ c, neg l ∉ e.witness

theorem extend_of_sat {e : Weakened L} {σ : Assignment V} (h : Clause.Sat σ e.clause) :
  e.extend σ = σ
  := if_pos h

/-- A literal stays true when its complement is no witness. -/
theorem value_extend {e : Weakened L} {l : L} (hl : neg l ∉ e.witness) {σ : Assignment V}
    (h : σ.value l = true) :
  (e.extend σ).value l = true
  := by
  rw [extend]
  split
  · exact h
  · generalize e.witness = w at hl
    induction w with
    | nil => exact h
    | cons k w ih =>
        rw [List.mem_cons, not_or] at hl
        apply value_make_of_ne_neg
        · rintro rfl
          exact hl.1 (neg_neg k)
        · exact ih hl.2

theorem Spares.sat {e : Weakened L} {c : Clause L} (hc : e.Spares c) {σ : Assignment V}
    (h : Clause.Sat σ c) :
  Clause.Sat (e.extend σ) c
  := by
  obtain ⟨l, hl, hval⟩ := h
  exact ⟨l, hl, value_extend (hc l hl) hval⟩

end Weakened

/-- The last clause that has been removed comes last, and is processed first. -/
def extend (E : List (Weakened L)) (σ : Assignment V) : Assignment V :=
  E.foldr Weakened.extend σ

/-- The formula with the models `P` has been reduced to that with the models `Q`, by removing
the clauses of `E`, the first one first. -/
inductive Reconstructs : (Assignment V → Prop) → List (Weakened L) → (Assignment V → Prop) → Prop
  | nil {P Q : Assignment V → Prop} (h : ∀ σ, P σ ↔ Q σ) : Reconstructs P [] Q
  | cons {P R Q : Assignment V → Prop} {e : Weakened L} {E : List (Weakened L)}
      (hclause : ∀ σ, P σ → Clause.Sat σ e.clause) (himplied : ∀ σ, P σ → R σ)
      (hextend : ∀ σ, R σ → P (e.extend σ)) (h : Reconstructs R E Q) : Reconstructs P (e :: E) Q

namespace Reconstructs

variable {P P' Q Q' R : Assignment V → Prop} {e : Weakened L} {E E' : List (Weakened L)}

/-- Models of what is left are extended to models of the original formula. -/
theorem extend (h : Reconstructs P E Q) {σ : Assignment V} (hσ : Q σ) :
  P (Logic.extend E σ)
  := by
  induction h with
  | nil hiff => exact (hiff σ).mpr hσ
  | cons _ _ hextend _ ih => exact hextend _ (ih hσ)

/-- What is left is implied by the original formula. -/
theorem implied (h : Reconstructs P E Q) {σ : Assignment V} (hσ : P σ) :
  Q σ
  := by
  induction h with
  | nil hiff => exact (hiff σ).mp hσ
  | cons _ himplied _ _ ih => exact ih (himplied σ hσ)

theorem congr (h : Reconstructs P E Q) (hP : ∀ σ, P' σ ↔ P σ) (hQ : ∀ σ, Q σ ↔ Q' σ) :
  Reconstructs P' E Q'
  := by
  induction h generalizing P' with
  | nil hiff => exact .nil (fun σ => (hP σ).trans ((hiff σ).trans (hQ σ)))
  | cons hclause himplied hextend h ih =>
      apply Reconstructs.cons _ _ _ (ih (fun _ => Iff.rfl) hQ)
      · exact fun σ hσ => hclause σ ((hP σ).mp hσ)
      · exact fun σ hσ => himplied σ ((hP σ).mp hσ)
      · exact fun σ hσ => (hP _).mpr (hextend σ hσ)

theorem trans (h : Reconstructs P E R) (h' : Reconstructs R E' Q) :
  Reconstructs P (E ++ E') Q
  := by
  induction h with
  | nil hiff => exact h'.congr hiff (fun _ => Iff.rfl)
  | cons hclause himplied hextend _ ih => exact .cons hclause himplied hextend (ih h')

/-- One clause is removed. -/
theorem single (hclause : ∀ σ, P σ → Clause.Sat σ e.clause) (himplied : ∀ σ, P σ → Q σ)
    (hextend : ∀ σ, Q σ → P (e.extend σ)) :
  Reconstructs P [e] Q
  := .cons hclause himplied hextend (.nil (fun _ => Iff.rfl))

/-! ### Adding clauses -/

/-- Clauses are added that no witness makes false. -/
theorem add (h : Reconstructs P E Q) {D : Set (Clause L)} (hD : ∀ e ∈ E, ∀ c ∈ D, e.Spares c) :
  Reconstructs (fun σ => P σ ∧ Models σ D) E (fun σ => Q σ ∧ Models σ D)
  := by
  induction h with
  | nil hiff => exact .nil (fun σ => and_congr_left' (hiff σ))
  | cons hclause himplied hextend h ih =>
      obtain ⟨he, hE⟩ := List.forall_mem_cons.mp hD
      apply Reconstructs.cons _ _ _ (ih hE)
      · exact fun σ hσ => hclause σ hσ.1
      · exact fun σ hσ => ⟨himplied σ hσ.1, hσ.2⟩
      · exact fun σ hσ => ⟨hextend σ hσ.1, fun c hc => (he c hc).sat (hσ.2 c hc)⟩

/-- Clauses stay satisfied that no witness makes false. -/
theorem models_extend {D : Set (Clause L)} (hD : ∀ e ∈ E, ∀ c ∈ D, e.Spares c) {σ : Assignment V}
    (hσ : Models σ D) :
  Models (Logic.extend E σ) D
  := by
  induction E with
  | nil => exact hσ
  | cons e E ih =>
      obtain ⟨he, hE⟩ := List.forall_mem_cons.mp hD
      exact fun c hc => (he c hc).sat (ih hE c hc)

/-! ### Restoring clauses -/

/-- What is left after the first removed clause: it is implied, and together with the clause
it is as strong as before. -/
theorem exists_tail (h : Reconstructs P (e :: E) Q) :
  ∃ R : Assignment V → Prop, Reconstructs R E Q ∧ (∀ σ, P σ ↔ R σ ∧ Clause.Sat σ e.clause)
    ∧ ∀ σ, R σ → P (e.extend σ)
  := by
  cases h with
  | @cons _ R _ _ _ hclause himplied hextend h =>
      refine ⟨R, h, fun σ => ⟨fun hσ => ⟨himplied σ hσ, hclause σ hσ⟩, ?_⟩, hextend⟩
      rintro ⟨hR, hsat⟩
      rw [← Weakened.extend_of_sat hsat]
      exact hextend σ hR

/-- The first clause stays removed while clauses are added that its witness does not make
false. -/
theorem keep {D : Set (Clause L)} {R Q' : Assignment V → Prop}
    (hP : ∀ σ, P σ ↔ R σ ∧ Clause.Sat σ e.clause) (hextend : ∀ σ, R σ → P (e.extend σ))
    (hD : ∀ c ∈ D, e.Spares c) (h : Reconstructs (fun σ => R σ ∧ Models σ D) E' Q') :
  Reconstructs (fun σ => P σ ∧ Models σ D) (e :: E') Q'
  := by
  apply Reconstructs.cons _ _ _ h
  · exact fun σ hσ => ((hP σ).mp hσ.1).2
  · exact fun σ hσ => ⟨((hP σ).mp hσ.1).1, hσ.2⟩
  · exact fun σ hσ => ⟨hextend σ hσ.1, fun c hc => (hD c hc).sat (hσ.2 c hc)⟩

/-! ### Eliminating a variable -/

/-- Clauses with a literal are removed one after the other, when they can be satisfied by making
the literal true in models of what is left. -/
theorem removed {o : L} {cs : List (Clause L)} (ho : ∀ c ∈ cs, o ∈ c)
    (hQ : ∀ σ, Q σ → ∀ c ∈ cs, ¬ Clause.Sat σ c → Q (σ.make o)) :
  Reconstructs (fun σ => Q σ ∧ ∀ c ∈ cs, Clause.Sat σ c) (cs.map (fun c => ⟨[o], c⟩)) Q
  := by
  induction cs with
  | nil => exact .nil (fun σ => by simp)
  | cons c cs ih =>
      obtain ⟨hoc, hocs⟩ := List.forall_mem_cons.mp ho
      apply Reconstructs.cons _ _ _ (ih hocs (fun σ hσ d hd => hQ σ hσ d (List.mem_cons_of_mem c hd)))
      · exact fun σ hσ => hσ.2 c List.mem_cons_self
      · exact fun σ hσ => ⟨hσ.1, fun d hd => hσ.2 d (List.mem_cons_of_mem c hd)⟩
      · rintro σ ⟨hσ, hsat⟩
        rw [Weakened.extend]
        split
        · next hc => exact ⟨hσ, List.forall_mem_cons.mpr ⟨hc, hsat⟩⟩
        · next hc =>
            refine ⟨hQ σ hσ c List.mem_cons_self hc, fun d hd => ⟨o, ?_, make_value_self σ o⟩⟩
            exact ho d hd

/-- A variable is eliminated: the clauses with it are removed, when what is left does not depend
on the variable and implies their resolvents. -/
theorem resolved {o : L} {cs ds : List (Clause L)} (hcs : ∀ c ∈ cs, o ∈ c)
    (hds : ∀ d ∈ ds, neg o ∈ d) (hQ : ∀ σ, ∀ l : L, var l = var o → Q σ → Q (σ.make l))
    (hres : ∀ σ, Q σ → ∀ c ∈ cs, ∀ d ∈ ds, Clause.SatOff σ (var o) c ∨ Clause.SatOff σ (var o) d) :
  Reconstructs (fun σ => Q σ ∧ (∀ c ∈ cs, Clause.Sat σ c) ∧ ∀ d ∈ ds, Clause.Sat σ d)
    (cs.map (fun c => ⟨[o], c⟩) ++ ds.map (fun d => ⟨[neg o], d⟩)) Q
  := by
  have hneg := removed hds (fun σ hσ _ _ _ => hQ σ (neg o) (var_neg o) hσ)
  have hpos : Reconstructs
      (fun σ => (Q σ ∧ ∀ d ∈ ds, Clause.Sat σ d) ∧ ∀ c ∈ cs, Clause.Sat σ c)
      (cs.map (fun c => ⟨[o], c⟩)) (fun σ => Q σ ∧ ∀ d ∈ ds, Clause.Sat σ d) := by
    apply removed hcs
    rintro σ ⟨hσ, hsat⟩ c hc hfalse
    refine ⟨hQ σ o rfl hσ, fun d hd => ?_⟩
    -- the clause is false, so that its resolvents satisfy the other clauses
    have hoff := (hres σ hσ c hc d hd).resolve_left (fun hoff => hfalse hoff.sat)
    apply Clause.SatOff.sat (v := var o)
    apply (Clause.satOff_congr _).mpr hoff
    intro v hv
    exact make_apply_of_ne σ o hv
  refine (hpos.trans hneg).congr (fun σ => ?_) (fun _ => Iff.rfl)
  rw [and_assoc, and_comm (a := ∀ d ∈ ds, Clause.Sat σ d)]

end Reconstructs

end Logic
