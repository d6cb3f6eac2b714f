import IgnoreGates.Logic.Definition

/-!
# Reconstruction of an eliminated variable

The clauses with a variable are removed when their resolvents are kept.  A model of the
resolvents is turned into a model of the removed clauses by going through these in turn: where
one of them is false, the literal it has been removed for is made true.
-/

universe u v

namespace Logic

open Literal Assignment

variable {L : Type u} {V : Type v} [Literal L V] [DecidableEq V]

/-- Clauses that have been removed, each with a literal that is made true when the clause is
false.  The last one comes first. -/
def restore (entries : List (L × Clause L)) (σ : Assignment V) : Assignment V :=
  entries.foldr (fun e σ => if Clause.Sat σ e.2 then σ else σ.make e.1) σ

theorem restore_cons (e : L × Clause L) (entries : List (L × Clause L)) (σ : Assignment V) :
  restore (e :: entries) σ = if Clause.Sat (restore entries σ) e.2 then restore entries σ
    else (restore entries σ).make e.1
  := rfl

theorem restore_append (entries entries' : List (L × Clause L)) (σ : Assignment V) :
  restore (entries ++ entries') σ = restore entries (restore entries' σ)
  := List.foldr_append

omit [DecidableEq V] in
/-- Satisfaction apart from a variable does not depend on it. -/
theorem Clause.satOff_congr {σ τ : Assignment V} {v : V} {c : Clause L}
    (h : ∀ w, w ≠ v → σ w = τ w) :
  Clause.SatOff σ v c ↔ Clause.SatOff τ v c
  := by
  apply exists_congr
  intro l
  apply and_congr_right
  intro _
  apply and_congr_right
  intro hne
  rw [value_congr (h _ hne)]

omit [DecidableEq V] in
theorem Clause.SatOff.sat {σ : Assignment V} {v : V} {c : Clause L} (h : Clause.SatOff σ v c) :
  Clause.Sat σ c
  := by
  obtain ⟨l, hl, -, hval⟩ := h
  exact ⟨l, hl, hval⟩

/-- Clauses with one literal are restored by making it true, if at all. -/
theorem restore_same {o : L} {cs : List (Clause L)} (hcs : ∀ c ∈ cs, o ∈ c) (σ : Assignment V) :
  (∀ c ∈ cs, Clause.Sat (restore (cs.map (o, ·)) σ) c)
    ∧ (restore (cs.map (o, ·)) σ = σ
      ∨ restore (cs.map (o, ·)) σ = σ.make o ∧ ∃ c ∈ cs, ¬ Clause.SatOff σ (var o) c)
  := by
  induction cs with
  | nil => exact ⟨by simp, Or.inl rfl⟩
  | cons c cs ih =>
      obtain ⟨hc, hcs⟩ := List.forall_mem_cons.mp hcs
      obtain ⟨hsat, hcases⟩ := ih hcs
      rw [List.map_cons, restore_cons, List.forall_mem_cons]
      dsimp only
      generalize restore (cs.map (o, ·)) σ = τ at hsat hcases
      split
      · next hc =>
          refine ⟨⟨hc, hsat⟩, hcases.imp_right ?_⟩
          rintro ⟨heq, c', hc', hoff⟩
          exact ⟨heq, c', List.mem_cons_of_mem c hc', hoff⟩
      · next hfalse =>
          have hmake : ∀ c' : Clause L, o ∈ c' → Clause.Sat (τ.make o) c' :=
            fun c' hc' => ⟨o, hc', make_value_self τ o⟩
          refine ⟨⟨hmake c hc, fun c' hc' => hmake c' (hcs c' hc')⟩, Or.inr ?_⟩
          obtain rfl | ⟨rfl, -⟩ := hcases
          · exact ⟨rfl, c, List.mem_cons_self, fun hoff => hfalse hoff.sat⟩
          · exact absurd ⟨o, hc, make_value_self σ o⟩ hfalse

/-- When the resolvents of the clauses with a literal and of those with its complement are
satisfied, restoring the clauses satisfies them, and changes at most the variable. -/
theorem restore_resolved {o : L} {P N : List (Clause L)} (hP : ∀ c ∈ P, o ∈ c)
    (hN : ∀ d ∈ N, neg o ∈ d) {σ : Assignment V}
    (hres : ∀ c ∈ P, ∀ d ∈ N, Clause.SatOff σ (var o) c ∨ Clause.SatOff σ (var o) d) :
  let τ := restore (P.map (o, ·) ++ N.map (neg o, ·)) σ
  (∀ c ∈ P, Clause.Sat τ c) ∧ (∀ d ∈ N, Clause.Sat τ d) ∧ ∀ v, v ≠ var o → τ v = σ v
  := by
  have hmake : ∀ (ρ : Assignment V) (l : L), var l = var o → ∀ v, v ≠ var o → ρ.make l v = ρ v := by
    rintro ρ l hl v hv
    apply make_apply_of_ne
    rwa [hl]
  obtain ⟨hsatN, hcasesN⟩ := restore_same hN σ
  rw [restore_append]
  dsimp only
  generalize restore (N.map (neg o, ·)) σ = ρ at hsatN hcasesN
  have hρ : ∀ v, v ≠ var o → ρ v = σ v := by
    intro v hv
    obtain rfl | ⟨rfl, -⟩ := hcasesN
    · rfl
    · exact hmake σ (neg o) (var_neg o) v hv
  obtain ⟨hsatP, hcasesP⟩ := restore_same hP ρ
  generalize restore (P.map (o, ·)) ρ = τ at hsatP hcasesP
  refine ⟨hsatP, ?_, ?_⟩
  · intro d hd
    obtain rfl | ⟨rfl, c, hc, hoff⟩ := hcasesP
    · exact hsatN d hd
    · -- a clause with the literal is false, so that the resolvents satisfy the other clauses
      rw [Clause.satOff_congr hρ] at hoff
      have hd := (hres c hc d hd).resolve_left hoff
      apply Clause.SatOff.sat
      apply (Clause.satOff_congr _).mpr hd
      intro v hv
      rw [hmake ρ o rfl v hv, hρ v hv]
  · intro v hv
    obtain rfl | ⟨rfl, -⟩ := hcasesP
    · exact hρ v hv
    · rw [hmake ρ o rfl v hv, hρ v hv]

/-! ### Gate clauses -/

/-- With a true output that the gate clauses require, the other clauses with its complement are
satisfied when their resolvents with gate clauses are. -/
theorem sat_of_gate {o : L} {P N N' : Set (Clause L)} (hN : ∀ d ∈ N, neg o ∈ d) {τ : Assignment V}
    (ho : τ.value o = true)
    (hdefines : ¬ (Models (τ.make o) (P ∪ N) ∧ Models (τ.make (neg o)) (P ∪ N)))
    (hτ : Models τ (P ∪ N))
    (hres : ∀ c ∈ P, ∀ d ∈ N', Clause.SatOff τ (var o) c ∨ Clause.SatOff τ (var o) d) :
  Models τ N'
  := by
  rw [make_of_value ho, not_and] at hdefines
  have hfalse := hdefines hτ
  simp only [Models, not_forall] at hfalse
  obtain ⟨c, hc, hfalse⟩ := hfalse
  have hcP : c ∈ P := by
    apply hc.resolve_right
    intro hcN
    exact hfalse ⟨neg o, hN c hcN, make_value_self τ (neg o)⟩
  have hoff : ¬ Clause.SatOff τ (var o) c := by
    intro hoff
    apply hfalse
    apply Clause.SatOff.sat
    apply (Clause.satOff_congr _).mpr hoff
    intro v hv
    apply make_apply_of_ne
    rwa [var_neg]
  intro d hd
  exact ((hres c hcP d hd).resolve_left hoff).sat

/-- A model of gate clauses that define their output satisfies the other clauses with the output
when the resolvents of gate clauses with them are satisfied. -/
theorem models_of_gates {o : L} {P N P' N' : Set (Clause L)} (hP : ∀ c ∈ P ∪ P', o ∈ c)
    (hN : ∀ d ∈ N ∪ N', neg o ∈ d) {τ : Assignment V}
    (hdefines : ¬ (Models (τ.make o) (P ∪ N) ∧ Models (τ.make (neg o)) (P ∪ N)))
    (hτ : Models τ (P ∪ N))
    (hres : ∀ c ∈ P, ∀ d ∈ N', Clause.SatOff τ (var o) c ∨ Clause.SatOff τ (var o) d)
    (hres' : ∀ c ∈ P', ∀ d ∈ N, Clause.SatOff τ (var o) c ∨ Clause.SatOff τ (var o) d) :
  Models τ P' ∧ Models τ N'
  := by
  cases ho : τ.value o with
  | true =>
      refine ⟨fun c hc => ⟨o, hP c (Or.inr hc), ho⟩, ?_⟩
      exact sat_of_gate (fun d hd => hN d (Or.inl hd)) ho hdefines hτ hres
  | false =>
      have hneg : τ.value (neg o) = true := by rw [value_neg, ho, Bool.not_false]
      refine ⟨?_, fun d hd => ⟨neg o, hN d (Or.inr hd), hneg⟩⟩
      apply sat_of_gate (o := neg o) (P := N) (N := P) _ hneg
      · rw [Set.union_comm, Literal.neg_neg]
        exact fun h => hdefines ⟨h.2, h.1⟩
      · rwa [Set.union_comm]
      · intro d hd c hc
        rw [var_neg]
        exact (hres' c hc d hd).symm
      · intro c hc
        rw [Literal.neg_neg]
        exact hP c (Or.inl hc)

end Logic
