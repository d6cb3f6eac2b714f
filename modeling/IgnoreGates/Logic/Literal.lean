import Mathlib.Data.Set.Basic
import Mathlib.Logic.Function.Basic

/-!
# Literals, assignments and clauses

A type of literals over a type of variables, the value of a literal under an
assignment, and the satisfaction of clauses (lists of literals) and of sets of clauses.
Flipping one variable changes only the literals of that variable; a clause looks only at
the variables it mentions.
-/

universe u v

namespace Logic

/-- `L` is a type of literals over the variables `V`: a literal has a variable and a sign
(`true` for a negative literal) and is determined by the two, and negation keeps the
variable and flips the sign. -/
class Literal (L : Type u) (V : outParam (Type v)) where
  var : L → V
  sign : L → Bool
  neg : L → L
  var_neg : ∀ l, var (neg l) = var l
  sign_neg : ∀ l, sign (neg l) = !sign l
  ext : ∀ {k l}, var k = var l → sign k = sign l → k = l

namespace Literal

attribute [simp] var_neg sign_neg

variable {L : Type u} {V : Type v} [Literal L V]

/-- Negating twice gives the literal. -/
@[simp]
theorem neg_neg (l : L) :
  neg (neg l) = l
  := by
  apply ext
  · rw [var_neg, var_neg]
  · rw [sign_neg, sign_neg, Bool.not_not]

theorem neg_ne (l : L) :
  neg l ≠ l
  := by
  intro h
  have hs := sign_neg l
  rw [h] at hs
  cases hl : sign l <;> simp [hl] at hs

/-- Two literals of one variable are equal or complementary. -/
theorem eq_or_eq_neg {k l : L} (h : var k = var l) :
  k = l ∨ k = neg l
  := by
  cases hs : sign k == sign l with
  | true =>
      left
      apply ext h
      simpa using hs
  | false =>
      right
      apply ext
      · rw [h, var_neg]
      · rw [sign_neg]
        cases hk : sign k <;> cases hl : sign l <;> simp_all

end Literal

open Literal

/-- An assignment of truth values to variables. -/
abbrev Assignment (V : Type v) := V → Bool

namespace Assignment

variable {L : Type u} {V : Type v} [Literal L V]

/-- The truth value of a literal. -/
def value (σ : Assignment V) (l : L) : Bool :=
  σ (var l) ^^ sign l

/-- The negation has the other value. -/
@[simp]
theorem value_neg (σ : Assignment V) (l : L) :
  σ.value (neg l) = !σ.value l
  := by
  simp [value]

/-- The value of a literal depends on its variable only. -/
theorem value_congr {σ τ : Assignment V} {l : L} (h : σ (var l) = τ (var l)) :
  σ.value l = τ.value l
  := by
  rw [value, value, h]

/-- `σ` and `τ` agree on every variable outside `P`. -/
def AgreeOff (P : Set V) (σ τ : Assignment V) : Prop :=
  ∀ v, v ∉ P → σ v = τ v

theorem AgreeOff.refl (P : Set V) (σ : Assignment V) :
  AgreeOff P σ σ
  := fun _ _ => rfl

theorem AgreeOff.symm {P : Set V} {σ τ : Assignment V} (h : AgreeOff P σ τ) :
  AgreeOff P τ σ
  := fun v hv => (h v hv).symm

theorem AgreeOff.trans {P : Set V} {σ τ ρ : Assignment V}
    (h : AgreeOff P σ τ) (h' : AgreeOff P τ ρ) :
  AgreeOff P σ ρ
  := fun v hv => (h v hv).trans (h' v hv)

/-- Assignments that agree off fewer variables agree off more. -/
theorem AgreeOff.mono {P Q : Set V} {σ τ : Assignment V} (hPQ : P ⊆ Q) (h : AgreeOff P σ τ) :
  AgreeOff Q σ τ
  := fun v hv => h v (fun hP => hv (hPQ hP))

variable [DecidableEq V]

/-- The assignment that makes the literal `l` true and is `σ` elsewhere. -/
def make (σ : Assignment V) (l : L) : Assignment V :=
  Function.update σ (var l) (!sign l)

/-- The literal is true behind `make`. -/
@[simp]
theorem make_value_self (σ : Assignment V) (l : L) :
  (σ.make l).value l = true
  := by
  simp [make, value]

theorem make_apply_of_ne (σ : Assignment V) (l : L) {v : V} (h : v ≠ var l) :
  σ.make l v = σ v
  := Function.update_of_ne h _ _

/-- Literals of other variables keep their value. -/
theorem make_value_of_ne (σ : Assignment V) {k l : L} (h : var k ≠ var l) :
  (σ.make l).value k = σ.value k
  := by
  apply value_congr
  apply make_apply_of_ne σ l h

/-- Making a true literal true changes nothing. -/
theorem make_of_value {σ : Assignment V} {l : L} (h : σ.value l = true) :
  σ.make l = σ
  := by
  apply Function.update_eq_self_iff.mpr
  cases hs : sign l <;> simp_all [value]

/-- Making `l` true makes no literal false except its complement. -/
theorem value_make_of_ne_neg {σ : Assignment V} {k l : L} (hk : k ≠ neg l)
    (h : σ.value k = true) :
  (σ.make l).value k = true
  := by
  by_cases hv : var k = var l
  · obtain rfl | rfl := eq_or_eq_neg hv
    · apply make_value_self
    · exact absurd rfl hk
  · rw [make_value_of_ne σ hv, h]

end Assignment

/-- A clause: the disjunction of its literals. -/
abbrev Clause (L : Type u) := List L

namespace Clause

variable {L : Type u} {V : Type v} [Literal L V]

/-- `σ` satisfies the clause `c`. -/
def Sat (σ : Assignment V) (c : Clause L) : Prop :=
  ∃ l ∈ c, σ.value l = true

instance (σ : Assignment V) (c : Clause L) : Decidable (Sat σ c) :=
  inferInstanceAs (Decidable (∃ l ∈ c, σ.value l = true))

/-- The clause `c` has a literal of the variable `v`. -/
def Mentions (c : Clause L) (v : V) : Prop :=
  ∃ l ∈ c, var l = v

theorem mentions_of_mem {c : Clause L} {l : L} (h : l ∈ c) :
  Mentions c (var l)
  := ⟨l, h, rfl⟩

theorem not_sat_iff {σ : Assignment V} {c : Clause L} :
  ¬ Sat σ c ↔ ∀ l ∈ c, σ.value l = false
  := by
  simp [Sat]

/-- Two assignments that agree on the variables of a clause agree on the clause. -/
theorem sat_congr {σ τ : Assignment V} {c : Clause L} (h : ∀ v, Mentions c v → σ v = τ v) :
  Sat σ c ↔ Sat τ c
  := by
  have hval : ∀ l ∈ c, σ.value l = τ.value l := by
    intro l hl
    apply Assignment.value_congr
    apply h _ (mentions_of_mem hl)
  constructor
  · rintro ⟨l, hl, hσ⟩
    exact ⟨l, hl, by rw [← hval l hl, hσ]⟩
  · rintro ⟨l, hl, hτ⟩
    exact ⟨l, hl, by rw [hval l hl, hτ]⟩

/-- A clause that does not mention the variable is satisfied as before. -/
theorem sat_make_of_not_mentions [DecidableEq V] {σ : Assignment V} {c : Clause L} {l : L}
    (h : ¬ Mentions c (var l)) :
  Sat (σ.make l) c ↔ Sat σ c
  := by
  apply sat_congr
  intro v hv
  apply Assignment.make_apply_of_ne
  rintro rfl
  exact h hv

/-- Making `l` true keeps a clause without the complement of `l` satisfied. -/
theorem sat_make_of_neg_not_mem [DecidableEq V] {σ : Assignment V} {c : Clause L} {l : L}
    (hl : neg l ∉ c) (h : Sat σ c) :
  Sat (σ.make l) c
  := by
  obtain ⟨k, hk, hv⟩ := h
  use k, hk
  apply Assignment.value_make_of_ne_neg _ hv
  rintro rfl
  exact hl hk

end Clause

/-- `σ` satisfies every clause of the set `F`. -/
def Models {L : Type u} {V : Type v} [Literal L V] (σ : Assignment V) (F : Set (Clause L)) : Prop :=
  ∀ c ∈ F, Clause.Sat σ c

namespace Models

variable {L : Type u} {V : Type v} [Literal L V]

theorem mono {σ : Assignment V} {F G : Set (Clause L)} (hFG : F ⊆ G) (h : Models σ G) :
  Models σ F
  := fun c hc => h c (hFG hc)

theorem union_iff {σ : Assignment V} {F G : Set (Clause L)} :
  Models σ (F ∪ G) ↔ Models σ F ∧ Models σ G
  := by
  constructor
  · intro h
    exact ⟨h.mono Set.subset_union_left, h.mono Set.subset_union_right⟩
  · rintro ⟨hF, hG⟩ c (hc | hc)
    · exact hF c hc
    · exact hG c hc

/-- Assignments that agree on every variable of `F` satisfy it together. -/
theorem congr {σ τ : Assignment V} {F : Set (Clause L)}
    (h : ∀ c ∈ F, ∀ v, Clause.Mentions c v → σ v = τ v) :
  Models σ F ↔ Models τ F
  := by
  apply forall₂_congr
  intro c hc
  apply Clause.sat_congr (h c hc)

/-- Clauses that do not mention the variable are satisfied as before. -/
theorem make_of_not_mentions [DecidableEq V] {σ : Assignment V} {F : Set (Clause L)} {l : L}
    (h : ∀ c ∈ F, ¬ Clause.Mentions c (var l)) :
  Models (σ.make l) F ↔ Models σ F
  := by
  apply forall₂_congr
  intro c hc
  apply Clause.sat_make_of_not_mentions (h c hc)

end Models

/-- Every assignment that satisfies `F` satisfies the clause `c`. -/
def Entails {L : Type u} {V : Type v} [Literal L V] (F : Set (Clause L)) (c : Clause L) : Prop :=
  ∀ σ : Assignment V, Models σ F → Clause.Sat σ c

/-- Some assignment satisfies `F`. -/
def Satisfiable {L : Type u} {V : Type v} [Literal L V] (F : Set (Clause L)) : Prop :=
  ∃ σ : Assignment V, Models σ F

/-- Fewer clauses have no fewer models. -/
theorem Satisfiable.mono {L : Type u} {V : Type v} [Literal L V] {F G : Set (Clause L)}
    (hFG : F ⊆ G) (h : Satisfiable G) :
  Satisfiable F
  := by
  obtain ⟨σ, hσ⟩ := h
  exact ⟨σ, hσ.mono hFG⟩

end Logic
