import Mathlib.Data.List.Pairwise
import Mathlib.Data.Set.Lattice
import IgnoreGates.Logic.Literal

/-!
# Clause sets that define a variable

A set of clauses defines a variable when no assignment of the other variables satisfies it
with both values of the variable, and is total in it when every assignment of the other
variables satisfies it with one of the two values.

* Clauses that are pairwise blocked on a literal are total in its variable.
* Total clause sets in which no later one mentions the output of an earlier one are
  satisfied together by a choice of the outputs.
* Defining clause sets in which no earlier one mentions the output of a later one
  determine the outputs together.
* The clauses in which an output occurs positively may be dropped when the rest of the
  formula uses the output in one polarity only.
-/

universe u v

namespace Logic

open Literal Assignment

variable {L : Type u} {V : Type v}

section Define

variable [Literal L V] [DecidableEq V]

/-- No assignment of the variables other than `v` satisfies `F` with both values of `v`. -/
def Defines (F : Set (Clause L)) (v : V) : Prop :=
  ∀ σ : Assignment V,
    ¬ (Models (Function.update σ v true) F ∧ Models (Function.update σ v false) F)

/-- Every assignment of the variables other than `v` satisfies `F` with one of the values
of `v`. -/
def Total (F : Set (Clause L)) (v : V) : Prop :=
  ∀ σ : Assignment V, ∃ b, Models (Function.update σ v b) F

theorem defines_iff {F : Set (Clause L)} {l : L} :
  Defines F (var l) ↔ ∀ σ : Assignment V, ¬ (Models (σ.make l) F ∧ Models (σ.make (neg l)) F)
  := by
  unfold Defines Assignment.make
  apply forall_congr'
  intro σ
  rw [Literal.sign_neg, var_neg, Bool.not_not]
  cases sign l
  · rfl
  · rw [Bool.not_true, and_comm]

/-- `σ` satisfies the clause `c` by a literal of a variable other than `v`. -/
def Clause.SatOff (σ : Assignment V) (v : V) (c : Clause L) : Prop :=
  ∃ l ∈ c, var l ≠ v ∧ σ.value l = true

theorem Clause.SatOff.sat_update {σ : Assignment V} {v : V} {c : Clause L}
    (h : Clause.SatOff σ v c) (b : Bool) :
  Clause.Sat (Function.update σ v b) c
  := by
  obtain ⟨l, hl, hlv, hval⟩ := h
  exact ⟨l, hl, by rwa [value, Function.update_of_ne hlv]⟩

omit [DecidableEq V] in
/-- Two assignments that satisfy a clause without complementary literals and differ only in
one variable satisfy it apart from this variable. -/
theorem Clause.satOff_of_sat {c : Clause L} (hc : ∀ l ∈ c, neg l ∉ c) {v : V}
    {σ τ : Assignment V} (hne : σ v ≠ τ v) (hagree : ∀ w, w ≠ v → σ w = τ w)
    (hσ : Clause.Sat σ c) (hτ : Clause.Sat τ c) :
  Clause.SatOff σ v c
  := by
  obtain ⟨l, hl, hlval⟩ := hσ
  obtain ⟨k, hk, hkval⟩ := hτ
  by_cases hlv : var l = v
  · by_cases hkv : var k = v
    · exfalso
      obtain rfl | rfl := eq_or_eq_neg (hlv.trans hkv.symm)
      · rw [value, hlv] at hlval hkval
        apply hne
        exact Bool.xor_left_inj.mp (hlval.trans hkval.symm)
      · exact hc k hk hl
    · exact ⟨k, hk, hkv, by rwa [value, hagree _ hkv]⟩
  · exact ⟨l, hl, hlv, hlval⟩

/-- A set without tautologies defines a variable exactly when its clauses cannot be
satisfied together without that variable. -/
theorem defines_iff_satOff {F : Set (Clause L)} {v : V} (hF : ∀ c ∈ F, ∀ l ∈ c, neg l ∉ c) :
  Defines F v ↔ ∀ σ : Assignment V, ¬ ∀ c ∈ F, Clause.SatOff σ v c
  := by
  apply forall_congr'
  intro σ
  apply not_congr
  constructor
  · rintro ⟨htrue, hfalse⟩ c hc
    have hoff : Clause.SatOff (Function.update σ v true) v c := by
      apply Clause.satOff_of_sat (hF c hc) _ _ (htrue c hc) (hfalse c hc)
      · simp
      · intro w hw
        rw [Function.update_of_ne hw, Function.update_of_ne hw]
    obtain ⟨l, hl, hlv, hval⟩ := hoff
    exact ⟨l, hl, hlv, by rwa [value, Function.update_of_ne hlv] at hval⟩
  · intro h
    exact ⟨fun c hc => (h c hc).sat_update true, fun c hc => (h c hc).sat_update false⟩

/-- A set defines a variable if it has a clause each of whose other literals is refuted by a
clause of the set that has, apart from the variable, only the complement. -/
theorem defines_of_refuted {F : Set (Clause L)} {v : V} (hF : ∀ c ∈ F, ∀ l ∈ c, neg l ∉ c)
    {d : Clause L} (hd : d ∈ F)
    (h : ∀ l ∈ d, var l ≠ v → ∃ c ∈ F, ∀ k ∈ c, var k ≠ v → k = neg l) :
  Defines F v
  := by
  apply (defines_iff_satOff hF).mpr
  intro σ hσ
  obtain ⟨l, hl, hlv, hval⟩ := hσ d hd
  obtain ⟨c, hc, hneg⟩ := h l hl hlv
  obtain ⟨k, hk, hkv, hkval⟩ := hσ c hc
  rw [hneg k hk hkv, value_neg, hval] at hkval
  cases hkval

/-! ### Blocked clause sets -/

/-- The clauses `c` and `d` resolve on `o` to a tautology: some literal of `c` other than
`o` has its complement in `d`. -/
def Clause.Blocked (o : L) (c d : Clause L) : Prop :=
  ∃ l ∈ c, l ≠ o ∧ neg l ∈ d

omit [DecidableEq V] in
theorem Clause.Blocked.symm {o : L} {c d : Clause L} (h : Clause.Blocked o c d) :
  Clause.Blocked (neg o) d c
  := by
  obtain ⟨l, hl, hlo, hld⟩ := h
  refine ⟨neg l, hld, ?_, ?_⟩
  · intro heq
    apply hlo
    rw [← Literal.neg_neg l, heq, Literal.neg_neg]
  · rwa [Literal.neg_neg]

/-- If a clause is falsified with `o` false, every clause it is blocked with on `o` is
satisfied with `o` true. -/
theorem Clause.Blocked.sat {o : L} {c d : Clause L} (h : Clause.Blocked o c d)
    {σ : Assignment V} (hc : ¬ Clause.Sat (σ.make (neg o)) c) :
  Clause.Sat (σ.make o) d
  := by
  obtain ⟨l, hl, hlo, hld⟩ := h
  use neg l, hld
  have hval := Clause.not_sat_iff.mp hc l hl
  have hvar : var l ≠ var o := by
    intro hv
    obtain rfl | rfl := eq_or_eq_neg hv
    · exact hlo rfl
    · rw [make_value_self] at hval
      cases hval
  rw [value_neg, make_value_of_ne σ hvar]
  rw [make_value_of_ne σ (by rwa [var_neg])] at hval
  rw [hval, Bool.not_false]

/-- Clauses with `neg o` that are blocked on `o` with every clause with `o` form a set that
is total in the variable of `o`. -/
theorem total_of_blocked {o : L} {fwd bwd : Set (Clause L)}
    (hfwd : ∀ d ∈ fwd, neg o ∈ d) (hbwd : ∀ c ∈ bwd, o ∈ c)
    (hblocked : ∀ c ∈ bwd, ∀ d ∈ fwd, Clause.Blocked o c d) :
  Total (fwd ∪ bwd) (var o)
  := by
  intro σ
  have hcases : Models (σ.make o) (fwd ∪ bwd) ∨ Models (σ.make (neg o)) (fwd ∪ bwd) := by
    by_cases hb : Models (σ.make (neg o)) bwd
    · right
      apply Models.union_iff.mpr
      refine ⟨?_, hb⟩
      intro d hd
      exact ⟨neg o, hfwd d hd, make_value_self σ (neg o)⟩
    · left
      apply Models.union_iff.mpr
      constructor
      · simp only [Models, not_forall] at hb
        obtain ⟨c, hc, hsat⟩ := hb
        intro d hd
        apply (hblocked c hc d hd).sat hsat
      · intro c hc
        exact ⟨o, hbwd c hc, make_value_self σ o⟩
  obtain h | h := hcases
  · exact ⟨!sign o, h⟩
  · use sign o
    have heq : σ.make (neg o) = Function.update σ (var o) (sign o) := by
      rw [Assignment.make, Literal.sign_neg, var_neg, Bool.not_not]
    rw [← heq]
    exact h

/-- A set that defines a variable and is total in it is satisfied by exactly one value of the
variable. -/
theorem existsUnique_of_defines {F : Set (Clause L)} {v : V} (hdefines : Defines F v)
    (htotal : Total F v) (σ : Assignment V) :
  ∃! b, Models (Function.update σ v b) F
  := by
  obtain ⟨b, hb⟩ := htotal σ
  refine ⟨b, hb, ?_⟩
  intro b' hb'
  by_contra hne
  apply hdefines σ
  cases b <;> cases b' <;> simp_all

omit [DecidableEq V] in
/-- Clauses with the complement of a literal hold together with the literal exactly when each
of them is satisfied apart from it. -/
theorem models_make_iff {o : L} {fwd : Set (Clause L)} (hfwd : ∀ d ∈ fwd, neg o ∈ d)
    (htaut : ∀ d ∈ fwd, ∀ l ∈ d, neg l ∉ d) {σ : Assignment V} (ho : σ.value o = true) :
  Models σ fwd ↔ ∀ d ∈ fwd, Clause.SatOff σ (var o) d
  := by
  apply forall₂_congr
  intro d hd
  constructor
  · rintro ⟨l, hl, hval⟩
    refine ⟨l, hl, ?_, hval⟩
    intro hvar
    obtain rfl | rfl := eq_or_eq_neg hvar
    · exact htaut d hd l hl (hfwd d hd)
    · rw [value_neg, ho] at hval
      cases hval
  · rintro ⟨l, hl, -, hval⟩
    exact ⟨l, hl, hval⟩

/-- The two sides of a definition that is satisfied by exactly one value of its output say
that the output is true exactly when the clauses with its complement are satisfied apart from
it. -/
theorem models_union_iff {o : L} {fwd bwd : Set (Clause L)}
    (hfwd : ∀ d ∈ fwd, neg o ∈ d) (hbwd : ∀ c ∈ bwd, o ∈ c)
    (htaut : ∀ d ∈ fwd, ∀ l ∈ d, neg l ∉ d) (hdefines : Defines (fwd ∪ bwd) (var o))
    (htotal : Total (fwd ∪ bwd) (var o)) (σ : Assignment V) :
  Models σ (fwd ∪ bwd) ↔ (σ.value o = true ↔ ∀ d ∈ fwd, Clause.SatOff σ (var o) d)
  := by
  have htrue : ∀ τ : Assignment V, τ.value o = true →
      (Models τ (fwd ∪ bwd) ↔ ∀ d ∈ fwd, Clause.SatOff τ (var o) d) := by
    intro τ hτ
    rw [Models.union_iff, models_make_iff hfwd htaut hτ, and_iff_left_iff_imp]
    intro _ c hc
    exact ⟨o, hbwd c hc, hτ⟩
  cases ho : σ.value o with
  | true =>
      rw [htrue σ ho]
      simp
  | false =>
      have hσ : σ.make (neg o) = σ := by
        apply make_of_value
        rw [value_neg, ho, Bool.not_false]
      -- of the two values of the output exactly the other one satisfies the clauses
      have hflip : Models σ (fwd ∪ bwd) ↔ ¬ Models (σ.make o) (fwd ∪ bwd) := by
        constructor
        · intro hfalse hmake
          apply (Logic.defines_iff.mp hdefines) σ
          rw [hσ]
          exact ⟨hmake, hfalse⟩
        · intro hmake
          obtain ⟨b, hb⟩ := htotal σ
          rw [← hσ, Assignment.make, Literal.sign_neg, var_neg, Bool.not_not]
          rw [Assignment.make] at hmake
          cases hs : sign o <;> cases b <;> simp_all
      have hoff : (∀ d ∈ fwd, Clause.SatOff (σ.make o) (var o) d)
          ↔ ∀ d ∈ fwd, Clause.SatOff σ (var o) d := by
        simp only [Clause.SatOff]
        apply forall₂_congr
        intro d _
        apply exists_congr
        intro l
        apply and_congr_right
        intro _
        apply and_congr_right
        intro hvar
        rw [make_value_of_ne σ hvar]
      rw [hflip, htrue _ (make_value_self σ o), hoff]
      simp

end Define

/-! ### Families of definitions -/

/-- A definition: an output variable and the clauses that constrain it. -/
abbrev Definition (L : Type u) (V : Type v) := V × Set (Clause L)

/-- The outputs of a family of definitions. -/
def outputs (gs : List (Definition L V)) : Set V :=
  {v | v ∈ gs.map Prod.fst}

/-- The clauses of a family of definitions. -/
def clausesOf (gs : List (Definition L V)) : Set (Clause L) :=
  {c | ∃ g ∈ gs, c ∈ g.2}

theorem clausesOf_cons (g : Definition L V) (gs : List (Definition L V)) :
  clausesOf (g :: gs) = g.2 ∪ clausesOf gs
  := by
  ext c
  simp [clausesOf]

theorem outputs_cons (g : Definition L V) (gs : List (Definition L V)) :
  outputs (g :: gs) = insert g.1 (outputs gs)
  := by
  ext v
  simp [outputs]

variable [Literal L V]

/-- No later definition mentions the output of an earlier one. -/
def Layered (gs : List (Definition L V)) : Prop :=
  gs.Pairwise (fun g h => ∀ c ∈ h.2, ¬ Clause.Mentions c g.1)

/-- Total definitions, none of which mentions the output of an earlier one, are satisfied
together by a choice of their outputs. -/
theorem exists_models_of_layered [DecidableEq V] {gs : List (Definition L V)} (hlayered : Layered gs)
    (htotal : ∀ g ∈ gs, Total g.2 g.1) (σ : Assignment V) :
  ∃ τ, AgreeOff (outputs gs) σ τ ∧ Models τ (clausesOf gs)
  := by
  induction gs with
  | nil =>
      use σ, AgreeOff.refl _ σ
      rintro c ⟨g, hg, -⟩
      cases hg
  | cons g gs ih =>
      obtain ⟨hg, hgs⟩ := List.pairwise_cons.mp hlayered
      obtain ⟨τ, hagree, hτ⟩ := ih hgs (fun h hh => htotal h (List.mem_cons_of_mem g hh))
      obtain ⟨b, hb⟩ := htotal g List.mem_cons_self τ
      use Function.update τ g.1 b
      rw [outputs_cons, clausesOf_cons]
      constructor
      · apply (hagree.mono (Set.subset_insert _ _)).trans
        intro v hv
        symm
        apply Function.update_of_ne
        rintro rfl
        exact hv (Set.mem_insert _ _)
      · apply Models.union_iff.mpr
        use hb
        apply (Models.congr _).mpr hτ
        rintro c ⟨h, hh, hc⟩ v hv
        apply Function.update_of_ne
        rintro rfl
        exact hg h hh c hc hv

/-- Assignments that agree off the outputs of definitions, none of which mentions the output
of a later one, are equal if they agree on each output once they agree on the other variables
that its definition mentions. -/
theorem eq_of_determined {gs : List (Definition L V)}
    (hordered : gs.Pairwise (fun g h => ∀ c ∈ g.2, ¬ Clause.Mentions c h.1)) {σ τ : Assignment V}
    (hdet : ∀ g ∈ gs, (∀ c ∈ g.2, ∀ w, Clause.Mentions c w → w ≠ g.1 → σ w = τ w) → σ g.1 = τ g.1)
    (hagree : AgreeOff (outputs gs) σ τ) :
  σ = τ
  := by
  induction gs with
  | nil =>
      funext v
      exact hagree v (by simp [outputs])
  | cons g gs ih =>
      obtain ⟨hg, hgs⟩ := List.pairwise_cons.mp hordered
      rw [outputs_cons] at hagree
      apply ih hgs (fun h hh => hdet h (List.mem_cons_of_mem g hh))
      intro v hv
      by_cases hvg : v = g.1
      · rw [hvg]
        apply hdet g List.mem_cons_self
        intro c hc w hw hwg
        apply hagree
        rintro (rfl | hwo)
        · exact hwg rfl
        · obtain ⟨h, hh, rfl⟩ := List.mem_map.mp hwo
          exact hg h hh c hc hw
      · apply hagree
        rintro (rfl | hvo)
        · exact hvg rfl
        · exact hv hvo

/-! ### Dropping one side of a definition -/

/-- A definition with its two sides kept apart: the clauses `fwd` contain the complement of
the output literal `out`, the clauses `bwd` contain `out`, and `both` says whether `bwd` is
kept. -/
structure Sides (L : Type u) where
  out : L
  fwd : Set (Clause L)
  bwd : Set (Clause L)
  both : Prop

namespace Sides

variable (g : Sides L)

/-- The clauses of the definition that are kept. -/
def kept : Set (Clause L) :=
  {c | c ∈ g.fwd ∨ c ∈ g.bwd ∧ g.both}

/-- All clauses of the definition. -/
def all : Set (Clause L) :=
  g.fwd ∪ g.bwd

/-- The sides belong to the output and are pairwise blocked on it. -/
structure Wf : Prop where
  fwd_mem : ∀ d ∈ g.fwd, neg g.out ∈ d
  bwd_mem : ∀ c ∈ g.bwd, g.out ∈ c
  blocked : ∀ c ∈ g.bwd, ∀ d ∈ g.fwd, Clause.Blocked g.out c d

end Sides

/-- The definitions of `gs` are dropped on one side only where that side is not needed: no
later definition mentions an earlier output, and the complement of an output whose `bwd`
clauses are dropped occurs neither in `R` nor in a kept clause of an earlier definition. -/
def Droppable : Set (Clause L) → List (Sides L) → Prop
  | _, [] => True
  | R, g :: gs =>
      (¬ g.both → ∀ c ∈ R, neg g.out ∉ c)
        ∧ (∀ h ∈ gs, ∀ c ∈ h.all, ¬ Clause.Mentions c (var g.out))
        ∧ Droppable (R ∪ g.kept) gs

/-- Definitions are droppable when this can be checked for each of them against `R` and for
each pair of them. -/
theorem droppable_of_pairwise {gs : List (Sides L)} {R : Set (Clause L)}
    (hR : ∀ g ∈ gs, ¬ g.both → ∀ c ∈ R, neg g.out ∉ c)
    (hpair : gs.Pairwise (fun g h => (∀ c ∈ h.all, ¬ Clause.Mentions c (var g.out))
      ∧ (¬ h.both → ∀ c ∈ g.kept, neg h.out ∉ c))) :
  Droppable R gs
  := by
  induction gs generalizing R with
  | nil => exact trivial
  | cons g gs ih =>
      obtain ⟨hg, hgs⟩ := List.pairwise_cons.mp hpair
      refine ⟨hR g List.mem_cons_self, fun h hh => (hg h hh).1, ?_⟩
      apply ih _ hgs
      rintro h hh hboth c (hc | hc)
      · exact hR h (List.mem_cons_of_mem g hh) hboth c hc
      · exact (hg h hh).2 hboth c hc

/-- Where the `bwd` side of a definition fails, making its output true satisfies both
sides. -/
theorem Sides.Wf.models_all [DecidableEq V] {g : Sides L} (hg : g.Wf) {σ : Assignment V}
    (hbwd : ¬ Models σ g.bwd) :
  Models (σ.make g.out) g.all
  := by
  simp only [Models, not_forall] at hbwd
  obtain ⟨c, hc, hsat⟩ := hbwd
  have hout : σ.value (neg g.out) = true := by
    rw [value_neg, Clause.not_sat_iff.mp hsat _ (hg.bwd_mem c hc), Bool.not_false]
  rw [← make_of_value hout] at hsat
  apply Models.union_iff.mpr
  constructor
  · intro d hd
    apply (hg.blocked c hc d hd).sat hsat
  · intro c' hc'
    exact ⟨g.out, hg.bwd_mem c' hc', make_value_self σ g.out⟩

/-- A model of `R` and of the kept clauses of droppable definitions can be changed on the
outputs into a model of `R` and of all their clauses. -/
theorem exists_models_of_droppable [DecidableEq V] {gs : List (Sides L)} {R : Set (Clause L)}
    (hdrop : Droppable R gs) (hwf : ∀ g ∈ gs, g.Wf) {σ : Assignment V}
    (hR : Models σ R) (hkept : ∀ g ∈ gs, Models σ g.kept) :
  ∃ τ : Assignment V, Models τ R ∧ ∀ g ∈ gs, Models τ g.all
  := by
  induction gs generalizing R with
  | nil => exact ⟨σ, hR, fun g hg => absurd hg (List.not_mem_nil)⟩
  | cons g gs ih =>
      obtain ⟨hneg, hlater, hrest⟩ := hdrop
      have hg := hwf g List.mem_cons_self
      have hRg : Models σ (R ∪ g.kept) :=
        Models.union_iff.mpr ⟨hR, hkept g List.mem_cons_self⟩
      obtain ⟨τ, hτR, hτ⟩ := ih hrest (fun h hh => hwf h (List.mem_cons_of_mem g hh)) hRg
        (fun h hh => hkept h (List.mem_cons_of_mem g hh))
      obtain ⟨hτR, hτg⟩ := Models.union_iff.mp hτR
      have hfwd : Models τ g.fwd := hτg.mono (fun c hc => Or.inl hc)
      by_cases hbwd : Models τ g.bwd
      · use τ, hτR
        intro h hh
        obtain rfl | hh := List.mem_cons.mp hh
        · apply Models.union_iff.mpr ⟨hfwd, hbwd⟩
        · exact hτ h hh
      · have hboth : ¬ g.both := by
          intro hb
          exact hbwd (hτg.mono (fun c hc => Or.inr ⟨hc, hb⟩))
        use τ.make g.out
        constructor
        · intro c hc
          apply Clause.sat_make_of_neg_not_mem (hneg hboth c hc) (hτR c hc)
        · intro h hh
          obtain rfl | hh := List.mem_cons.mp hh
          · apply hg.models_all hbwd
          · apply (Models.make_of_not_mentions (hlater h hh)).mpr (hτ h hh)

end Logic
