import Mathlib.Algebra.Group.Nat.Defs
import Mathlib.Data.List.GetD
import IgnoreGates.Cadical.Search
import IgnoreGates.Logic.Definition

/-!
# Propagation during elimination

During an elimination round every unassigned literal is connected to the irredundant clauses
it occurs in, and the watches are not used.  Units are assigned at the root level, and may be
propagated along the occurrences, which derives further units and marks the clauses they
satisfy as garbage.  Values are never taken back, and garbage is never brought back.
-/

namespace Cadical

open Logic

/-- The options that elimination reads. -/
structure ElimOptions where
  elimsubst : Bool
  elimequivs : Bool
  elimands : Bool
  elimites : Bool
  elimxors : Bool
  elimxorlim : Nat
  elimclslim : Nat
  elimbackward : Bool
  elimocclim : Nat
  /-- The ranges of the options in the table of options. -/
  elimxorlim_le : elimxorlim ≤ 27
  elimocclim_le : elimocclim ≤ 2 * 10 ^ 9

/-- The irredundant clauses, their occurrences and the values of the variables at the root
level, with the two stacks of `struct Eliminator`.  A clause is a position in `clauses`. -/
structure Eliminator where
  clauses : List (List Lit)
  garbage : Nat → Bool
  gate : Nat → Bool
  occs : Lit → List Nat
  vals : Nat → Option Bool
  unsat : Bool
  marks : Nat → Int
  /-- `eliminator.marked` -/
  markedStack : List Lit
  /-- `eliminator.gates` -/
  gates : List Nat
  /-- `lim.elimbound` -/
  elimbound : Int
  opts : ElimOptions

namespace Eliminator

variable (s : Eliminator)

/-- The literals of a clause. -/
def clause (c : Nat) : List Lit :=
  s.clauses.getD c []

/-- `val`: no value stands for zero. -/
def val (lit : Lit) : Option Bool :=
  (s.vals lit.vidx).map (· ^^ Literal.sign lit)

/-- The unassigned literals of a clause. -/
def free (c : Nat) : List Lit :=
  (s.clause c).filter (fun l => s.val l = none)

/-- `mark_garbage` -/
def markGarbage (c : Nat) : Eliminator :=
  { s with garbage := Function.update s.garbage c true }

/-- `assign_unit` -/
def assignUnit (lit : Lit) : Eliminator :=
  { s with vals := Function.update s.vals lit.vidx (some (!Literal.sign lit)) }

/-- `learn_empty_clause` -/
def learnEmptyClause : Eliminator :=
  { s with unsat := true }

/-- `marked`: the mark of the variable, negated for a negative literal. -/
def marked (lit : Lit) : Int :=
  if lit.int < 0 then -s.marks lit.vidx else s.marks lit.vidx

/-- `mark` -/
def mark (lit : Lit) : Eliminator :=
  { s with marks := Function.update s.marks lit.vidx (if lit.int < 0 then -1 else 1) }

/-- `unmark` -/
def unmark (lit : Lit) : Eliminator :=
  { s with marks := Function.update s.marks lit.vidx 0 }

/-! ### Values -/

variable {s}

theorem val_eq_none_iff {lit : Lit} :
  s.val lit = none ↔ s.vals lit.vidx = none
  := by
  rw [val, Option.map_eq_none_iff]

theorem val_eq_none_congr {k l : Lit} (h : k.vidx = l.vidx) :
  s.val k = none ↔ s.val l = none
  := by
  rw [val_eq_none_iff, val_eq_none_iff, h]

/-- The value of the complement is the opposite one. -/
@[simp]
theorem val_neg (lit : Lit) :
  s.val (-lit) = (s.val lit).map (!·)
  := by
  have hsign : Literal.sign (-lit) = !Literal.sign lit := Literal.sign_neg lit
  rw [val, val, Lit.vidx_neg, hsign, Option.map_map]
  congr 1
  funext b
  simp

theorem val_assignUnit_self (lit : Lit) :
  (s.assignUnit lit).val lit = some true
  := by
  simp [val, assignUnit]

@[simp]
theorem val_markGarbage (c : Nat) (lit : Lit) :
  (s.markGarbage c).val lit = s.val lit
  := rfl

@[simp]
theorem clause_markGarbage (c d : Nat) :
  (s.markGarbage c).clause d = s.clause d
  := rfl

/-- Marking a clause as garbage makes no other clause garbage. -/
theorem garbage_markGarbage {c d : Nat} :
  (s.markGarbage c).garbage d = true ↔ d = c ∨ s.garbage d = true
  := by
  simp only [markGarbage, Function.update_apply]
  split
  · next heq => simp [heq]
  · next hne => simp [hne]

variable (s)

/-- The assignment has the values of the root level. -/
def Extends (σ : Assignment Nat) : Prop :=
  ∀ v b, s.vals v = some b → σ v = b

/-- The assignment has the values of the root level and satisfies the clauses that are not
garbage. -/
structure Model (σ : Assignment Nat) : Prop where
  root : s.Extends σ
  sat : ∀ c < s.clauses.length, s.garbage c = false → Clause.Sat σ (s.clause c)

/-- Some literal of the clause is true at the root level. -/
def Satisfied (c : List Lit) : Prop :=
  ∃ lit ∈ c, s.val lit = some true

instance (c : List Lit) : Decidable (s.Satisfied c) :=
  inferInstanceAs (Decidable (∃ lit ∈ c, s.val lit = some true))

variable {s}

/-- An assignment that extends the root-level values gives every assigned literal its value. -/
theorem Extends.value {σ : Assignment Nat} (h : s.Extends σ) {lit : Lit} {b : Bool}
    (hval : s.val lit = some b) :
  σ.value lit = b
  := by
  obtain ⟨a, ha, rfl⟩ := Option.map_eq_some_iff.mp hval
  change (σ lit.vidx ^^ Literal.sign lit) = _
  rw [h _ a ha]

/-- An assignment that extends the root-level values satisfies the satisfied clauses. -/
theorem Extends.sat {σ : Assignment Nat} (h : s.Extends σ) {c : List Lit}
    (hc : s.Satisfied c) :
  Clause.Sat σ c
  := by
  obtain ⟨lit, hlit, hval⟩ := hc
  exact ⟨lit, hlit, h.value hval⟩

/-- An unassigned literal can be given either value. -/
theorem Extends.make {σ : Assignment Nat} (h : s.Extends σ) {lit : Lit}
    (hlit : s.val lit = none) :
  s.Extends (σ.make lit)
  := by
  intro v b hv
  rw [Assignment.make_apply_of_ne]
  · exact h v b hv
  · rintro rfl
    rw [val_eq_none_iff] at hlit
    rw [show s.vals lit.vidx = some b from hv] at hlit
    cases hlit

/-- An assignment that satisfies the unit extends the values also after the unit has been assigned.
-/
theorem assignUnit_extends {σ : Assignment Nat} (h : s.Extends σ) {lit : Lit}
    (hlit : σ.value lit = true) :
  (s.assignUnit lit).Extends σ
  := by
  intro v b hv
  simp only [assignUnit, Function.update_apply] at hv
  split at hv
  · next heq =>
      cases hv
      subst heq
      change (σ lit.vidx ^^ Literal.sign lit) = true at hlit
      cases hs : Literal.sign lit <;> simp_all
  · exact h v b hv

variable (s) in
/-- The clauses have no repeated variables, and an unassigned literal is connected once to
each clause it occurs in, as far as these are not garbage. -/
structure Connected : Prop where
  mem : ∀ lit, ∀ c ∈ s.occs lit, lit ∈ s.clause c
  full : ∀ c, s.garbage c = false → ∀ lit ∈ s.clause c, s.val lit = none → c ∈ s.occs lit
  occs_nodup : ∀ lit, (s.occs lit).Nodup
  nodup : ∀ c, ((s.clause c).map Lit.vidx).Nodup

/-! ### Growing states -/

/-- `t` is reached from `s`: the clauses stay connected as they are, and values and garbage
marks are only added. -/
structure Later (s t : Eliminator) : Prop where
  clauses : t.clauses = s.clauses
  occs : t.occs = s.occs
  opts : t.opts = s.opts
  elimbound : t.elimbound = s.elimbound
  vals : ∀ v b, s.vals v = some b → t.vals v = some b
  garbage : ∀ c, s.garbage c = true → t.garbage c = true

/-- Moreover the marks and the gates stay as they are, and only satisfied clauses become
garbage. -/
structure Grows (s t : Eliminator) : Prop extends Later s t where
  marks : t.marks = s.marks
  markedStack : t.markedStack = s.markedStack
  gate : t.gate = s.gate
  gates : t.gates = s.gates
  satisfied : ∀ c, t.garbage c = true → s.garbage c = true ∨ t.Satisfied (t.clause c)

/-- Moreover the models of `s` have the values of `t`. -/
structure Propagated (s t : Eliminator) : Prop extends Grows s t where
  implied : ∀ σ, s.Model σ → t.Extends σ

namespace Later

variable {s t u : Eliminator}

theorem refl (s : Eliminator) :
  Later s s
  := ⟨rfl, rfl, rfl, rfl, fun _ _ h => h, fun _ h => h⟩

theorem trans (h : Later s t) (h' : Later t u) :
  Later s u
  where
    clauses := h'.clauses.trans h.clauses
    occs := h'.occs.trans h.occs
    opts := h'.opts.trans h.opts
    elimbound := h'.elimbound.trans h.elimbound
    vals := fun v b hv => h'.vals v b (h.vals v b hv)
    garbage := fun c hc => h'.garbage c (h.garbage c hc)

theorem clause (h : Later s t) (c : Nat) :
  t.clause c = s.clause c
  := by rw [Eliminator.clause, Eliminator.clause, h.clauses]

/-- Values that are set at the root level stay. -/
theorem val (h : Later s t) {lit : Lit} {b : Bool} (hval : s.val lit = some b) :
  t.val lit = some b
  := by
  obtain ⟨a, ha, rfl⟩ := Option.map_eq_some_iff.mp hval
  rw [Eliminator.val, h.vals _ a ha]
  rfl

/-- An unassigned literal was unassigned before. -/
theorem val_none (h : Later s t) {lit : Lit} (hval : t.val lit = none) :
  s.val lit = none
  := by
  cases hs : s.val lit with
  | none => rfl
  | some b =>
      rw [h.val hs] at hval
      cases hval

/-- Clauses that are not garbage later were none before. -/
theorem not_garbage (h : Later s t) {c : Nat} (hc : t.garbage c = false) :
  s.garbage c = false
  := by
  cases hs : s.garbage c with
  | false => rfl
  | true =>
      rw [h.garbage c hs] at hc
      cases hc

/-- A satisfied clause stays satisfied. -/
theorem satisfied_mono (h : Later s t) {c : List Lit} (hc : s.Satisfied c) :
  t.Satisfied c
  := by
  obtain ⟨lit, hlit, hval⟩ := hc
  exact ⟨lit, hlit, h.val hval⟩

/-- An assignment that extends the later values extends the earlier ones. -/
theorem extends_of (h : Later s t) {σ : Assignment Nat} (hσ : t.Extends σ) :
  s.Extends σ
  := fun v b hv => hσ v b (h.vals v b hv)

/-- The occurrence lists stay full, since clauses only become garbage. -/
theorem connected (h : Later s t) (hs : s.Connected) :
  t.Connected
  := by
  constructor
  · intro lit c hc
    rw [h.occs] at hc
    rw [h.clause]
    exact hs.mem lit c hc
  · intro c hc lit hlit hval
    rw [h.clause] at hlit
    rw [h.occs]
    exact hs.full c (h.not_garbage hc) lit hlit (h.val_none hval)
  · intro lit
    rw [h.occs]
    exact hs.occs_nodup lit
  · intro c
    rw [h.clause]
    exact hs.nodup c

end Later

namespace Grows

variable {s t u : Eliminator}

theorem refl (s : Eliminator) :
  Grows s s
  := ⟨Later.refl s, rfl, rfl, rfl, rfl, fun _ h => Or.inl h⟩

theorem trans (h : Grows s t) (h' : Grows t u) :
  Grows s u
  where
    toLater := h.toLater.trans h'.toLater
    marks := h'.marks.trans h.marks
    markedStack := h'.markedStack.trans h.markedStack
    gate := h'.gate.trans h.gate
    gates := h'.gates.trans h.gates
    satisfied := by
      intro c hc
      obtain hc | hc := h'.satisfied c hc
      · apply (h.satisfied c hc).imp_right
        intro hsat
        rw [h'.clause]
        exact h'.satisfied_mono hsat
      · exact Or.inr hc

/-- A satisfied clause may become garbage. -/
theorem markGarbage {c : Nat} (hc : s.Satisfied (s.clause c)) :
  Grows s (s.markGarbage c)
  := by
  refine ⟨⟨rfl, rfl, rfl, rfl, fun _ _ h => h, ?_⟩, rfl, rfl, rfl, rfl, ?_⟩
  · intro d hd
    exact garbage_markGarbage.mpr (Or.inr hd)
  · intro d hd
    obtain rfl | hd := garbage_markGarbage.mp hd
    · exact Or.inr hc
    · exact Or.inl hd

/-- An unassigned literal may be assigned. -/
theorem assignUnit {lit : Lit} (hlit : s.val lit = none) :
  Grows s (s.assignUnit lit)
  := by
  refine ⟨⟨rfl, rfl, rfl, rfl, ?_, fun _ h => h⟩, rfl, rfl, rfl, rfl, fun _ h => Or.inl h⟩
  intro v b hv
  simp only [Eliminator.assignUnit, Function.update_apply]
  split
  · next heq =>
      rw [val_eq_none_iff, ← heq, hv] at hlit
      cases hlit
  · exact hv

theorem learnEmptyClause (s : Eliminator) :
  Grows s s.learnEmptyClause
  := ⟨⟨rfl, rfl, rfl, rfl, fun _ _ h => h, fun _ h => h⟩, rfl, rfl, rfl, rfl, fun _ h => Or.inl h⟩

end Grows

namespace Propagated

variable {s t u : Eliminator}

/-- Models stay models: garbage is not looked at, and the values are implied. -/
theorem model (h : Propagated s t) {σ : Assignment Nat} (hσ : s.Model σ) :
  t.Model σ
  := by
  constructor
  · exact h.implied σ hσ
  · intro c hlt hc
    rw [h.clauses] at hlt
    rw [h.clause]
    exact hσ.sat c hlt (h.not_garbage hc)

theorem refl (s : Eliminator) :
  Propagated s s
  := ⟨Grows.refl s, fun _ h => h.root⟩

theorem trans (h : Propagated s t) (h' : Propagated t u) :
  Propagated s u
  := ⟨h.toGrows.trans h'.toGrows, fun σ hσ => h'.implied σ (h.model hσ)⟩

/-- A satisfied clause may become garbage, which assigns nothing. -/
theorem markGarbage {c : Nat} (hc : s.Satisfied (s.clause c)) :
  Propagated s (s.markGarbage c)
  := ⟨Grows.markGarbage hc, fun _ h => h.root⟩

/-- An unassigned literal that is implied may be assigned. -/
theorem assignUnit {lit : Lit} (hlit : s.val lit = none)
    (himplied : ∀ σ, s.Model σ → σ.value lit = true) :
  Propagated s (s.assignUnit lit)
  := ⟨Grows.assignUnit hlit, fun σ hσ => assignUnit_extends hσ.root (himplied σ hσ)⟩

/-- Deriving the empty clause assigns nothing and removes no clause. -/
theorem learnEmptyClause :
  Propagated s s.learnEmptyClause
  := ⟨Grows.learnEmptyClause s, fun _ h => h.root⟩

end Propagated

/-! ### Propagation -/

/-- What the literals of a clause amount to: a true literal, or no, one or several unassigned
ones. -/
inductive Scan where
  | satisfied
  | falsified
  | unit (lit : Lit)
  | several
  deriving DecidableEq

variable (s)

/-- The loop of `elim_propagate` over the literals of a clause. -/
def scan : List Lit → Scan → Scan
  | [], r => r
  | other :: rest, r =>
      match s.val other with
      | some false => scan rest r
      | some true => .satisfied
      | none => scan rest (if r = .falsified then .unit other else .several)

variable {s}

/-- The scan stops at a true literal only. -/
theorem scan_satisfied {c : List Lit} {r : Scan} (h : s.scan c r = .satisfied)
    (hr : r ≠ .satisfied) :
  s.Satisfied c
  := by
  induction c generalizing r with
  | nil => exact absurd h hr
  | cons other rest ih =>
      rw [scan] at h
      split at h
      · obtain ⟨lit, hlit, hval⟩ := ih h hr
        exact ⟨lit, List.mem_cons_of_mem _ hlit, hval⟩
      · next htrue => exact ⟨other, List.mem_cons_self, htrue⟩
      · obtain ⟨lit, hlit, hval⟩ := ih h (by split <;> simp)
        exact ⟨lit, List.mem_cons_of_mem _ hlit, hval⟩

/-- A scan that has seen two unassigned literals gives no unit. -/
theorem scan_several (c : List Lit) (lit : Lit) :
  s.scan c .several ≠ .unit lit
  := by
  induction c with
  | nil => simp [scan]
  | cons other rest ih =>
      rw [scan]
      split
      · exact ih
      · simp
      · exact ih

/-- A scan that keeps its unit has met false literals only behind it. -/
theorem scan_from_unit {c : List Lit} {l lit : Lit} (h : s.scan c (.unit l) = .unit lit) :
  l = lit ∧ ∀ k ∈ c, s.val k = some false
  := by
  induction c with
  | nil =>
      cases h
      simp
  | cons other rest ih =>
      rw [scan] at h
      rw [List.forall_mem_cons]
      split at h
      · next hfalse =>
          obtain ⟨heq, hrest⟩ := ih h
          exact ⟨heq, hfalse, hrest⟩
      · cases h
      · exact absurd h (scan_several rest lit)

/-- The unit of a clause is its only literal that is not false. -/
theorem scan_unit {c : List Lit} {lit : Lit} (h : s.scan c .falsified = .unit lit) :
  lit ∈ c ∧ s.val lit = none ∧ ∀ k ∈ c, k = lit ∨ s.val k = some false
  := by
  induction c with
  | nil => cases h
  | cons other rest ih =>
      rw [scan] at h
      rw [List.forall_mem_cons]
      split at h
      · next hfalse =>
          obtain ⟨hmem, hnone, hrest⟩ := ih h
          exact ⟨List.mem_cons_of_mem _ hmem, hnone, Or.inr hfalse, hrest⟩
      · cases h
      · next hnone =>
          obtain ⟨rfl, hrest⟩ := scan_from_unit h
          exact ⟨List.mem_cons_self, hnone, Or.inl rfl, fun k hk => Or.inr (hrest k hk)⟩

/-- A model of the clauses satisfies the unit of one of them. -/
theorem Model.unit {σ : Assignment Nat} (hσ : s.Model σ) {c : Nat} (hlt : c < s.clauses.length)
    (hc : s.garbage c = false) {lit : Lit}
    (hunit : ∀ k ∈ s.clause c, k = lit ∨ s.val k = some false) :
  σ.value lit = true
  := by
  obtain ⟨k, hk, hval⟩ := hσ.sat c hlt hc
  obtain rfl | hfalse := hunit k hk
  · exact hval
  · rw [hσ.root.value hfalse] at hval
    cases hval

variable (s)

/-- The loop of `elim_propagate` over the clauses with the complement of a true literal,
which may find further units to be propagated. -/
def propagateFalsified : List Nat → Eliminator → List Lit → Eliminator × List Lit
  | [], s, work => (s, work)
  | c :: cs, s, work =>
      if s.garbage c then propagateFalsified cs s work
      else
        match s.scan (s.clause c) .falsified with
        | .satisfied => propagateFalsified cs (s.markGarbage c) work
        | .falsified => (s.learnEmptyClause, work)
        | .unit unit => propagateFalsified cs (s.assignUnit unit) (work ++ [unit])
        | .several => propagateFalsified cs s work

/-- The loop of `elim_propagate` over the clauses with a true literal. -/
def propagateSatisfied : List Nat → Eliminator → Eliminator
  | [], s => s
  | c :: cs, s => propagateSatisfied cs (if s.garbage c then s else s.markGarbage c)

/-- The number of occurrences of unassigned literals in the clauses. -/
def unassigned : Nat :=
  s.clauses.flatten.countP (fun lit => (s.val lit).isNone)

variable {s}

theorem clause_subset_flatten {c : Nat} {lit : Lit} (h : lit ∈ s.clause c) :
  lit ∈ s.clauses.flatten
  := by
  rw [clause] at h
  obtain hlt | hle := Nat.lt_or_ge c s.clauses.length
  · rw [List.getD_eq_getElem _ _ hlt] at h
    exact List.mem_flatten.mpr ⟨_, List.getElem_mem hlt, h⟩
  · rw [List.getD_eq_default _ _ hle] at h
    cases h

/-- A clause that has a literal is one of the clauses. -/
theorem lt_of_mem_clause {c : Nat} {lit : Lit} (h : lit ∈ s.clause c) :
  c < s.clauses.length
  := by
  apply Nat.lt_of_not_le
  intro hle
  rw [clause, List.getD_eq_default _ _ hle] at h
  cases h

/-- Assigning a literal of a clause leaves fewer unassigned literals. -/
theorem unassigned_assignUnit {c : Nat} {lit : Lit} (hmem : lit ∈ s.clause c)
    (hlit : s.val lit = none) :
  (s.assignUnit lit).unassigned < s.unassigned
  := by
  have hmono : ∀ l : List Lit, l.countP (fun k => ((s.assignUnit lit).val k).isNone)
      ≤ l.countP (fun k => (s.val k).isNone) := by
    intro l
    apply List.countP_mono_left
    intro k _ hk
    rw [Option.isNone_iff_eq_none] at hk ⊢
    exact (Grows.assignUnit hlit).val_none hk
  obtain ⟨l, l', hl⟩ := List.append_of_mem (clause_subset_flatten hmem)
  rw [unassigned, unassigned]
  change s.clauses.flatten.countP _ < _
  have hfst := hmono l
  have hsnd := hmono l'
  rw [hl, List.countP_append, List.countP_append, List.countP_cons, List.countP_cons,
    val_assignUnit_self, hlit]
  simp only [Option.isNone_some, Option.isNone_none, Bool.false_eq_true, if_false, if_true]
  omega

/-- Each literal that is put on the work list has been assigned, so the measure does not grow. -/
theorem propagateFalsified_unassigned (cs : List Nat) (s : Eliminator) (work : List Lit) :
  (propagateFalsified cs s work).1.unassigned + (propagateFalsified cs s work).2.length
    ≤ s.unassigned + work.length
  := by
  induction cs generalizing s work with
  | nil => exact Nat.le_refl _
  | cons c cs ih =>
      rw [propagateFalsified]
      split
      · apply ih
      split
      · exact ih (s.markGarbage c) work
      · exact Nat.le_refl _
      · next unit hscan =>
          obtain ⟨hmem, hunit, -⟩ := scan_unit hscan
          have hlt := unassigned_assignUnit hmem hunit
          have hle := ih (s.assignUnit unit) (work ++ [unit])
          rw [List.length_append, List.length_singleton] at hle
          omega
      · apply ih

/-- Removing satisfied clauses assigns nothing. -/
theorem propagateSatisfied_unassigned (cs : List Nat) (s : Eliminator) :
  (propagateSatisfied cs s).unassigned = s.unassigned
  := by
  induction cs generalizing s with
  | nil => rfl
  | cons c cs ih =>
      rw [propagateSatisfied, ih]
      split <;> rfl

/-- The loop of `elim_propagate` over the literals that are to be propagated. -/
def propagateWork (work : List Lit) (s : Eliminator) : Eliminator :=
  match work with
  | [] => s
  | lit :: work =>
      match _h : propagateFalsified (s.occs (-lit)) s work with
      | (t, rest) => if t.unsat then t else propagateWork rest (propagateSatisfied (t.occs lit) t)
termination_by s.unassigned + work.length
decreasing_by
  have hle := propagateFalsified_unassigned (s.occs (-lit)) s work
  rw [_h] at hle
  dsimp only at hle
  rw [propagateSatisfied_unassigned, List.length_cons]
  omega

variable (s) in
/-- `elim_propagate` -/
def elimPropagate (root : Lit) : Eliminator :=
  propagateWork [root] s

/-- The literals that remain to be propagated are true. -/
theorem propagateFalsified_spec (cs : List Nat) {s : Eliminator} {work : List Lit}
    (hwork : ∀ lit ∈ work, s.val lit = some true) :
  Propagated s (propagateFalsified cs s work).1
    ∧ ∀ lit ∈ (propagateFalsified cs s work).2,
      (propagateFalsified cs s work).1.val lit = some true
  := by
  induction cs generalizing s work with
  | nil => exact ⟨Propagated.refl s, hwork⟩
  | cons c cs ih =>
      rw [propagateFalsified]
      split
      · exact ih hwork
      · next hc =>
          split
          · next hscan =>
              have hsat := Propagated.markGarbage (scan_satisfied hscan (by simp))
              obtain ⟨hprop, hrest⟩ := ih (s := s.markGarbage c) hwork
              exact ⟨hsat.trans hprop, hrest⟩
          · exact ⟨Propagated.learnEmptyClause, hwork⟩
          · next unit hscan =>
              obtain ⟨hmem, hunit, hrest⟩ := scan_unit hscan
              rw [Bool.not_eq_true] at hc
              have hassign : Propagated s (s.assignUnit unit) := by
                apply Propagated.assignUnit hunit
                intro σ hσ
                exact hσ.unit (lt_of_mem_clause hmem) hc hrest
              have hwork' : ∀ lit ∈ work ++ [unit], (s.assignUnit unit).val lit = some true := by
                intro lit hlit
                obtain hlit | hlit := List.mem_append.mp hlit
                · exact hassign.val (hwork lit hlit)
                · rw [List.mem_singleton.mp hlit]
                  apply val_assignUnit_self
              obtain ⟨hprop, hrest⟩ := ih hwork'
              exact ⟨hassign.trans hprop, hrest⟩
          · exact ih hwork

/-- The clauses of a true literal may all become garbage. -/
theorem propagateSatisfied_spec {lit : Lit} {cs : List Nat} {s : Eliminator}
    (hcs : ∀ c ∈ cs, lit ∈ s.clause c) (hlit : s.val lit = some true) :
  Propagated s (propagateSatisfied cs s)
  := by
  induction cs generalizing s with
  | nil => exact Propagated.refl s
  | cons c cs ih =>
      obtain ⟨hc, hrest⟩ := List.forall_mem_cons.mp hcs
      rw [propagateSatisfied]
      split
      · exact ih hrest hlit
      · exact (Propagated.markGarbage ⟨lit, hc, hlit⟩).trans (ih hrest hlit)

/-- Propagating literals that are true removes satisfied clauses and assigns implied literals. -/
theorem propagateWork_spec {work : List Lit} {s : Eliminator} (hs : s.Connected)
    (hwork : ∀ lit ∈ work, s.val lit = some true) :
  Propagated s (propagateWork work s)
  := by
  induction work, s using propagateWork.induct with
  | case1 s =>
      rw [propagateWork]
      exact Propagated.refl s
  | case2 s lit work t rest h hunsat =>
      obtain ⟨hprop, -⟩ := propagateFalsified_spec (s.occs (-lit))
        (fun l hl => hwork l (List.mem_cons_of_mem _ hl))
      rw [propagateWork]
      simp only [h, hunsat, if_true] at hprop ⊢
      exact hprop
  | case3 s lit work t rest h hunsat ih =>
      obtain ⟨hlit, hwork⟩ := List.forall_mem_cons.mp hwork
      obtain ⟨hprop, hrest⟩ := propagateFalsified_spec (s.occs (-lit)) hwork
      rw [propagateWork]
      simp only [h, hunsat] at hprop hrest ⊢
      have ht := hprop.connected hs
      have hsat : Propagated t (propagateSatisfied (t.occs lit) t) := by
        apply propagateSatisfied_spec _ (hprop.val hlit)
        intro c hc
        exact ht.mem lit c hc
      apply (hprop.trans hsat).trans
      apply ih (hsat.connected ht)
      intro l hl
      exact hsat.val (hrest l hl)

/-- Propagating a true literal. -/
theorem elimPropagate_spec (hs : s.Connected) {root : Lit} (hroot : s.val root = some true) :
  Propagated s (s.elimPropagate root)
  := by
  apply propagateWork_spec hs
  intro lit hlit
  rw [List.mem_singleton.mp hlit]
  exact hroot

/-! ### The empty clause -/

/-- A scan that finds the clause falsified has met false literals only. -/
theorem scan_falsified {c : List Lit} {r : Scan} (h : s.scan c r = .falsified) :
  r = .falsified ∧ ∀ k ∈ c, s.val k = some false
  := by
  induction c generalizing r with
  | nil => exact ⟨h, nofun⟩
  | cons other rest ih =>
      rw [scan] at h
      rw [List.forall_mem_cons]
      split at h
      · next hfalse =>
          obtain ⟨hr, hrest⟩ := ih h
          exact ⟨hr, hfalse, hrest⟩
      · cases h
      · have hr := (ih h).1
        split at hr <;> cases hr

/-- The empty clause stays learned, and when it is learned there is no model. -/
structure Refutes (s t : Eliminator) : Prop where
  mono : s.unsat = true → t.unsat = true
  sound : t.unsat = true → s.unsat = true ∨ ∀ σ, ¬ s.Model σ

/-- Without a derived empty clause there is nothing to refute. -/
theorem Refutes.of_unsat {t : Eliminator} (h : t.unsat = s.unsat) :
  Refutes s t
  := ⟨fun hs => h.trans hs, fun ht => Or.inl (h.symm.trans ht)⟩

/-- If the empty clause is derived in one of two rounds, the clauses had no model. -/
theorem Refutes.trans {t u : Eliminator} (hprop : Propagated s t) (h : Refutes s t)
    (h' : Refutes t u) :
  Refutes s u
  := by
  refine ⟨fun hs => h'.mono (h.mono hs), ?_⟩
  intro hu
  obtain ht | hnone := h'.sound hu
  · exact h.sound ht
  · exact Or.inr (fun σ hσ => hnone σ (hprop.model hσ))

/-- If propagation over the clauses derives the empty clause, the clauses had no model. -/
theorem propagateFalsified_refutes (cs : List Nat) {s : Eliminator} (work : List Lit)
    (hcs : ∀ c ∈ cs, c < s.clauses.length) :
  Refutes s (propagateFalsified cs s work).1
  := by
  induction cs generalizing s work with
  | nil => exact .of_unsat rfl
  | cons c cs ih =>
      obtain ⟨hlt, hrest⟩ := List.forall_mem_cons.mp hcs
      rw [propagateFalsified]
      split
      · exact ih work hrest
      · next hc =>
          rw [Bool.not_eq_true] at hc
          split
          · next hscan =>
              have hsat := Propagated.markGarbage (scan_satisfied hscan (by simp))
              exact Refutes.trans hsat (.of_unsat rfl) (ih work hrest)
          · next hscan =>
              refine ⟨fun _ => rfl, fun _ => Or.inr ?_⟩
              intro σ hσ
              obtain ⟨k, hk, hval⟩ := hσ.sat c hlt hc
              rw [hσ.root.value ((scan_falsified hscan).2 k hk)] at hval
              cases hval
          · next unit hscan =>
              obtain ⟨hmem, hunit, hother⟩ := scan_unit hscan
              have hassign : Propagated s (s.assignUnit unit) := by
                apply Propagated.assignUnit hunit
                intro σ hσ
                exact hσ.unit hlt hc hother
              exact Refutes.trans hassign (.of_unsat rfl) (ih _ hrest)
          · exact ih work hrest

/-- Removing satisfied clauses derives no empty clause. -/
theorem propagateSatisfied_unsat (cs : List Nat) (s : Eliminator) :
  (propagateSatisfied cs s).unsat = s.unsat
  := by
  induction cs generalizing s with
  | nil => rfl
  | cons c cs ih =>
      rw [propagateSatisfied, ih]
      split <;> rfl

/-- If propagating the work list derives the empty clause, the clauses had no model. -/
theorem propagateWork_refutes {work : List Lit} {s : Eliminator} (hs : s.Connected)
    (hwork : ∀ lit ∈ work, s.val lit = some true) :
  Refutes s (propagateWork work s)
  := by
  induction work, s using propagateWork.induct with
  | case1 s =>
      rw [propagateWork]
      exact .of_unsat rfl
  | case2 s lit work t rest h hunsat =>
      have hrefutes := propagateFalsified_refutes (s.occs (-lit)) work
        (fun c hc => lt_of_mem_clause (hs.mem _ c hc))
      rw [propagateWork]
      simp only [h, hunsat, if_true] at hrefutes ⊢
      exact hrefutes
  | case3 s lit work t rest h hunsat ih =>
      obtain ⟨hlit, hwork⟩ := List.forall_mem_cons.mp hwork
      obtain ⟨hprop, hrest⟩ := propagateFalsified_spec (s.occs (-lit)) hwork
      have hrefutes := propagateFalsified_refutes (s.occs (-lit)) work
        (fun c hc => lt_of_mem_clause (hs.mem _ c hc))
      rw [propagateWork]
      simp only [h, hunsat] at hprop hrest hrefutes ⊢
      have ht := hprop.connected hs
      have hsat : Propagated t (propagateSatisfied (t.occs lit) t) := by
        apply propagateSatisfied_spec _ (hprop.val hlit)
        intro c hc
        exact ht.mem lit c hc
      apply Refutes.trans (hprop.trans hsat)
      · exact Refutes.trans hprop hrefutes (.of_unsat (propagateSatisfied_unsat _ t))
      · apply ih (hsat.connected ht)
        intro l hl
        exact hsat.val (hrest l hl)

variable (s)

/-- The marked gate clauses. -/
def gateClauses : Set (Clause Lit) :=
  {k | ∃ c, s.gate c = true ∧ s.clause c = k}

/-- No two assignments with the values of the root level that differ only in the variable of
the pivot satisfy all gate clauses. -/
def Defined (pivot : Lit) : Prop :=
  ¬ ∃ σ τ : Assignment Nat, s.Extends σ ∧ s.Extends τ ∧ σ pivot.vidx ≠ τ pivot.vidx
    ∧ (∀ v, v ≠ pivot.vidx → σ v = τ v) ∧ Models σ s.gateClauses ∧ Models τ s.gateClauses

variable {s}

/-- A clause does not contain complementary literals, as its variables differ. -/
theorem Connected.not_taut (hs : s.Connected) (c : Nat) :
  ∀ l ∈ s.clause c, -l ∉ s.clause c
  := by
  intro l hl hneg
  apply Lit.neg_ne l
  exact List.inj_on_of_nodup_map (hs.nodup c) hneg hl (Lit.vidx_neg l)

/-- The gate clauses define the pivot exactly when they cannot be satisfied together without
its variable. -/
theorem defined_iff (hs : s.Connected) {pivot : Lit} (hpivot : s.val pivot = none) :
  s.Defined pivot ↔ ∀ σ : Assignment Nat, s.Extends σ →
    ¬ ∀ c, s.gate c = true → Clause.SatOff σ pivot.vidx (s.clause c)
  := by
  constructor
  · intro h σ hσ hall
    apply h
    have hext : ∀ b, s.Extends (Function.update σ pivot.vidx b) := by
      intro b v a hv
      rw [Function.update_of_ne]
      · exact hσ v a hv
      · rintro rfl
        rw [val_eq_none_iff.mp hpivot] at hv
        cases hv
    have hsat : ∀ b, Models (Function.update σ pivot.vidx b) s.gateClauses := by
      rintro b _ ⟨c, hc, rfl⟩
      exact (hall c hc).sat_update b
    refine ⟨_, _, hext true, hext false, ?_, ?_, hsat true, hsat false⟩
    · simp
    · intro v hv
      rw [Function.update_of_ne hv, Function.update_of_ne hv]
  · rintro h ⟨σ, τ, hσ, -, hne, hagree, hσt, hτt⟩
    apply h σ hσ
    intro c hc
    exact Clause.satOff_of_sat (hs.not_taut c) hne hagree (hσt _ ⟨c, hc, rfl⟩) (hτt _ ⟨c, hc, rfl⟩)

end Eliminator

end Cadical
