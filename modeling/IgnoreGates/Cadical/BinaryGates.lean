import IgnoreGates.Cadical.Eliminator

/-!
# Equivalences and AND gates

The other literals of the actual binary clauses with a literal are marked, where falsified
literals are skipped and satisfied clauses become garbage.  A binary clause with the complement
of the pivot and the complement of a marked literal gives an equivalence, and a clause with the
complement of the pivot in which the complements of all unassigned literals are marked gives
an AND gate.  Neither gate has a satisfied clause, and both define the pivot.
-/

namespace Cadical

open Logic

namespace Eliminator

variable (s : Eliminator)

/-! ### Actual binary clauses -/

/-- The clause has, apart from `first` and the unassigned literal `second`, only false
literals. -/
structure Binary (c : Nat) (first second : Lit) : Prop where
  mem : second ∈ s.clause c
  ne : second ≠ first
  val : s.val second = none
  rest : ∀ k ∈ s.clause c, k = first ∨ k = second ∨ s.val k = some false

variable {s}

/-- An actual binary clause stays one until one of its literals is assigned. -/
theorem Binary.mono {c : Nat} {first l : Lit} (h : s.Binary c first l) {t : Eliminator}
    (hst : Later s t) (hval : t.val l = none) :
  t.Binary c first l
  := by
  constructor
  · rw [hst.clause]
    exact h.mem
  · exact h.ne
  · exact hval
  · rw [hst.clause]
    intro k hk
    exact (h.rest k hk).imp_right (Or.imp_right hst.val)

/-! ### Marking second literals -/

variable (s)

/-- The second literal is pushed and marked. -/
def pushMarked (lit : Lit) : Eliminator :=
  { s with markedStack := s.markedStack ++ [lit] }.mark lit

variable {s}

/-- The mark of the complement has the opposite sign. -/
theorem marked_neg (lit : Lit) :
  s.marked (-lit) = -s.marked lit
  := by
  have hint : (-lit).int = -lit.int := rfl
  have hne := lit.ne_zero
  rw [marked, marked, hint, Lit.vidx_neg]
  split <;> split <;> omega

/-- A literal that is marked and pushed has the mark one. -/
theorem marked_pushMarked_self (lit : Lit) :
  (s.pushMarked lit).marked lit = 1
  := by
  simp only [marked, pushMarked, mark, Function.update_self]
  split <;> rfl

/-- Marking a literal leaves the marks of other variables as they are. -/
theorem marked_pushMarked_of_ne {k lit : Lit} (h : k.vidx ≠ lit.vidx) :
  (s.pushMarked lit).marked k = s.marked k
  := by
  simp [marked, pushMarked, mark, h]

/-- The variables with marks are on the stack. -/
def OnStack (s : Eliminator) : Prop :=
  ∀ v, s.marks v ≠ 0 → ∃ l ∈ s.markedStack, l.vidx = v

/-- Marks are one, and an unassigned marked literal is the second one of a clause among the
clauses `pre`, which have been looked at. -/
structure Marked (s : Eliminator) (first : Lit) (pre : List Nat) : Prop where
  marks : ∀ l, 0 < s.marked l → s.marked l = 1
  binary : ∀ l, 0 < s.marked l → s.val l = none →
    ∃ c ∈ pre, s.garbage c = false ∧ s.Binary c first l

/-- What marking does not touch. -/
structure Marking (s t : Eliminator) : Prop extends Later s t where
  gate : t.gate = s.gate
  gates : t.gates = s.gates

theorem Marking.trans {s t u : Eliminator} (h : Marking s t) (h' : Marking t u) :
  Marking s u
  := ⟨h.toLater.trans h'.toLater, h'.gate.trans h.gate, h'.gates.trans h.gates⟩

/-- The clause of a marked literal has no true literal as long as the two literals are not
assigned. -/
theorem Binary.not_satisfied {c : Nat} {first l : Lit} (h : s.Binary c first l)
    (hfirst : s.val first = none) :
  ¬ s.Satisfied (s.clause c)
  := by
  rintro ⟨k, hk, htrue⟩
  obtain rfl | rfl | hfalse := h.rest k hk
  · rw [hfirst] at htrue
    cases htrue
  · rw [h.val] at htrue
    cases htrue
  · rw [hfalse] at htrue
    cases htrue

/-- More clauses justify the same marks. -/
theorem Marked.subset {first : Lit} {pre pre' : List Nat} (h : s.Marked first pre)
    (hsub : ∀ c ∈ pre, c ∈ pre') :
  s.Marked first pre'
  := by
  refine ⟨h.marks, ?_⟩
  intro l hl hval
  obtain ⟨c, hc, hrest⟩ := h.binary l hl hval
  exact ⟨c, hsub c hc, hrest⟩

/-- Marking the second literal of a clause. -/
theorem Marked.pushMarked {first lit : Lit} {pre : List Nat} (h : s.Marked first pre) {c : Nat}
    (hc : s.garbage c = false) (hbinary : s.Binary c first lit) :
  (s.pushMarked lit).Marked first (pre ++ [c])
  := by
  have hcases : ∀ l, 0 < (s.pushMarked lit).marked l →
      l = lit ∨ (s.pushMarked lit).marked l = s.marked l := by
    intro l hl
    by_cases hvar : l.vidx = lit.vidx
    · obtain rfl | rfl := Lit.eq_or_eq_neg hvar
      · exact Or.inl rfl
      · rw [marked_neg, marked_pushMarked_self] at hl
        omega
    · exact Or.inr (marked_pushMarked_of_ne hvar)
  constructor
  · intro l hl
    obtain rfl | heq := hcases l hl
    · exact marked_pushMarked_self l
    · rw [heq] at hl ⊢
      exact h.marks l hl
  · intro l hl hval
    obtain rfl | heq := hcases l hl
    · exact ⟨c, by simp, hc, ⟨hbinary.mem, hbinary.ne, hbinary.val, hbinary.rest⟩⟩
    · rw [heq] at hl
      obtain ⟨d, hd, hgarbage, hd'⟩ := h.binary l hl hval
      exact ⟨d, by simp [hd], hgarbage, ⟨hd'.mem, hd'.ne, hd'.val, hd'.rest⟩⟩

/-- A literal that is marked is on the stack. -/
theorem OnStack.pushMarked (h : s.OnStack) (lit : Lit) :
  (s.pushMarked lit).OnStack
  := by
  intro v hv
  simp only [Eliminator.pushMarked, mark, Function.update_apply, List.mem_append,
    List.mem_singleton] at hv ⊢
  split at hv
  · next heq => exact ⟨lit, Or.inr rfl, heq.symm⟩
  · obtain ⟨l, hl, hlv⟩ := h v hv
    exact ⟨l, Or.inl hl, hlv⟩

/-- Removing a clause that has not been looked at. -/
theorem Marked.markGarbage {first : Lit} {pre : List Nat} (h : s.Marked first pre) {c : Nat}
    (hc : c ∉ pre) :
  (s.markGarbage c).Marked first pre
  := by
  refine ⟨h.marks, ?_⟩
  intro l hl hval
  obtain ⟨d, hd, hgarbage, hd'⟩ := h.binary l hl hval
  refine ⟨d, hd, ?_, ⟨hd'.mem, hd'.ne, hd'.val, hd'.rest⟩⟩
  rw [← Bool.not_eq_true, garbage_markGarbage]
  rintro (rfl | hg)
  · exact hc hd
  · rw [hgarbage] at hg
    cases hg

theorem marking_markGarbage (c : Nat) :
  Marking s (s.markGarbage c)
  := ⟨⟨rfl, rfl, rfl, rfl, fun _ _ h => h, fun _ hd => garbage_markGarbage.mpr (Or.inr hd)⟩,
    rfl, rfl⟩

/-- Nothing is marked. -/
structure Unmarked (s : Eliminator) : Prop where
  marks : ∀ v, s.marks v = 0
  markedStack : s.markedStack = []

/-- The marked gate clauses are those on the stack. -/
def Gated (s : Eliminator) : Prop :=
  ∀ c, s.gate c = true ↔ c ∈ s.gates

/-- There are no gate clauses, or they define the unassigned pivot. -/
structure Sound (s : Eliminator) (pivot : Lit) : Prop where
  gated : s.Gated
  defined : s.gates ≠ [] → s.val pivot = none ∧ s.Defined pivot

variable (s)

/-- The tests at the beginning of every detector. -/
def idle (pivot : Lit) : Bool :=
  s.unsat || (s.val pivot).isSome || !s.gates.isEmpty

/-- The clause is marked and pushed as a gate clause. -/
def pushGate (c : Nat) : Eliminator :=
  { s with gate := Function.update s.gate c true, gates := s.gates ++ [c] }

variable {s}

/-- A detector goes on when the empty clause has not been derived, the pivot is unassigned, and no
gate has been found. -/
theorem idle_eq_false {pivot : Lit} (h : s.idle pivot = false) :
  s.unsat = false ∧ s.val pivot = none ∧ s.gates = []
  := by
  simpa [idle, and_assoc] using h

/-- Unmarking a list of literals resets the marks of their variables. -/
theorem foldl_unmark (lits : List Lit) (s : Eliminator) :
  lits.foldl unmark s
    = { s with marks := fun v => if v ∈ lits.map Lit.vidx then 0 else s.marks v }
  := by
  induction lits generalizing s with
  | nil => simp
  | cons lit rest ih =>
      rw [List.foldl_cons, ih, unmark]
      congr 1
      funext v
      simp only [Function.update_apply, List.map_cons, List.mem_cons]
      by_cases hrest : v ∈ rest.map Lit.vidx <;> simp [hrest]

/-- When no variable is marked, there is nothing to justify. -/
theorem Unmarked.marked (h : s.Unmarked) (first : Lit) :
  s.Marked first []
  := by
  have hzero : ∀ l, s.marked l = 0 := by
    intro l
    rw [Eliminator.marked, h.marks]
    simp
  constructor
  · intro l hl
    rw [hzero] at hl
    omega
  · intro l hl
    rw [hzero] at hl
    omega

/-- In an assignment with the values of the root level, an actual binary clause that is satisfied
apart from its first literal is satisfied by its second one. -/
theorem Binary.value {c : Nat} {first l : Lit} (h : s.Binary c first l) {σ : Assignment Nat}
    (hσ : s.Extends σ) (hsat : Clause.SatOff σ first.vidx (s.clause c)) :
  σ.value l = true
  := by
  obtain ⟨k, hk, hne, hval⟩ := hsat
  obtain rfl | rfl | hfalse := h.rest k hk
  · exact absurd rfl hne
  · exact hval
  · rw [hσ.value hfalse] at hval
    cases hval

/-! ### Equivalences -/

variable (s)

variable {s}

/-- Pushing a clause keeps the gate marks in step with the stack of gates. -/
theorem Gated.pushGate (h : s.Gated) (c : Nat) :
  (s.pushGate c).Gated
  := by
  intro d
  simp only [Eliminator.pushGate, Function.update_apply, List.mem_append, List.mem_singleton]
  split
  · next heq => simp [heq]
  · next hne => simp [h d, hne]

theorem Marking.gated {t : Eliminator} (h : Marking s t) (hs : s.Gated) :
  t.Gated
  := by
  rw [Gated, h.gate, h.gates]
  exact hs

/-- What the literals of a candidate for the long clause of an AND gate amount to. -/
inductive Candidate where
  | unmarked
  | satisfied
  | base
  deriving DecidableEq

variable (s)

/-- The loop of `find_and_gate` over the literals of a candidate. -/
def candidate (pivot : Lit) : List Lit → Candidate
  | [] => .base
  | lit :: rest =>
      if lit = -pivot then candidate pivot rest
      else
        match s.val lit with
        | some false => candidate pivot rest
        | some true => .satisfied
        | none => if s.marked lit < 0 then candidate pivot rest else .unmarked

variable {s}

/-- `t` is `s` with further gate clauses and with further garbage clauses that are
satisfied. -/
structure Pushing (s t : Eliminator) : Prop extends Later s t where
  val : ∀ lit, t.val lit = s.val lit
  marks : t.marks = s.marks
  markedStack : t.markedStack = s.markedStack
  gate : ∀ c, s.gate c = true → t.gate c = true
  gated : s.Gated → t.Gated

theorem Pushing.trans {s t u : Eliminator} (h : Pushing s t) (h' : Pushing t u) :
  Pushing s u
  where
    toLater := h.toLater.trans h'.toLater
    val := fun lit => (h'.val lit).trans (h.val lit)
    marks := h'.marks.trans h.marks
    markedStack := h'.markedStack.trans h.markedStack
    gate := fun c hc => h'.gate c (h.gate c hc)
    gated := fun hs => h'.gated (h.gated hs)

end Eliminator

end Cadical
