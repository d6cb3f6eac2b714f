import IgnoreGates.CnfTools.Uniqueness

/-!
# Sequences of semantic checks

All calls of `fSemantic` share one solver.  A call gives its clauses to the solver, solves
under the assumption that the output is false, and then gives the positive output without
finishing the clause.  Hence the clauses of earlier calls stay, and the outputs given since the
last finished clause become literals of the first clause of the next call.

`clausesLeft` and `literalsOpen` compute from the earlier calls what they leave in the solver.
A call is `Undisturbed` by this when it keeps a satisfiable query satisfiable and does not
satisfy an unsatisfiable one in place of its first clause; the call answers correctly exactly
then.
-/

namespace CnfTools

open Logic

namespace Analyzer

variable {env : Env} {F : CNFFormula}

/-- The arguments of a call of `fSemantic`. -/
structure Call where
  out : Lit
  fwd : For
  bwd : For

/-! ### Runs -/

/-- The literals given to the solver by a sequence of calls, after those of `S`. -/
def solverAfter (env : Env) (F : CNFFormula) (S : List Int) (calls : List Call) : List Int :=
  calls.foldl (fun S c => (fSemantic env F c.out c.fwd c.bwd S).2) S

/-- The types returned by a sequence of calls. -/
def answers (env : Env) (F : CNFFormula) : List Int → List Call → List GateType
  | _, [] => []
  | S, c :: calls =>
      (fSemantic env F c.out c.fwd c.bwd S).1
        :: answers env F (fSemantic env F c.out c.fwd c.bwd S).2 calls

/-- Each call is answered in the state that the earlier calls left. -/
theorem answers_append (S : List Int) (earlier later : List Call) :
  answers env F S (earlier ++ later)
    = answers env F S earlier ++ answers env F (solverAfter env F S earlier) later
  := by
  induction earlier generalizing S with
  | nil => rfl
  | cons c earlier ih =>
      rw [List.cons_append, answers, answers, ih, List.cons_append]
      rfl

theorem length_answers (S : List Int) (calls : List Call) :
  (answers env F S calls).length = calls.length
  := by
  induction calls generalizing S with
  | nil => rfl
  | cons c calls ih => rw [answers, List.length_cons, List.length_cons, ih]

namespace Call

/-! ### What earlier calls leave -/

/-- The clauses of a call, with the literals of the output made positive. -/
def given (F : CNFFormula) (c : Call) : List (List Int) :=
  (c.fwd ++ c.bwd).map (fun p => queryLits c.out (F.deref p))

/-- The clauses in which `clause` and then the clauses of a call arrive. -/
def continued (clause : List Int) : List (List Int) → List (List Int)
  | [] => []
  | d :: ds => (clause ++ d) :: ds

/-- The literals of the open clause after a call. -/
def leavesOpen (F : CNFFormula) (clause : List Int) (c : Call) : List Int :=
  if c.given F = [] then clause ++ [c.out.positive.toDimacs] else [c.out.positive.toDimacs]

/-- The open literals after a sequence of calls. -/
def literalsOpen (F : CNFFormula) (clause : List Int) (calls : List Call) : List Int :=
  calls.foldl (leavesOpen F) clause

/-- The clauses that a sequence of calls leaves in the solver. -/
def clausesLeft (F : CNFFormula) : List Int → List Call → List (List Int)
  | _, [] => []
  | clause, c :: calls =>
      continued clause (c.given F) ++ clausesLeft F (c.leavesOpen F clause) calls

theorem queries_eq (c : Call) :
  queries F c.out c.fwd c.bwd = (c.given F).flatMap (· ++ [0])
  := by
  rw [given, List.flatMap_map]
  rfl

theorem zero_not_mem_given (hF : F.Numbered) (c : Call) :
  ∀ d ∈ c.given F, (0 : Int) ∉ d
  := by
  intro d hd
  obtain ⟨p, -, rfl⟩ := List.mem_map.mp hd
  exact zero_not_mem_queryLits hF c.out p

/-- The solver reads the clauses of a call behind the open ones. -/
theorem finished_queries (hF : F.Numbered) (c : Call) (clause : List Int) :
  Ipasir.finished clause (queries F c.out c.fwd c.bwd) = continued clause (c.given F)
  := by
  have hzero := zero_not_mem_given hF c
  rw [queries_eq]
  cases hds : c.given F with
  | nil => rfl
  | cons d ds =>
      rw [hds] at hzero
      apply Ipasir.finished_flatMap_cons (hzero d List.mem_cons_self)
      exact fun e he => hzero e (List.mem_cons_of_mem d he)

/-- A call leaves its clauses and its positive output in the solver. -/
theorem fSemantic_step (env : Env) (hF : F.Numbered) {c : Call} (hout : 0 < c.out.var) (S : List Int) :
  Ipasir.finished [] (fSemantic env F c.out c.fwd c.bwd S).2
      = Ipasir.finished [] S ++ continued (Ipasir.unfinished [] S) (c.given F)
    ∧ Ipasir.unfinished [] (fSemantic env F c.out c.fwd c.bwd S).2
      = c.leavesOpen F (Ipasir.unfinished [] S)
  := by
  have hne : c.out.positive.toDimacs ≠ 0 := by
    apply toDimacs_ne_zero
    rwa [Lit.positive, Lit.ofVar_var]
  rw [fSemantic]
  constructor
  · rw [Ipasir.finished_append, Ipasir.finished_append, finished_queries hF c, Ipasir.finished,
      if_neg hne]
    exact List.append_nil _
  · rw [Ipasir.unfinished_append, Ipasir.unfinished_append, Ipasir.unfinished, if_neg hne,
      Ipasir.unfinished, queries_eq, leavesOpen]
    split
    · next hnil => rw [hnil]; rfl
    · next hds => rw [Ipasir.unfinished_flatMap _ hds, List.nil_append]

/-- What a sequence of calls leaves in the solver. -/
theorem solverAfter_spec (env : Env) (hF : F.Numbered) {calls : List Call}
    (hout : ∀ c ∈ calls, 0 < c.out.var) (S : List Int) :
  Ipasir.finished [] (solverAfter env F S calls)
      = Ipasir.finished [] S ++ clausesLeft F (Ipasir.unfinished [] S) calls
    ∧ Ipasir.unfinished [] (solverAfter env F S calls)
      = literalsOpen F (Ipasir.unfinished [] S) calls
  := by
  induction calls generalizing S with
  | nil => exact ⟨(List.append_nil _).symm, rfl⟩
  | cons c calls ih =>
      obtain ⟨hfinished, hunfinished⟩ := fSemantic_step env hF
        (hout c List.mem_cons_self) S
      obtain ⟨ih₁, ih₂⟩ := ih (fun d hd => hout d (List.mem_cons_of_mem c hd))
        (fSemantic env F c.out c.fwd c.bwd S).2
      rw [hfinished, hunfinished] at ih₁
      rw [hunfinished] at ih₂
      refine ⟨?_, ih₂⟩
      rw [clausesLeft, ← List.append_assoc]
      exact ih₁

/-! ### Undisturbed calls -/

/-- The clauses of a call without the literals of the output variable. -/
def withoutOutput (F : CNFFormula) (c : Call) : Set Cl :=
  {d | ∃ p ∈ c.fwd ++ c.bwd, (F.deref p).filter (fun l => l.var ≠ c.out.var) = d}

/-- The assignment satisfies the clauses that the earlier calls left. -/
def SatisfiesLeft (F : CNFFormula) (earlier : List Call) (σ : Assignment Nat) : Prop :=
  ∀ d ∈ clausesLeft F [] earlier, ∃ i ∈ d, Ipasir.value σ i = true

/-- The assignment makes a literal true that the earlier calls left open, and satisfies the
clauses of the call other than the first without its output. -/
def Escapes (F : CNFFormula) (earlier : List Call) (c : Call) (σ : Assignment Nat) : Prop :=
  c.fwd ++ c.bwd ≠ [] ∧ (∃ i ∈ literalsOpen F [] earlier, Ipasir.value σ i = true)
    ∧ ∀ p ∈ (c.fwd ++ c.bwd).tail, Clause.SatOff σ c.out.var (F.deref p)

/-- What the earlier calls left does not change whether the clauses of the call can be
satisfied without its output. -/
structure Undisturbed (F : CNFFormula) (earlier : List Call) (c : Call) : Prop where
  /-- satisfiable clauses remain satisfiable with what is left, and the output false -/
  satisfiable : Satisfiable (c.withoutOutput F) → ∃ σ : Assignment Nat, σ c.out.var = false
    ∧ SatisfiesLeft F earlier σ ∧ (Models σ (c.withoutOutput F) ∨ Escapes F earlier c σ)
  /-- an open literal does not satisfy the first of unsatisfiable clauses -/
  unsatisfiable : ¬ Satisfiable (c.withoutOutput F) → ¬ ∃ σ : Assignment Nat,
    σ c.out.var = false ∧ SatisfiesLeft F earlier σ ∧ Escapes F earlier c σ

theorem models_withoutOutput_iff {c : Call} {σ : Assignment Nat} :
  Models σ (c.withoutOutput F) ↔ ∀ p ∈ c.fwd ++ c.bwd, Clause.SatOff σ c.out.var (F.deref p)
  := by
  have hsat : ∀ p, Clause.Sat σ ((F.deref p).filter (fun l => l.var ≠ c.out.var))
      ↔ Clause.SatOff σ c.out.var (F.deref p) := by
    intro p
    simp only [Clause.Sat, Clause.SatOff, List.mem_filter, decide_eq_true_eq, and_assoc,
      Lit.literal_var]
  constructor
  · intro h p hp
    exact (hsat p).mp (h _ ⟨p, hp, rfl⟩)
  · rintro h d ⟨p, hp, rfl⟩
    exact (hsat p).mpr (h p hp)

/-- With the output false, the clauses of a call behind open literals are satisfied by the
call's own literals, or by an open literal and the clauses after the first. -/
theorem satisfies_continued_iff (hF : F.Numbered) {earlier : List Call} {c : Call}
    {σ : Assignment Nat} (hσ : σ c.out.var = false) :
  (∀ d ∈ continued (literalsOpen F [] earlier) (c.given F), ∃ i ∈ d, Ipasir.value σ i = true)
    ↔ Models σ (c.withoutOutput F) ∨ Escapes F earlier c σ
  := by
  rw [models_withoutOutput_iff, Escapes, given]
  have hown := query_satisfied_iff hF hσ
  cases c.fwd ++ c.bwd with
  | nil =>
      apply iff_of_true
      · exact fun d hd => absurd hd List.not_mem_nil
      · left
        exact fun p hp => absurd hp List.not_mem_nil
  | cons p ps =>
      rw [List.map_cons, continued]
      simp only [List.mem_cons, forall_eq_or_imp, List.mem_append, or_and_right, exists_or,
        List.forall_mem_map, hown, List.tail_cons, ne_eq, reduceCtorEq, not_false_eq_true,
        true_and]
      exact or_comm

/-- What the solver is asked by a call after the earlier ones. -/
theorem satisfiableUnder_iff (env : Env) (hF : F.Numbered) {earlier : List Call}
    (hearlier : ∀ d ∈ earlier, 0 < d.out.var) {c : Call} (hout : 0 < c.out.var) :
  Ipasir.SatisfiableUnder (solverAfter env F [] earlier ++ queries F c.out c.fwd c.bwd)
      c.out.negative.toDimacs
    ↔ ∃ σ : Assignment Nat, σ c.out.var = false ∧ SatisfiesLeft F earlier σ
      ∧ (Models σ (c.withoutOutput F) ∨ Escapes F earlier c σ)
  := by
  obtain ⟨hfinished, hunfinished⟩ := solverAfter_spec env hF hearlier []
  apply exists_congr
  intro σ
  rw [value_negative hout, Bool.not_eq_true']
  apply and_congr_right
  intro hσ
  rw [Ipasir.finished_append, hfinished, hunfinished, finished_queries hF c,
    ← satisfies_continued_iff hF hσ]
  simp only [Ipasir.finished, List.nil_append, Ipasir.unfinished, List.mem_append, or_imp,
    forall_and]
  rfl

/-- A call finds its clauses satisfiable without the output exactly when the solver is asked a
satisfiable question, if and only if it is undisturbed. -/
theorem undisturbed_iff {earlier : List Call} {c : Call} :
  Undisturbed F earlier c ↔ (Satisfiable (c.withoutOutput F) ↔ ∃ σ : Assignment Nat,
    σ c.out.var = false ∧ SatisfiesLeft F earlier σ
      ∧ (Models σ (c.withoutOutput F) ∨ Escapes F earlier c σ))
  := by
  constructor
  · intro h
    use h.satisfiable
    rintro ⟨σ, hσ, hleft, hmodels | hescapes⟩
    · exact ⟨σ, hmodels⟩
    · by_contra hunsat
      exact h.unsatisfiable hunsat ⟨σ, hσ, hleft, hescapes⟩
  · intro h
    use h.mp
    rintro hunsat ⟨σ, hσ, hleft, hescapes⟩
    exact hunsat (h.mpr ⟨σ, hσ, hleft, Or.inr hescapes⟩)

end Call

/-! ### Answers -/

/-- In every sequence of calls, a call returns `GENERIC` exactly when its clauses cannot be
satisfied without the output, if and only if the earlier calls do not disturb it. -/
theorem fSemantic_iff (hsolver : Ipasir.Exact env.solve) (hF : F.Numbered) {calls : List Call}
    (hout : ∀ c ∈ calls, 0 < c.out.var) :
  ∀ earlier c later, calls = earlier ++ c :: later →
    (((answers env F [] calls)[earlier.length]? = some .GENERIC
        ↔ ¬ Satisfiable (c.withoutOutput F))
      ↔ Call.Undisturbed F earlier c)
  := by
  rintro earlier c later rfl
  have hearlier : ∀ d ∈ earlier, 0 < d.out.var :=
    fun d hd => hout d (List.mem_append_left _ hd)
  have hc : 0 < c.out.var := hout c (List.mem_append_right _ List.mem_cons_self)
  have hne : c.out.negative.toDimacs ≠ 0 := by
    apply toDimacs_ne_zero
    rwa [Lit.negative, Lit.ofVar_var]
  have hanswer : (answers env F [] (earlier ++ c :: later))[earlier.length]? = some .GENERIC
      ↔ (fSemantic env F c.out c.fwd c.bwd (solverAfter env F [] earlier)).1 = .GENERIC := by
    rw [answers_append, List.getElem?_append_right (length_answers _ _).le, length_answers,
      Nat.sub_self, answers, List.getElem?_cons_zero, Option.some_inj]
  rw [hanswer, Call.undisturbed_iff, ← Call.satisfiableUnder_iff env hF hearlier hc,
    fSemantic]
  have hsolve := hsolver (solverAfter env F [] earlier ++ queries F c.out c.fwd c.bwd)
    c.out.negative.toDimacs hne
  by_cases h20 : env.solve (solverAfter env F [] earlier ++ queries F c.out c.fwd c.bwd)
      c.out.negative.toDimacs = 20
  · have hunsat := hsolve.mp h20
    simp [h20, hunsat]
  · have hsat := not_not.mp (fun h => h20 (hsolve.mpr h))
    simp [h20, hsat]

theorem exactEnv_exact :
  Ipasir.Exact exactEnv.solve
  := by
  intro S a _
  by_cases h : Ipasir.SatisfiableUnder S a <;> simp [exactEnv, h]

/-- The clauses of `1 <-> 2`, and of `3 <-> 4`. -/
def twoEquivalences : CNFFormula :=
  CNFFormula.readDimacs [[-1, 2], [1, -2], [-3, 4], [3, -4]]

/-- A check of the first equivalence. -/
def firstCheck : Call :=
  ⟨⟨2⟩, [0], [1]⟩

/-- A check of the second equivalence. -/
def secondCheck : Call :=
  ⟨⟨6⟩, [2], [3]⟩

theorem twoEquivalences_numbered :
  twoEquivalences.Numbered
  := by
  apply CNFFormula.numbered_readDimacs
  decide

/-- The second check is answered correctly exactly when the first one does not disturb it. -/
theorem fSemantic_iff_secondCheck :
  ((answers exactEnv twoEquivalences [] [firstCheck, secondCheck])[1]? = some .GENERIC
      ↔ ¬ Satisfiable (secondCheck.withoutOutput twoEquivalences))
    ↔ Call.Undisturbed twoEquivalences [firstCheck] secondCheck
  := fSemantic_iff exactEnv_exact twoEquivalences_numbered (by decide) [firstCheck] secondCheck []
    rfl

/-- The second of the two checks is answered by the literal that the first one left open. -/
theorem not_fSemantic_secondCheck :
  ¬ ∀ (env : Env) (F : CNFFormula) (calls : List Call), Ipasir.Exact env.solve → F.Numbered →
      (∀ c ∈ calls, 0 < c.out.var) → ∀ earlier c later, calls = earlier ++ c :: later →
      ((answers env F [] calls)[earlier.length]? = some .GENERIC
        ↔ ¬ Satisfiable (c.withoutOutput F))
  := by
  intro h
  have hunsat : ¬ Satisfiable (secondCheck.withoutOutput twoEquivalences) := by
    rintro ⟨σ, hσ⟩
    have hpos := hσ [⟨8⟩] ⟨2, by decide⟩
    have hneg := hσ [⟨9⟩] ⟨3, by decide⟩
    obtain ⟨l, hl, hval⟩ := hpos
    obtain ⟨k, hk, hkval⟩ := hneg
    rw [List.mem_singleton.mp hl] at hval
    rw [List.mem_singleton.mp hk] at hkval
    have hcompl : (⟨9⟩ : Lit) = Literal.neg (⟨8⟩ : Lit) := by decide
    rw [hcompl, Assignment.value_neg, hval] at hkval
    cases hkval
  have hgeneric := (h exactEnv twoEquivalences [firstCheck, secondCheck] exactEnv_exact
    twoEquivalences_numbered (by decide) [firstCheck] secondCheck [] rfl).mpr hunsat
  have hsolve : exactEnv.solve [1, 2, 0, 1, -2, 0, 1, 3, 4, 0, 3, -4, 0] (-3) = 20 := by
    by_contra h20
    have heq : (answers exactEnv twoEquivalences [] [firstCheck, secondCheck])[1]?
        = some .NONE :=
      congrArg some (if_neg h20)
    rw [List.length_singleton, heq] at hgeneric
    cases hgeneric
  apply (exactEnv_exact _ _ (by decide)).mp hsolve
  use fun v => v = 1 || v = 2
  decide

end Analyzer

end CnfTools
