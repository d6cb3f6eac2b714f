import IgnoreGates.CnfTools.AnalyzerInvariant

/-!
# Runs of the gate analysis

Every level of the search that leads to a further one, and every iteration of the outer
loop, takes clauses out of the occurrence list.  Hence the bounds on the numbers of
iterations are never reached, and `analyze` fails only where a resource limit stops it.
A completed run ends in a reachable state; clauses are pending there only if the timeout
ended the run.
-/

namespace CnfTools.Analyzer

variable {env : Env} {F : CNFFormula}

/-! ### The search -/

theorem foldlM_visit (candidates : List Lit) {a : Analyzer} (h : Reachable env F [] a)
    (frontier : List Lit) :
  ∃ a' frontier', candidates.foldlM (visit env F) (a, frontier) = .ok (a', frontier')
    ∧ Reachable env F [] a' ∧ (a.used []).length ≤ (a'.used []).length
    ∧ (frontier' = frontier ∨ (a.used []).length < (a'.used []).length)
  := by
  induction candidates generalizing a frontier with
  | nil => exact ⟨a, frontier, rfl, h, le_rfl, Or.inl rfl⟩
  | cons c cs ih =>
      obtain ⟨a₁, frontier₁, hvisit, -, -, hle₁, hgrow₁⟩ := h.inv.1.visit h.inv.2 frontier c
      obtain ⟨a₂, frontier₂, hfold, hreach, hle₂, hgrow₂⟩ := ih (h.visit hvisit) frontier₁
      refine ⟨a₂, frontier₂, ?_, hreach, hle₁.trans hle₂, ?_⟩
      · rw [List.foldlM_cons, hvisit]
        exact hfold
      · obtain rfl | hlt := hgrow₁
        · obtain rfl | hlt := hgrow₂
          · exact Or.inl rfl
          · exact Or.inr (lt_of_le_of_lt hle₁ hlt)
        · exact Or.inr (lt_of_lt_of_le hlt hle₂)

theorem frontierOrder_nil (env : Env) (a : Analyzer) :
  env.frontierOrder a [] = []
  := by
  apply List.eq_nil_iff_forall_not_mem.mpr
  intro l hl
  exact absurd ((env.mem_frontierOrder a [] l).mp hl) List.not_mem_nil

theorem gateRecognition_cons (n : Nat) (a : Analyzer) (c : Lit) (cs : List Lit) :
  gateRecognition env F (n + 1) a (c :: cs)
    = if env.withinLimits a then do
        let (a, frontier) ← (c :: cs).foldlM (visit env F) (a, [])
        gateRecognition env F n a (env.frontierOrder a frontier)
      else
        .error .limitsExceeded
  := rfl

/-- A run that a resource limit has stopped. -/
def Stopped {α : Type} (env : Env) (x : Except Fault α) : Prop :=
  x = .error .limitsExceeded ∧ ∃ a, env.withinLimits a = false

/-- The search stays on reachable states and ends within its bound or at a resource
limit. -/
theorem gateRecognition_spec {n : Nat} {a : Analyzer} (h : Reachable env F [] a)
    (hn : F.nClauses < n + (a.used []).length) (candidates : List Lit) :
  Stopped env (gateRecognition env F n a candidates)
    ∨ ∃ a', gateRecognition env F n a candidates = .ok a' ∧ Reachable env F [] a'
      ∧ (a.used []).length ≤ (a'.used []).length
  := by
  induction n generalizing a candidates with
  | zero =>
      have := h.inv.1.length_used
      omega
  | succ n ih =>
      cases candidates with
      | nil =>
          right
          exact ⟨a, rfl, h, le_rfl⟩
      | cons c cs =>
          rw [gateRecognition_cons]
          cases hlimits : env.withinLimits a with
          | false =>
              left
              exact ⟨rfl, a, hlimits⟩
          | true =>
              obtain ⟨a', frontier, hfold, hreach, hle, hgrow⟩ := foldlM_visit (c :: cs) h []
              simp only [if_true, hfold, bind, Except.bind]
              obtain rfl | hlt := hgrow
              · right
                rw [frontierOrder_nil]
                refine ⟨a', ?_, hreach, hle⟩
                cases n <;> rfl
              · obtain herr | ⟨a'', hok, hreach', hle'⟩ :=
                  ih hreach (by omega) (env.frontierOrder a' frontier)
                · left
                  exact herr
                · right
                  exact ⟨a'', hok, hreach', hle.trans hle'⟩

/-! ### The outer loop -/

/-- The states at the end of the iterations of the loop of `analyze`, before the next roots
are estimated and the time is taken. -/
inductive RoundEnd (env : Env) (F : CNFFormula) : Analyzer → Prop where
  | first {rootClauses : For} {a b : Analyzer} :
      estimateRoots F (init F) = .ok (rootClauses, a) → rootClauses ≠ [] →
      round env F rootClauses a = .ok b → RoundEnd env F b
  | next {rootClauses : For} {b a b' : Analyzer} :
      RoundEnd env F b → env.timeout b = false →
      estimateRoots F b = .ok (rootClauses, a) → rootClauses ≠ [] →
      round env F rootClauses a = .ok b' → RoundEnd env F b'

/-- The rest of an iteration and of the loop. -/
def afterRound (env : Env) (F : CNFFormula) (n : Nat) (b : Analyzer) :
    Except Fault (For × Analyzer) := do
  let (rootClauses, a) ← estimateRoots F b
  if env.timeout b then .ok (rootClauses, a) else analyzeLoop env F n rootClauses a

theorem analyzeLoop_succ {n : Nat} {rootClauses : For} {a : Analyzer} (hne : rootClauses ≠ []) :
  analyzeLoop env F (n + 1) rootClauses a = (do afterRound env F n (← round env F rootClauses a))
  := by
  cases rootClauses with
  | nil => exact absurd rfl hne
  | cons p ps => rfl

theorem used_length_cons {a : Analyzer} {rootClauses : For} :
  (a.used rootClauses).length = rootClauses.length + (a.used []).length
  := by
  simp only [used, List.length_append, List.length_nil]
  omega

/-- An iteration fails only at a resource limit, and it uses its root clauses. -/
theorem round_spec {a : Analyzer} {rootClauses : For} (h : Reachable env F rootClauses a) :
  Stopped env (round env F rootClauses a)
    ∨ ∃ b, round env F rootClauses a = .ok b ∧ Reachable env F [] b
      ∧ rootClauses.length + (a.used []).length ≤ (b.used []).length
  := by
  have hused : ((addRoots F a rootClauses).used []).length
      = rootClauses.length + (a.used []).length := by
    simp only [used, addRoots_roots, List.length_append, List.length_nil]
    have hlog : (addRoots F a rootClauses).logClauses = a.logClauses := rfl
    have hindex : (addRoots F a rootClauses).index = a.index := rfl
    rw [hlog, hindex]
    omega
  have hspec := gateRecognition_spec (n := F.nClauses + 1) h.addRoots (by omega)
    (rootClauses.flatMap F.deref)
  rwa [hused] at hspec

/-- Estimating roots succeeds on a reachable state.  Where it finds none, no clause is left in
the index. -/
theorem estimateRoots_spec {b : Analyzer} (h : Reachable env F [] b) :
  ∃ rootClauses a, estimateRoots F b = .ok (rootClauses, a)
    ∧ Reachable env F rootClauses a
    ∧ (a.used []).length = (b.used []).length
    ∧ (rootClauses = [] → b.live F [] = ∅)
  := by
  obtain ⟨roots, index, heq, -, hunitc, hnil⟩ := h.inv.1.estimateRoots
  refine ⟨roots, _, heq, h.estimateRoots heq, ?_, hnil⟩
  have hlog : ({ b with index } : Analyzer).logClauses = b.logClauses := rfl
  simp only [used, hunitc, h.inv.2, hlog]

/-- The states at the ends of iterations are reachable, and the loop arrives at each of them
with iterations left. -/
theorem RoundEnd.afterRound {b : Analyzer} (h : RoundEnd env F b) {rootClauses : For}
    {a : Analyzer} (hstart : estimateRoots F (init F) = .ok (rootClauses, a)) :
  Reachable env F [] b
    ∧ ∃ n, F.nClauses < n + (b.used []).length
      ∧ analyzeLoop env F (F.nClauses + 1) rootClauses a = afterRound env F n b
  := by
  induction h with
  | @first roots a₀ b heq hne hround =>
      rw [hstart] at heq
      cases heq
      obtain ⟨herr, -⟩ | ⟨b', hok, hreach, hle⟩ := round_spec (Reachable.init hstart)
      · rw [hround] at herr
        cases herr
      · rw [hround] at hok
        cases hok
        have := List.length_pos_of_ne_nil hne
        refine ⟨hreach, F.nClauses, by omega, ?_⟩
        rw [analyzeLoop_succ hne, hround]
        rfl
  | @next roots b a₁ b' _ htime heq hne hround ih =>
      obtain ⟨hreachb, n, hn, hloop⟩ := ih
      obtain ⟨roots', a', heq', hreacha, hused, -⟩ := estimateRoots_spec hreachb
      rw [heq] at heq'
      cases heq'
      obtain ⟨herr, -⟩ | ⟨b'', hok, hreach, hle⟩ := round_spec hreacha
      · rw [hround] at herr
        cases herr
      rw [hround] at hok
      cases hok
      have hpos := List.length_pos_of_ne_nil hne
      have hbound := hreach.inv.1.length_used
      obtain ⟨m, rfl⟩ : ∃ m, n = m + 1 := ⟨n - 1, by omega⟩
      refine ⟨hreach, m, by omega, ?_⟩
      rw [hloop, Analyzer.afterRound, heq]
      simp only [bind, Except.bind, htime, Bool.false_eq_true, if_false]
      rw [analyzeLoop_succ hne, hround]
      rfl

/-- The states in which the loop of `analyze` tests its condition, the timeout not being
set. -/
def Head (env : Env) (F : CNFFormula) (rootClauses : For) (a : Analyzer) : Prop :=
  estimateRoots F (init F) = .ok (rootClauses, a)
    ∨ ∃ b, RoundEnd env F b ∧ env.timeout b = false ∧ estimateRoots F b = .ok (rootClauses, a)

theorem Head.roundEnd {rootClauses : For} {a b : Analyzer} (h : Head env F rootClauses a)
    (hne : rootClauses ≠ []) (hround : round env F rootClauses a = .ok b) :
  RoundEnd env F b
  := by
  obtain h | ⟨b', hb', htime, h⟩ := h
  · exact RoundEnd.first h hne hround
  · exact RoundEnd.next hb' htime h hne hround

/-- How the loop of `analyze` can end with the clauses `pending` not added: there are none,
or the timeout ended the loop. -/
def Ended (env : Env) (F : CNFFormula) (pending : For) (a : Analyzer) : Prop :=
  pending = []
    ∨ ∃ b, RoundEnd env F b ∧ env.timeout b = true ∧ estimateRoots F b = .ok (pending, a)

theorem analyzeLoop_spec {n : Nat} {rootClauses : For} {a : Analyzer}
    (hhead : Head env F rootClauses a) (h : Reachable env F rootClauses a)
    (hn : F.nClauses < n + (a.used []).length) :
  Stopped env (analyzeLoop env F n rootClauses a)
    ∨ ∃ pending a', analyzeLoop env F n rootClauses a = .ok (pending, a')
      ∧ Reachable env F pending a' ∧ Ended env F pending a'
  := by
  induction n generalizing rootClauses a with
  | zero =>
      have := h.inv.1.length_used
      rw [used_length_cons] at this
      omega
  | succ n ih =>
      by_cases hne : rootClauses = []
      · right
        subst hne
        exact ⟨[], a, rfl, h, Or.inl rfl⟩
      rw [analyzeLoop_succ hne]
      obtain ⟨herr, hlimits⟩ | ⟨b, hround, hreachb, hle⟩ := round_spec h
      · left
        rw [herr]
        exact ⟨rfl, hlimits⟩
      have hend := hhead.roundEnd hne hround
      obtain ⟨roots, a', heq, hreach, hused, -⟩ := estimateRoots_spec hreachb
      rw [hround]
      simp only [bind, Except.bind, afterRound, heq]
      cases htime : env.timeout b with
      | true =>
          right
          exact ⟨roots, a', rfl, hreach, Or.inr ⟨b, hend, htime, heq⟩⟩
      | false =>
          have := List.length_pos_of_ne_nil hne
          exact ih (Or.inr ⟨b, hend, htime, heq⟩) hreach (by omega)

/-- The loop of `analyze` in a run: its start, and how it ends unless a resource limit stops
it. -/
theorem analyzeLoop_start (env : Env) (F : CNFFormula) :
  ∃ rootClauses a, estimateRoots F (init F) = .ok (rootClauses, a)
    ∧ (Stopped env (analyzeLoop env F (F.nClauses + 1) rootClauses a)
      ∨ ∃ pending a', analyzeLoop env F (F.nClauses + 1) rootClauses a = .ok (pending, a')
        ∧ Reachable env F pending a' ∧ Ended env F pending a')
  := by
  obtain ⟨roots, index, heq, -, -, -⟩ := (Inv.init env F).estimateRoots
  exact ⟨roots, _, heq, analyzeLoop_spec (Or.inl heq) (Reachable.init heq) (by omega)⟩

/-- The analysis fails only where a resource limit stops it. -/
theorem analyze_total (env : Env) (F : CNFFormula) :
  Stopped env (analyze env F) ∨ ∃ r, analyze env F = .ok r
  := by
  obtain ⟨roots, a, heq, ⟨herr, hlimits⟩ | ⟨pending, a', hok, -, -⟩⟩ := analyzeLoop_start env F
  · left
    rw [analyze, heq]
    simp only [bind, Except.bind, herr]
    exact ⟨rfl, hlimits⟩
  · right
    use addRemainder env F a'
    rw [analyze, heq]
    simp only [bind, Except.bind, hok]
    rfl

/-- A completed run ends in a reachable state.  If the time has run out at the end of an
iteration, the root clauses estimated there are the pending ones. -/
theorem of_analyze {r : Analyzer} (h : analyze env F = .ok r) :
  ∃ pending a, r = addRemainder env F a ∧ Reachable env F pending a ∧ Ended env F pending a
    ∧ ∀ b, RoundEnd env F b → env.timeout b = true → estimateRoots F b = .ok (pending, a)
  := by
  obtain ⟨roots, a, heq, hloop⟩ := analyzeLoop_start env F
  rw [analyze, heq] at h
  obtain ⟨herr, -⟩ | ⟨pending, a', hok, hreach, hended⟩ := hloop
  · simp only [bind, Except.bind, herr] at h
    cases h
  · simp only [bind, Except.bind, hok] at h
    cases h
    refine ⟨pending, a', rfl, hreach, hended, ?_⟩
    intro b hb htime
    obtain ⟨hreachb, n, -, hloop⟩ := hb.afterRound heq
    obtain ⟨roots', a'', heq', -⟩ := estimateRoots_spec hreachb
    rw [hok, afterRound, heq'] at hloop
    simp only [bind, Except.bind, htime, if_true] at hloop
    cases hloop
    exact heq'

end CnfTools.Analyzer
