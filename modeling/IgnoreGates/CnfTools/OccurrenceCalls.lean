import IgnoreGates.CnfTools.GateStructure

/-!
# The calls of the occurrence list

A run of the gate analysis is looked at between the calls of `estimateRoots` and `remove`
that it makes, with the two calls of `remove` for a gate apart.  At every such point the
index lists each clause that no call has returned or removed under each of its literals, and
every call of `remove` finds the clauses it scans for.

At the end of a run without limits nothing is left in the index.
-/

namespace CnfTools.Analyzer

open Logic

variable {env : Env} {F : CNFFormula}

/-- A call of a method of `OccurrenceList`, with the clauses that it has returned or that it
has been given. -/
inductive OccurrenceCall where
  | estimateRoots (result : For)
  | remove (list : For)

/-- The clauses that are not live any more after a call. -/
def OccurrenceCall.clauses : OccurrenceCall → For
  | .estimateRoots result => result
  | .remove list => list

/-! ### Runs with their calls -/

/-- The runs of `analyze` between its steps, with the calls they have made: as `Reachable`,
with a visit of a candidate split at the calls of `remove`. -/
inductive Run (env : Env) (F : CNFFormula) : List OccurrenceCall → For → Analyzer → Prop where
  | init {a : Analyzer} {rootClauses : For} :
      Analyzer.estimateRoots F (Analyzer.init F) = .ok (rootClauses, a) →
      Run env F [.estimateRoots rootClauses] rootClauses a
  | estimateRoots {calls : List OccurrenceCall} {a a' : Analyzer} {rootClauses : For} :
      Run env F calls [] a → Analyzer.estimateRoots F a = .ok (rootClauses, a') →
      Run env F (calls ++ [.estimateRoots rootClauses]) rootClauses a'
  | addRoots {calls : List OccurrenceCall} {a : Analyzer} {rootClauses : For} :
      Run env F calls rootClauses a → Run env F calls [] (Analyzer.addRoots F a rootClauses)
  | reject {calls : List OccurrenceCall} {a a' : Analyzer} {candidate : Lit} :
      Run env F calls [] a → checkAddGate env F a candidate = (false, a') →
      Run env F calls [] a'
  | addGate {calls : List OccurrenceCall} {a a' : Analyzer} {candidate : Lit}
      {index index' : Index} :
      Run env F calls [] a → checkAddGate env F a candidate = (true, a') →
      OccurrenceList.remove F a'.index.index (a'.gateFormula.getGate candidate).fwd = .ok index →
      OccurrenceList.remove F index (a'.gateFormula.getGate candidate).bwd = .ok index' →
      Run env F (calls ++ [.remove (a'.gateFormula.getGate candidate).fwd,
        .remove (a'.gateFormula.getGate candidate).bwd]) []
        { a' with index := { a'.index with index := index' } }

/-- The occurrence list after the calls made so far: before the first call, at the states of
the runs, and between the two calls of `remove` for a gate. -/
inductive Between (env : Env) (F : CNFFormula) :
    List OccurrenceCall → OccurrenceList → Prop where
  | start : Between env F [] (Analyzer.init F).index
  | run {calls : List OccurrenceCall} {pending : For} {a : Analyzer} :
      Run env F calls pending a → Between env F calls a.index
  | gate {calls : List OccurrenceCall} {a a' : Analyzer} {candidate : Lit} {index : Index} :
      Run env F calls [] a → checkAddGate env F a candidate = (true, a') →
      OccurrenceList.remove F a'.index.index (a'.gateFormula.getGate candidate).fwd = .ok index →
      Between env F (calls ++ [.remove (a'.gateFormula.getGate candidate).fwd])
        { a'.index with index }

/-- The calls of `remove` that a run makes next: the index it is called on and the clauses to
be removed.  `estimateRoots` calls it on the index without the list that it hands out. -/
inductive Removes (env : Env) (F : CNFFormula) : Index → For → Prop where
  | fwd {calls : List OccurrenceCall} {a a' : Analyzer} {candidate : Lit} :
      Run env F calls [] a → checkAddGate env F a candidate = (true, a') →
      Removes env F a'.index.index (a'.gateFormula.getGate candidate).fwd
  | bwd {calls : List OccurrenceCall} {a a' : Analyzer} {candidate : Lit} {index : Index} :
      Run env F calls [] a → checkAddGate env F a candidate = (true, a') →
      OccurrenceList.remove F a'.index.index (a'.gateFormula.getGate candidate).fwd = .ok index →
      Removes env F index (a'.gateFormula.getGate candidate).bwd
  | roots {calls : List OccurrenceCall} {ol : OccurrenceList} (l : Lit) :
      Between env F calls ol → ol.unitc = [] →
      l = ⟨OccurrenceList.lower ol.index ol.maxLiteral.x⟩ → 0 < l.x →
      Removes env F (Function.update ol.index l []) (ol.index l)

/-- A candidate that `checkAddGate` accepts: the gate has the clauses listed under the
candidate and its complement, which are still in the index. -/
theorem checkAddGate_true {a a' : Analyzer} {out : Lit}
    (h : checkAddGate env F a out = (true, a')) :
  ∃ type S, (∀ index, { a' with index := { a'.index with index } } = a.added F type out S index)
    ∧ a'.index = a.index
    ∧ (a'.gateFormula.getGate out).fwd = a.index.index (~~~out)
    ∧ (a'.gateFormula.getGate out).bwd = a.index.index out
  := by
  rw [checkAddGate] at h
  split at h
  · generalize hfound : findType env F out (a.index.index (~~~out)) (a.index.index out) a.S = found
      at h
    obtain ⟨type, S⟩ := found
    dsimp only at h
    split at h
    · obtain rfl := (Prod.mk.inj h).2
      refine ⟨type, S, fun _ => rfl, rfl, ?_, ?_⟩
      · rw [GateFormula.addGate_getGate]
        rfl
      · rw [GateFormula.addGate_getGate]
        rfl
    · cases (Prod.mk.inj h).1
  · cases (Prod.mk.inj h).1

theorem checkAddGate_false {a a' : Analyzer} {out : Lit}
    (h : checkAddGate env F a out = (false, a')) :
  ∃ S, a' = { a with S }
  := by
  rw [checkAddGate] at h
  split at h
  · generalize hfound : findType env F out (a.index.index (~~~out)) (a.index.index out) a.S = found
      at h
    obtain ⟨type, S⟩ := found
    dsimp only at h
    split at h
    · cases (Prod.mk.inj h).1
    · exact ⟨S, (Prod.mk.inj h).2.symm⟩
  · exact ⟨a.S, (Prod.mk.inj h).2.symm⟩

/-- The runs with their calls go through reachable states. -/
theorem Run.reachable {calls : List OccurrenceCall} {pending : For} {a : Analyzer}
    (h : Run env F calls pending a) :
  Reachable env F pending a
  := by
  induction h with
  | init heq => exact Reachable.init heq
  | estimateRoots _ heq ih => exact ih.estimateRoots heq
  | addRoots _ ih => exact ih.addRoots
  | @reject calls a a' candidate _ hcheck ih =>
      have hvisit : visit env F (a, []) candidate = .ok (a', []) := by
        rw [Analyzer.visit, hcheck]
      exact ih.visit hvisit
  | @addGate calls a a' candidate index index' _ hcheck hfwd hbwd ih =>
      have hvisit : visit env F (a, []) candidate
          = .ok ({ a' with index := { a'.index with index := index' } },
            [] ++ (a'.gateFormula.getGate candidate).inp) := by
        rw [Analyzer.visit, hcheck]
        simp only [hfwd, hbwd, bind, Except.bind]
        rfl
      exact ih.visit hvisit

/-! ### What the index lists between the calls -/

/-- No call has returned or removed the clause. -/
def Live (calls : List OccurrenceCall) (p : Ptr) : Prop :=
  ∀ call ∈ calls, p ∉ call.clauses

/-- The clauses of two or more literals that are live after the calls. -/
def liveClauses (F : CNFFormula) (calls : List OccurrenceCall) : Set Ptr :=
  {p | 1 < (F.deref p).length ∧ Live calls p}

theorem liveClauses_nil (F : CNFFormula) :
  liveClauses F [] = {p | 1 < (F.deref p).length}
  := by
  ext p
  simp [liveClauses, Live]

theorem liveClauses_append (calls : List OccurrenceCall) (call : OccurrenceCall) :
  liveClauses F (calls ++ [call]) = liveClauses F calls \ {p | p ∈ call.clauses}
  := by
  ext p
  simp only [liveClauses, Live, List.forall_mem_append, List.forall_mem_singleton,
    Set.mem_ofPred_eq, Set.mem_sdiff, and_assoc]

/-- The index lists the live non-unit clauses once under each of their literals, and no other
clauses; the lists above `max_literal` are empty. -/
structure Represents (F : CNFFormula) (calls : List OccurrenceCall) (ol : OccurrenceList) :
    Prop where
  nodup : ∀ l, (ol.index l).Nodup
  mem : ∀ l p, p ∈ ol.index l
    ↔ p ∈ F.pointers ∧ (F.deref p).length ≠ 1 ∧ Live calls p ∧ l ∈ F.deref p
  above : ∀ l, ol.maxLiteral < l → ol.index l = []

theorem represents_of_holds {calls : List OccurrenceCall} {ol : OccurrenceList}
    (h : OccurrenceList.Holds F ol (liveClauses F calls)) :
  Represents F calls ol
  := by
  refine ⟨h.lists.nodup, ?_, h.above⟩
  intro l p
  rw [h.lists.mem l p, liveClauses, Set.mem_ofPred_eq]
  constructor
  · rintro ⟨⟨hlen, hlive⟩, hl, -⟩
    exact ⟨List.mem_range.mpr (F.lt_of_mem_deref hl), by omega, hlive, hl⟩
  · rintro ⟨-, hlen, hlive, hl⟩
    have hpos := List.length_pos_of_mem hl
    exact ⟨⟨by omega, hlive⟩, hl, Set.notMem_empty l⟩

/-- The clauses of two or more literals that estimating roots takes out are the roots. -/
theorem live_estimateRoots {a a' : Analyzer} {rootClauses : For} (h : Inv env F [] a)
    (heq : Analyzer.estimateRoots F a = .ok (rootClauses, a')) :
  a'.live F rootClauses = a.live F [] \ {p | p ∈ rootClauses}
  := by
  obtain ⟨roots, index, heq', -, hunitc, -⟩ := h.estimateRoots
  rw [heq] at heq'
  cases heq'
  ext p
  have hlog : ({ a with index } : Analyzer).logClauses = a.logClauses := rfl
  simp only [live, mem_used, Set.mem_sdiff, Set.mem_ofPred_eq, hunitc, hlog, List.not_mem_nil,
    false_or, not_or]
  constructor
  · rintro ⟨hlen, hroot, hrest⟩
    refine ⟨⟨hlen, ?_, hrest⟩, hroot⟩
    intro hp
    have := h.holds.unitc_length p hp
    omega
  · rintro ⟨⟨hlen, -, hrest⟩, hroot⟩
    exact ⟨hlen, hroot, hrest⟩

/-- The clauses in the index of a state of a run are those no call has returned or removed. -/
theorem Run.live {calls : List OccurrenceCall} {pending : For} {a : Analyzer}
    (h : Run env F calls pending a) :
  a.live F pending = liveClauses F calls
  := by
  induction h with
  | @init a rootClauses heq =>
      rw [live_estimateRoots (Inv.init env F) heq, live_init, ← liveClauses_nil]
      exact (liveClauses_append [] (.estimateRoots rootClauses)).symm
  | estimateRoots hrun heq ih =>
      rw [live_estimateRoots hrun.reachable.inv.1 heq, ih, liveClauses_append]
      rfl
  | addRoots hrun ih =>
      rw [← ih]
      apply live_congr
      intro p
      exact (used_addRoots_perm _ _).mem_iff.symm
  | reject hrun hcheck ih =>
      obtain ⟨S, rfl⟩ := checkAddGate_false hcheck
      exact ih
  | addGate hrun hcheck hfwd hbwd ih =>
      obtain ⟨type, S, hadded, -, hgfwd, hgbwd⟩ := checkAddGate_true hcheck
      rw [hadded, live_added, ih, hgfwd, hgbwd, List.append_cons, liveClauses_append,
        liveClauses_append]
      rfl

/-- The first call of `remove` for a gate succeeds. -/
theorem Run.remove_fwd {calls : List OccurrenceCall} {a a' : Analyzer} {candidate : Lit}
    (h : Run env F calls [] a) (hcheck : checkAddGate env F a candidate = (true, a')) :
  ∃ index, OccurrenceList.remove F a'.index.index (a'.gateFormula.getGate candidate).fwd
      = .ok index
    ∧ OccurrenceList.Holds F { a'.index with index }
      (liveClauses F (calls ++ [.remove (a'.gateFormula.getGate candidate).fwd]))
  := by
  have hholds := h.reachable.inv.1.holds
  obtain ⟨type, S, -, hindex, hgfwd, -⟩ := checkAddGate_true hcheck
  rw [h.live] at hholds
  rw [hindex, hgfwd, liveClauses_append]
  exact hholds.remove (fun p hp => ((hholds.lists.mem _ p).mp hp).1) (hholds.lists.nodup _)

/-- Between the calls the occurrence list holds the clauses no call has returned or removed. -/
theorem Between.holds {calls : List OccurrenceCall} {ol : OccurrenceList}
    (h : Between env F calls ol) :
  OccurrenceList.Holds F ol (liveClauses F calls)
  := by
  cases h with
  | start =>
      rw [liveClauses_nil]
      exact OccurrenceList.holds_init F
  | run hrun =>
      rw [← hrun.live]
      exact hrun.reachable.inv.1.holds
  | gate hrun hcheck hfwd =>
      obtain ⟨index, heq, hholds⟩ := hrun.remove_fwd hcheck
      rw [hfwd] at heq
      cases heq
      exact hholds

/-- What `remove` does to clauses that are listed: it finds them all, and takes them out of the
lists and nothing else. -/
theorem removes_listed {index : Index} {list : For} {live : Set Ptr} {Z : Set Lit}
    (h : OccurrenceList.Lists F index live Z) (hlist : ∀ p ∈ list, p ∈ live)
    (hnodup : list.Nodup) :
  ∃ index', OccurrenceList.remove F index list = .ok index'
    ∧ ∀ l p, p ∈ index' l ↔ p ∈ index l ∧ p ∉ list
  := by
  obtain ⟨index', heq, hleft⟩ := h.remove hlist hnodup
  refine ⟨index', heq, ?_⟩
  intro l p
  rw [hleft.mem l p, h.mem l p, Set.mem_sdiff, Set.mem_ofPred_eq]
  tauto

/-- Every call of `remove` finds the clauses it scans for. -/
theorem Removes.found {index : Index} {list : For} (h : Removes env F index list) :
  ∃ index', OccurrenceList.remove F index list = .ok index'
    ∧ ∀ l p, p ∈ index' l ↔ p ∈ index l ∧ p ∉ list
  := by
  cases h with
  | fwd hrun hcheck =>
      have hlists := hrun.reachable.inv.1.holds.lists
      obtain ⟨type, S, -, hindex, hgfwd, -⟩ := checkAddGate_true hcheck
      rw [hindex, hgfwd]
      exact removes_listed hlists (fun p hp => ((hlists.mem _ p).mp hp).1) (hlists.nodup _)
  | @bwd calls a a' candidate index hrun hcheck hfwd =>
      have hlists := hrun.reachable.inv.1.holds.lists
      have hholds := (Between.gate hrun hcheck hfwd).holds
      obtain ⟨type, S, -, hindex, hgfwd, hgbwd⟩ := checkAddGate_true hcheck
      rw [hgbwd]
      apply removes_listed hholds.lists _ (hlists.nodup _)
      intro p hp
      rw [liveClauses_append, ← hrun.live]
      obtain ⟨hlive, hmem, -⟩ := (hlists.mem _ p).mp hp
      refine ⟨hlive, ?_⟩
      rw [Set.mem_ofPred_eq, OccurrenceCall.clauses, hgfwd]
      intro hp'
      exact (F.deref_canonical p).compl_not_mem hmem ((hlists.mem _ p).mp hp').2.1
  | roots l hbetween hunitc hl hpos =>
      have hlists := hbetween.holds.lists
      exact removes_listed (hlists.clear l) (fun p hp => ((hlists.mem _ p).mp hp).1)
        (hlists.nodup l)

/-- The occurrence list represents the live clauses between all calls that the analysis makes,
and the scans of `remove` always find their clause. -/
theorem occurrenceList_represents (env : Env) (F : CNFFormula) :
  (∀ calls ol, Between env F calls ol → Represents F calls ol)
    ∧ (∀ index list, Removes env F index list →
      ∃ index', OccurrenceList.remove F index list = .ok index'
        ∧ ∀ l p, p ∈ index' l ↔ p ∈ index l ∧ p ∉ list)
    ∧ analyze env F ≠ .error .outOfBounds
  := by
  refine ⟨?_, ?_, ?_⟩
  · intro calls ol h
    exact represents_of_holds h.holds
  · intro index list h
    exact h.found
  · intro h
    obtain ⟨herr, -⟩ | ⟨r, hok⟩ := analyze_total env F
    · rw [h] at herr
      cases herr
    · rw [h] at hok
      cases hok

/-- After the unit has been handed out and the gate of its variable, with two clauses forward and
one backward, has been removed. -/
theorem occurrenceList_represents_twoGates :
  ∃ rootClauses fwd bwd a,
    Run (Env.small false) twoGates [.estimateRoots rootClauses, .remove fwd, .remove bwd] [] a
    ∧ (rootClauses.length = 1 ∧ fwd.length = 2 ∧ bwd.length = 1)
    ∧ Represents twoGates [.estimateRoots rootClauses, .remove fwd, .remove bwd] a.index
  := by
  obtain ⟨hrepresents, hremoves, -⟩ := occurrenceList_represents (Env.small false) twoGates
  let candidate : Lit := Lit.ofVar 4 false
  let added := fun r : For × Analyzer =>
    checkAddGate (Env.small false) twoGates (addRoots twoGates r.2 r.1) candidate
  let gate := fun r : For × Analyzer => (added r).2.gateFormula.getGate candidate
  obtain ⟨r, hr, hsizes⟩ := exists_ok_of_any
    (P := fun r : For × Analyzer => (added r).1 = true ∧ r.1.length = 1 ∧ (gate r).fwd.length = 2
      ∧ (gate r).bwd.length = 1)
    (by decide +kernel : (Analyzer.estimateRoots twoGates (Analyzer.init twoGates)).toOption.any
      (fun r => (added r).1 = true ∧ r.1.length = 1 ∧ (gate r).fwd.length = 2
        ∧ (gate r).bwd.length = 1) = true)
  obtain ⟨hadded, hsizes⟩ := of_decide_eq_true hsizes
  have hroots : Run (Env.small false) twoGates [.estimateRoots r.1] [] (addRoots twoGates r.2 r.1) :=
    (Run.init hr).addRoots
  have hcheck : checkAddGate (Env.small false) twoGates (addRoots twoGates r.2 r.1) candidate
      = (true, (added r).2) := Prod.ext hadded rfl
  obtain ⟨index, hfwd, -⟩ := hremoves _ _ (Removes.fwd hroots hcheck)
  obtain ⟨index', hbwd, -⟩ := hremoves _ _ (Removes.bwd hroots hcheck hfwd)
  have hrun := Run.addGate hroots hcheck hfwd hbwd
  exact ⟨_, _, _, _, hrun, hsizes, hrepresents _ _ (Between.run hrun)⟩

/-! ### Runs without limits -/

/-- The search ends if no resource limit is ever reached. -/
theorem gateRecognition_total (hlimits : ∀ a, env.withinLimits a = true) {a : Analyzer}
    (h : Reachable env F [] a) (candidates : List Lit) :
  ∃ a', gateRecognition env F (F.nClauses + 1) a candidates = .ok a'
  := by
  obtain ⟨-, b, hb⟩ | ⟨a', hok, -, -⟩ :=
    gateRecognition_spec (n := F.nClauses + 1) h (by omega) candidates
  · rw [hlimits b] at hb
    cases hb
  · exact ⟨a', hok⟩

/-- Without limits the loop of `analyze` goes on until no clause is left in the index. -/
theorem analyzeLoop_consumes (hlimits : ∀ a, env.withinLimits a = true)
    (htimeout : ∀ a, env.timeout a = false) {n : Nat} {rootClauses : For} {a : Analyzer}
    (h : Reachable env F rootClauses a) (hroots : rootClauses = [] → a.live F [] = ∅)
    (hn : F.nClauses < n + (a.used []).length) :
  ∃ a', analyzeLoop env F n rootClauses a = .ok ([], a') ∧ Reachable env F [] a'
    ∧ a'.live F [] = ∅
  := by
  induction n generalizing rootClauses a with
  | zero =>
      have hlen := h.inv.1.length_used
      rw [used_length_cons] at hlen
      omega
  | succ n ih =>
      by_cases hne : rootClauses = []
      · subst hne
        exact ⟨a, rfl, h, hroots rfl⟩
      obtain ⟨-, b, hb⟩ | ⟨b, hround, hreachb, hle⟩ := round_spec h
      · rw [hlimits b] at hb
        cases hb
      obtain ⟨roots, a', heq, hreach, hused, hnil⟩ := estimateRoots_spec hreachb
      have hpos := List.length_pos_of_ne_nil hne
      rw [analyzeLoop_succ hne, hround]
      simp only [bind, Except.bind, afterRound, heq, htimeout b, Bool.false_eq_true, if_false]
      apply ih hreach _ (by omega)
      intro hroots'
      have hlive := live_estimateRoots hreachb.inv.1 heq
      rw [hroots', hnil hroots'] at hlive
      rw [hlive]
      exact Set.empty_sdiff _

/-- With limits that are never reached the analysis ends, each variable is the output of at
most one call of `addGate` and its gate stays recorded, and no clause is left. -/
theorem analyze_consumes (env : Env) (F : CNFFormula) (hlimits : ∀ a, env.withinLimits a = true)
    (htimeout : ∀ a, env.timeout a = false) :
  (∀ a candidates, Reachable env F [] a →
      ∃ a', gateRecognition env F (F.nClauses + 1) a candidates = .ok a')
    ∧ ∃ r, analyze env F = .ok r
      ∧ r.log.Pairwise (fun e e' => e.gate.out.var ≠ e'.gate.out.var)
      ∧ (∀ e ∈ r.log, r.gateFormula.gates e.gate.out.var = e.gate)
      ∧ r.index.Empty
      ∧ r.gateFormula.remainder = []
  := by
  refine ⟨fun a candidates h => gateRecognition_total hlimits h candidates, ?_⟩
  obtain ⟨roots, index, heq, -, -, hnil⟩ := (Inv.init env F).estimateRoots
  have hlive := live_estimateRoots (Inv.init env F) heq
  obtain ⟨a, hloop, hreach, hempty⟩ := analyzeLoop_consumes (n := F.nClauses + 1) hlimits
    htimeout (Reachable.init heq)
    (by
      intro hroots
      rw [hroots, hnil hroots] at hlive
      rw [hlive]
      exact Set.empty_sdiff _)
    (by omega)
  obtain ⟨hinv, hunitc⟩ := hreach.inv
  have hindex : ∀ l, a.index.index l = [] := by
    intro l
    apply List.eq_nil_iff_forall_not_mem.mpr
    intro p hp
    have hmem := ((hinv.holds.lists.mem l p).mp hp).1
    rw [hempty] at hmem
    exact hmem
  refine ⟨addRemainder env F a, ?_, hinv.outputs_ne, hinv.gates, ⟨hunitc, hindex⟩, ?_⟩
  · rw [analyze, heq]
    simp only [bind, Except.bind, hloop]
    rfl
  · rw [addRemainder, hinv.remainder, List.nil_append]
    apply List.eq_nil_iff_forall_not_mem.mpr
    intro p hp
    rw [env.mem_remainderOrder, mem_left hinv, hempty] at hp
    exact hp

/-- The analysis of a formula with two gates. -/
theorem analyze_consumes_twoGates :
  ∃ r, analyze (Env.small false) twoGates = .ok r ∧ r.log.length = 2 ∧ r.index.Empty
    ∧ r.gateFormula.remainder = []
  := by
  obtain ⟨-, r, hr, -, -, hempty, hrem⟩ :=
    analyze_consumes (Env.small false) twoGates (fun _ => rfl) (fun _ => rfl)
  obtain ⟨r', hr', hlen⟩ := exists_ok_of_any (P := fun r : Analyzer => r.log.length = 2)
    (by decide +kernel : (analyze (Env.small false) twoGates).toOption.any
      (fun r => r.log.length = 2) = true)
  rw [hr] at hr'
  cases hr'
  exact ⟨r, hr, of_decide_eq_true hlen, hempty, hrem⟩

end CnfTools.Analyzer
