import IgnoreGates.CnfTools.AnalyzerRun

/-!
# The recognised gate structure

The gates stored in the vector of the gate formula are those of the log, one for each call
of `addGate`.  Two results about completed runs follow from the invariant of the analysis:

* each clause object ends up in exactly one of the roots, the gates and the remainder,
  unless the timeout ends the run while the occurrence list still holds clauses;
* no gate mentions the output of a gate added before it, and every assignment of the other
  variables extends to the outputs.
-/

namespace CnfTools

open Logic

/-- A run that passes a check completes, and its result passes the check. -/
theorem exists_ok_of_any {R : Type} {x : Except Fault R} {P : R → Bool}
    (h : x.toOption.any P = true) :
  ∃ r, x = .ok r ∧ P r = true
  := by
  cases x with
  | error f => cases h
  | ok r => exact ⟨r, rfl, h⟩

/-- Surroundings for small runs: the solver decides nothing, no limit is reached, hash sets are
enumerated as they were filled, and the timeout is set at once or never. -/
def Env.small (timeout : Bool) : Env where
  patterns := true
  semantic := true
  solve := fun _ _ => 0
  withinLimits := fun _ => true
  timeout := fun _ => timeout
  frontierOrder := fun _ ls => ls
  remainderOrder := fun _ ps => ps.dedup
  mem_frontierOrder := fun _ _ _ => Iff.rfl
  nodup_remainderOrder := fun _ ps => ps.nodup_dedup
  mem_remainderOrder := fun _ _ _ => List.mem_dedup

/-- No clause is left in the occurrence list. -/
def OccurrenceList.Empty (ol : OccurrenceList) : Prop :=
  ol.unitc = [] ∧ ∀ l, ol.index l = []

namespace Analyzer

variable {env : Env} {F : CNFFormula}

/-- The gates in the order in which they were added. -/
def gatesAdded (a : Analyzer) : List Gate :=
  a.log.map Addition.gate

/-! ### The gate vector -/

theorem Inv.out_var_le {a : Analyzer} {pending : For} (h : Inv env F pending a) {e : Addition}
    (he : e ∈ a.log) :
  e.gate.out.var ≤ F.nVars
  := by
  obtain ⟨p, hp⟩ := List.exists_mem_of_ne_nil _ (h.wf e he).fwd_ne_nil
  have hle := F.deref_var_le ((h.wf e he).fwd_mem p hp)
  rwa [Lit.var_compl] at hle

/-- A later gate has another output. -/
theorem Inv.outputs_ne {a : Analyzer} {pending : For} (h : Inv env F pending a) :
  a.log.Pairwise (fun e e' => e.gate.out.var ≠ e'.gate.out.var)
  := by
  apply h.order.imp_of_mem
  intro e e' _ he' horder heq
  obtain ⟨p, hp⟩ := List.exists_mem_of_ne_nil _ (h.wf e' he').fwd_ne_nil
  apply horder p (List.mem_append_left _ hp)
  rw [heq]
  exact ⟨_, (h.wf e' he').fwd_mem p hp, Lit.var_compl _⟩

/-- The gate vector holds the gates of the log. -/
theorem Inv.recorded_perm {a : Analyzer} {pending : For} (h : Inv env F pending a) :
  (a.gateFormula.recorded F).Perm a.gatesAdded
  := by
  have hmem : ∀ v, (a.gateFormula.gates v).type ≠ .NONE →
      ∃ e ∈ a.log, e.gate.out.var = v ∧ a.gateFormula.gates v = e.gate := by
    intro v hv
    by_contra hnot
    have hdefault := h.gates_of_not_mem v
      (fun e he heq => hnot ⟨e, he, heq, heq ▸ h.gates e he⟩)
    rw [hdefault] at hv
    exact hv rfl
  apply (List.perm_ext_iff_of_nodup ?_ ?_).mpr
  · intro g
    simp only [GateFormula.recorded, gatesAdded, List.mem_filter, List.mem_map, List.mem_range,
      decide_eq_true_eq]
    constructor
    · rintro ⟨⟨v, -, rfl⟩, htype⟩
      obtain ⟨e, he, -, heq⟩ := hmem v htype
      exact ⟨e, he, heq.symm⟩
    · rintro ⟨e, he, rfl⟩
      refine ⟨⟨e.gate.out.var, ?_, h.gates e he⟩, (h.wf e he).type_ne⟩
      have := h.out_var_le he
      rw [GateFormula.size]
      omega
  · rw [GateFormula.recorded, List.filter_map]
    apply (List.nodup_range.filter _).map_on
    intro v hv w hw heq
    have hv' := (List.mem_filter.mp hv).2
    have hw' := (List.mem_filter.mp hw).2
    simp only [Function.comp_apply, decide_eq_true_eq] at hv' hw'
    obtain ⟨e, -, rfl, he⟩ := hmem v hv'
    obtain ⟨e', -, rfl, he'⟩ := hmem w hw'
    rw [he, he'] at heq
    rw [heq]
  · apply List.Pairwise.map _ _ h.outputs_ne
    intro e e' hne heq
    exact hne (congrArg (fun g => g.out.var) heq)

/-! ### Where the clauses end up -/

theorem mem_left {a : Analyzer} {pending : For} (h : Inv env F pending a) (p : Ptr) :
  p ∈ (List.range (OccurrenceList.size F)).flatMap (fun lit => a.index.index ⟨lit⟩)
    ↔ p ∈ a.live F pending
  := by
  have hmem : ∀ l, p ∈ a.index.index l ↔ p ∈ a.live F pending ∧ l ∈ F.deref p := by
    intro l
    simpa using h.holds.lists.mem l p
  rw [List.mem_flatMap]
  constructor
  · rintro ⟨x, -, hx⟩
    exact ((hmem _).mp hx).1
  · intro hp
    obtain ⟨l, hl⟩ := List.exists_mem_of_length_pos (Nat.zero_lt_of_lt hp.1)
    refine ⟨l.x, ?_, (hmem l).mpr ⟨hp, hl⟩⟩
    have hvar : l.x / 2 ≤ F.nVars := F.deref_var_le hl
    rw [List.mem_range, OccurrenceList.size]
    omega

/-- After the loop of `analyze` the clauses are distributed without repetition, and all but
the pending ones are. -/
theorem Inv.distributed {a : Analyzer} {pending : For} (h : Inv env F pending a)
    (hunitc : a.index.unitc = []) :
  ((addRemainder env F a).gateFormula.distributed F).Nodup
    ∧ ∀ p, F.deref p ≠ [] →
      (p ∈ (addRemainder env F a).gateFormula.distributed F ↔ p ∉ pending)
  := by
  have hperm : ((addRemainder env F a).gateFormula.distributed F).Perm
      (a.used [] ++ (addRemainder env F a).gateFormula.remainder) := by
    rw [GateFormula.distributed, used, hunitc]
    apply List.Perm.append_right
    simp only [List.nil_append, List.append_nil]
    apply List.Perm.append_left
    exact h.recorded_perm.flatMap_right _
  have hnodup := h.nodup
  have hused : a.used pending = pending ++ a.used [] := by
    simp only [used, hunitc, List.append_nil, List.nil_append, List.append_assoc]
  rw [hused] at hnodup
  obtain ⟨-, hnodup, hdisjoint⟩ := List.nodup_append'.mp hnodup
  have hremainder : ∀ p, p ∈ (addRemainder env F a).gateFormula.remainder
      ↔ p ∈ a.live F pending := by
    intro p
    rw [← mem_left h]
    simp only [addRemainder, h.remainder, List.nil_append, env.mem_remainderOrder]
  constructor
  · apply hperm.nodup_iff.mpr
    apply List.nodup_append'.mpr
    refine ⟨hnodup, ?_, ?_⟩
    · simp only [addRemainder, h.remainder, List.nil_append]
      exact env.nodup_remainderOrder _ _
    · intro p hp hp'
      apply ((hremainder p).mp hp').2
      rw [hused]
      exact List.mem_append_right _ hp
  · intro p hp
    rw [hperm.mem_iff, List.mem_append, hremainder]
    constructor
    · rintro (hmem | hmem)
      · exact fun hpending => hdisjoint hpending hmem
      · intro hpending
        apply hmem.2
        rw [hused]
        exact List.mem_append_left _ hpending
    · intro hpending
      by_cases hmem : p ∈ a.used []
      · exact Or.inl hmem
      · right
        have hnot : p ∉ a.used pending := by
          rw [hused, List.mem_append]
          exact not_or.mpr ⟨hpending, hmem⟩
        refine ⟨?_, hnot⟩
        have hpos := List.length_pos_of_ne_nil hp
        by_contra hlen
        exact hnot (h.units p (by omega))

/-- At the end of an iteration no root clauses are found exactly when the occurrence list is
empty. -/
theorem estimateRoots_eq_nil_iff {b a : Analyzer} {pending : For} (h : Reachable env F [] b)
    (heq : estimateRoots F b = .ok (pending, a)) :
  pending = [] ↔ b.index.Empty
  := by
  have hmem : ∀ l p, p ∈ b.index.index l ↔ p ∈ b.live F [] ∧ l ∈ F.deref p := by
    intro l p
    simpa using h.inv.1.holds.lists.mem l p
  obtain ⟨roots, a', heq', hreach, -, hnil⟩ := estimateRoots_spec h
  rw [heq] at heq'
  cases heq'
  constructor
  · intro hp
    refine ⟨h.inv.2, ?_⟩
    intro l
    apply List.eq_nil_iff_forall_not_mem.mpr
    intro p hmem'
    have hlive := ((hmem l p).mp hmem').1
    rw [hnil hp] at hlive
    exact hlive
  · intro hempty
    have hlow : ∀ x, OccurrenceList.lower b.index.index x = 0 := by
      intro x
      by_contra hne
      exact OccurrenceList.lower_ne_nil (Nat.pos_of_ne_zero hne) (hempty.2 _)
    simp only [estimateRoots, OccurrenceList.estimateRoots, hempty.1, List.isEmpty_nil,
      Bool.not_true, Bool.false_eq_true, if_false, hlow, Nat.lt_irrefl, pure, Except.pure, bind,
      Except.bind, Except.ok.injEq, Prod.mk.injEq] at heq
    exact heq.1.symm

/-- In a completed run every non-empty clause object occurs exactly once among the roots, the
clauses of the gates and the remainder, if and only if the time runs out at the end of an
iteration only when the occurrence list is empty. -/
theorem conserved_iff {r : Analyzer} (h : analyze env F = .ok r) :
  (∀ p, F.deref p ≠ [] → (r.gateFormula.distributed F).count p = 1)
    ↔ ∀ b, RoundEnd env F b → env.timeout b = true → b.index.Empty
  := by
  obtain ⟨pending, a, rfl, hreach, hended, htimeout⟩ := of_analyze h
  obtain ⟨hnodup, hmem⟩ := hreach.inv.1.distributed hreach.inv.2
  obtain ⟨roots, a₀, hstart, -⟩ := analyzeLoop_start env F
  have hne : ∀ p ∈ pending, F.deref p ≠ [] := by
    intro p hp
    exact hreach.inv.1.ne_nil p (mem_used.mpr (Or.inl hp))
  constructor
  · intro hcount b hb htime
    apply (estimateRoots_eq_nil_iff (hb.afterRound hstart).1 (htimeout b hb htime)).mp
    apply List.eq_nil_iff_forall_not_mem.mpr
    intro p hp
    apply (hmem p (hne p hp)).mp _ hp
    apply List.count_pos_iff.mp
    rw [hcount p (hne p hp)]
    exact Nat.one_pos
  · intro hempty p hp
    apply List.count_eq_one_of_mem hnodup
    apply (hmem p hp).mpr
    obtain rfl | ⟨b, hb, htime, heq⟩ := hended
    · exact List.not_mem_nil
    · rw [(estimateRoots_eq_nil_iff (hb.afterRound hstart).1 heq).mpr (hempty b hb htime)]
      exact List.not_mem_nil

/-- The run on a unit clause and one further clause that times out after the first iteration. -/
theorem conserved_iff_small :
  ∃ r, analyze (Env.small true) (CNFFormula.readDimacs [[1], [2, 3]]) = .ok r
    ∧ ((∀ p, (CNFFormula.readDimacs [[1], [2, 3]]).deref p ≠ [] →
        (r.gateFormula.distributed (CNFFormula.readDimacs [[1], [2, 3]])).count p = 1)
      ↔ ∀ b, RoundEnd (Env.small true) (CNFFormula.readDimacs [[1], [2, 3]]) b →
        (Env.small true).timeout b = true → b.index.Empty)
  := by
  obtain ⟨r, hr, -⟩ := exists_ok_of_any (P := fun _ => true)
    (by decide +kernel : (analyze (Env.small true) (CNFFormula.readDimacs [[1], [2, 3]])).toOption.any
      (fun _ => true) = true)
  exact ⟨r, hr, conserved_iff hr⟩

/-- The second clause of that run is estimated as a root clause and then lost. -/
theorem not_conserved_on_timeout :
  ¬ ∀ (env : Env) (F : CNFFormula) (r : Analyzer), analyze env F = .ok r →
      ∀ p, F.deref p ≠ [] → (r.gateFormula.distributed F).count p = 1
  := by
  intro h
  obtain ⟨r, hr, hcount⟩ := exists_ok_of_any
    (by decide +kernel : (analyze (Env.small true) (CNFFormula.readDimacs [[1], [2, 3]])).toOption.any
      (fun r => (r.gateFormula.distributed (CNFFormula.readDimacs [[1], [2, 3]])).count 1 = 0)
        = true)
  have hone := h _ _ r hr 1 (by decide)
  rw [decide_eq_true_eq] at hcount
  omega

/-! ### The gates as definitions -/

/-- The output variable of a gate and its clauses. -/
def definition (F : CNFFormula) (g : Gate) : Definition Lit Nat :=
  (g.out.var, F.clausesAt (g.fwd ++ g.bwd))

theorem Inv.layered {a : Analyzer} {pending : For} (h : Inv env F pending a) :
  Layered (a.gatesAdded.map (definition F))
  := by
  rw [Layered, gatesAdded, List.map_map, List.pairwise_map]
  apply h.order.imp
  rintro e e' horder c ⟨p, hp, rfl⟩
  exact horder p hp

/-- The clauses of a candidate output: those of `fwd` contain its complement, those of `bwd`
contain it, and they are pairwise blocked on it. -/
structure Candidate (F : CNFFormula) (o : Lit) (fwd bwd : For) : Prop where
  fwd_mem : ∀ p ∈ fwd, ~~~o ∈ F.deref p
  bwd_mem : ∀ p ∈ bwd, o ∈ F.deref p
  blocked : ∀ p ∈ bwd, ∀ q ∈ fwd, Clause.Blocked o (F.deref p) (F.deref q)

theorem candidate_of_wf {e : Addition} (h : e.Wf env F) :
  Candidate F e.gate.out e.gate.fwd e.gate.bwd
  := ⟨h.fwd_mem, h.bwd_mem, h.blocked⟩

theorem clausesAt_append (F : CNFFormula) (fwd bwd : For) :
  F.clausesAt (fwd ++ bwd) = F.clausesAt fwd ∪ F.clausesAt bwd
  := by
  ext c
  simp only [CNFFormula.clausesAt, List.mem_append, or_and_right, exists_or, Set.mem_ofPred_eq,
    Set.mem_union]

/-- The clauses of a candidate can be satisfied by the choice of its output. -/
theorem Candidate.total {o : Lit} {fwd bwd : For} (h : Candidate F o fwd bwd) :
  Total (F.clausesAt (fwd ++ bwd)) o.var
  := by
  rw [clausesAt_append]
  apply total_of_blocked
  · rintro d ⟨p, hp, rfl⟩
    exact h.fwd_mem p hp
  · rintro c ⟨p, hp, rfl⟩
    exact h.bwd_mem p hp
  · rintro c ⟨p, hp, rfl⟩ d ⟨q, hq, rfl⟩
    exact h.blocked p hp q hq

/-- The clauses of a gate can be satisfied by the choice of its output. -/
theorem total_of_wf {e : Addition} (h : e.Wf env F) :
  Total (definition F e.gate).2 (definition F e.gate).1
  := (candidate_of_wf h).total

/-- No clause of a later gate contains the output variable of an earlier one. -/
def Acyclic (F : CNFFormula) (gs : List Gate) : Prop :=
  gs.Pairwise (fun g g' => ∀ p ∈ g'.fwd ++ g'.bwd, ∀ l ∈ F.deref p, l.var ≠ g.out.var)

/-- Every assignment of the variables that are not outputs extends to the outputs so that the
clauses of all gates are satisfied. -/
def LeftTotal (F : CNFFormula) (gs : List Gate) : Prop :=
  ∀ σ : Assignment Nat, ∃ τ : Assignment Nat,
    (∀ v, (∀ g ∈ gs, g.out.var ≠ v) → τ v = σ v)
    ∧ ∀ g ∈ gs, ∀ p ∈ g.fwd ++ g.bwd, Clause.Sat τ (F.deref p)

/-- In a completed run the gates added are the recorded ones; in the order in which they were
added they are acyclic, and they are left-total. -/
theorem gates_acyclic_leftTotal {r : Analyzer} (h : analyze env F = .ok r) :
  r.gatesAdded.Perm (r.gateFormula.recorded F)
    ∧ Acyclic F r.gatesAdded ∧ LeftTotal F (r.gateFormula.recorded F)
  := by
  obtain ⟨pending, a, rfl, hreach, -, -⟩ := of_analyze h
  have hinv := hreach.inv.1
  have hperm := hinv.recorded_perm
  refine ⟨hperm.symm, ?_, ?_⟩
  · rw [Acyclic, gatesAdded, List.pairwise_map]
    apply hinv.order.imp
    intro e e' horder p hp l hl hvar
    exact horder p hp ⟨l, hl, hvar⟩
  · intro σ
    have htotal : ∀ d ∈ a.gatesAdded.map (definition F), Total d.2 d.1 := by
      intro d hd
      obtain ⟨g, hg, rfl⟩ := List.mem_map.mp hd
      obtain ⟨e, he, rfl⟩ := List.mem_map.mp hg
      exact total_of_wf (hinv.wf e he)
    obtain ⟨τ, hagree, hτ⟩ := exists_models_of_layered hinv.layered htotal σ
    refine ⟨τ, ?_, ?_⟩
    · intro v hv
      symm
      apply hagree v
      intro hout
      obtain ⟨d, hd, rfl⟩ := List.mem_map.mp hout
      obtain ⟨g, hg, rfl⟩ := List.mem_map.mp hd
      exact hv g (hperm.mem_iff.mpr hg) rfl
    · intro g hg p hp
      apply hτ
      exact ⟨definition F g, List.mem_map_of_mem (hperm.mem_iff.mp hg), p, hp, rfl⟩

/-- Two gates below the root `4`: a conjunction `4` of `3` and `5`, and a disjunction `3` of
`1` and `2`. -/
def twoGates : CNFFormula :=
  CNFFormula.readDimacs
    [[4], [-4, 3], [-4, 5], [4, -3, -5], [-3, 1, 2], [3, -1], [3, -2]]

/-- Two nested gates are found, and what is recorded of them is acyclic and left total. -/
theorem gates_acyclic_leftTotal_twoGates :
  ∃ r, analyze (Env.small false) twoGates = .ok r ∧ r.log.length = 2
    ∧ r.gatesAdded.Perm (r.gateFormula.recorded twoGates)
    ∧ Acyclic twoGates r.gatesAdded ∧ LeftTotal twoGates (r.gateFormula.recorded twoGates)
  := by
  obtain ⟨r, hr, hlen⟩ := exists_ok_of_any
    (by decide +kernel : (analyze (Env.small false) twoGates).toOption.any
      (fun r => r.log.length = 2) = true)
  exact ⟨r, hr, of_decide_eq_true hlen, gates_acyclic_leftTotal hr⟩

end Analyzer

end CnfTools
