import IgnoreGates.CnfTools.GateAnalyzer

/-!
# The invariant of the gate analysis

The states of a run are given by the relation `Reachable`, whose steps are those of the
code: new roots are estimated, the pending roots are added, and a candidate is visited.
The invariant `Inv` says where the clause objects are.  Those taken out of the occurrence
list are distinct, the others are listed in the index, and no clause that is not taken yet
mentions the output of a gate.

Every step succeeds on a reachable state, so a run never leaves the bounds of a list.
-/

namespace CnfTools

open Logic

/-- What a call of `addGate` relies on: the clauses contain the output and its complement,
they are blocked on it, and the type was found for them. -/
structure Addition.Wf (env : Env) (F : CNFFormula) (e : Addition) : Prop where
  type_ne : e.gate.type ≠ .NONE
  fwd_ne_nil : e.gate.fwd ≠ []
  fwd_mem : ∀ p ∈ e.gate.fwd, ~~~e.gate.out ∈ F.deref p
  bwd_mem : ∀ p ∈ e.gate.bwd, e.gate.out ∈ F.deref p
  blocked : ∀ p ∈ e.gate.bwd, ∀ q ∈ e.gate.fwd,
    Clause.Blocked e.gate.out (F.deref p) (F.deref q)
  found : (Analyzer.findType env F e.gate.out e.gate.fwd e.gate.bwd e.solver).1 = e.gate.type
  inp : e.gate.inp = Analyzer.getInputLiterals F (~~~e.gate.out) e.gate.fwd
  notMono : e.gate.notMono = !e.before.isNestedMonotonic e.gate.out

namespace Analyzer

variable {env : Env} {F : CNFFormula}

/-! ### Reachable states -/

/-- The states of the runs of `analyze` between its steps, each with the root clauses that
have been estimated and not yet added. -/
inductive Reachable (env : Env) (F : CNFFormula) : For → Analyzer → Prop where
  | init {a : Analyzer} {rootClauses : For} :
      estimateRoots F (init F) = .ok (rootClauses, a) → Reachable env F rootClauses a
  | estimateRoots {a a' : Analyzer} {rootClauses : For} :
      Reachable env F [] a → estimateRoots F a = .ok (rootClauses, a') →
      Reachable env F rootClauses a'
  | addRoots {a : Analyzer} {rootClauses : For} :
      Reachable env F rootClauses a → Reachable env F [] (addRoots F a rootClauses)
  | visit {a a' : Analyzer} {candidate : Lit} {frontier frontier' : List Lit} :
      Reachable env F [] a → visit env F (a, frontier) candidate = .ok (a', frontier') →
      Reachable env F [] a'

/-- The clauses of the gates in the log. -/
def logClauses (a : Analyzer) : For :=
  GateFormula.gateClauses (a.log.map Addition.gate)

/-- The clauses that are not in the index. -/
def used (pending : For) (a : Analyzer) : For :=
  pending ++ a.index.unitc ++ a.gateFormula.roots ++ a.logClauses

/-- The clauses in the index. -/
def live (F : CNFFormula) (pending : For) (a : Analyzer) : Set Ptr :=
  {p | 1 < (F.deref p).length ∧ p ∉ a.used pending}

/-- The invariant of the analysis. -/
structure Inv (env : Env) (F : CNFFormula) (pending : For) (a : Analyzer) : Prop where
  holds : OccurrenceList.Holds F a.index (a.live F pending)
  nodup : (a.used pending).Nodup
  ne_nil : ∀ p ∈ a.used pending, F.deref p ≠ []
  units : ∀ p, (F.deref p).length = 1 → p ∈ a.used pending
  fresh : ∀ e ∈ a.log, ∀ p, p ∈ pending ∨ p ∈ a.index.unitc ∨ p ∈ a.live F pending →
    ¬ Clause.Mentions (F.deref p) e.gate.out.var
  wf : ∀ e ∈ a.log, e.Wf env F
  order : a.log.Pairwise (fun e e' => ∀ p ∈ e'.gate.fwd ++ e'.gate.bwd,
    ¬ Clause.Mentions (F.deref p) e.gate.out.var)
  gates : ∀ e ∈ a.log, a.gateFormula.gates e.gate.out.var = e.gate
  gates_of_not_mem : ∀ v, (∀ e ∈ a.log, e.gate.out.var ≠ v) → a.gateFormula.gates v = {}
  remainder : a.gateFormula.remainder = []

/-- The clauses of two or more literals are not used or not live. -/
theorem live_congr {pending pending' : For} {a a' : Analyzer}
    (h : ∀ p, p ∈ a.used pending ↔ p ∈ a'.used pending') :
  a.live F pending = a'.live F pending'
  := by
  ext p
  simp only [live, Set.mem_ofPred_eq, h p]

/-- At first the unit clauses are not in the index. -/
theorem used_init (F : CNFFormula) :
  (init F).used [] = OccurrenceList.units F F.pointers
  := by
  simp [used, init, OccurrenceList.init_eq, GateFormula.init, logClauses, GateFormula.gateClauses]

theorem mem_used_init {p : Ptr} :
  p ∈ (init F).used [] ↔ (F.deref p).length = 1
  := by
  rw [used_init, OccurrenceList.units, List.mem_filter, decide_eq_true_eq]
  constructor
  · exact And.right
  · intro h
    refine ⟨?_, h⟩
    obtain ⟨l, hl⟩ := List.exists_mem_of_length_pos (by omega : 0 < (F.deref p).length)
    exact List.mem_range.mpr (F.lt_of_mem_deref hl)

theorem live_init (F : CNFFormula) :
  (init F).live F [] = {p | 1 < (F.deref p).length}
  := by
  ext p
  simp only [live, Set.mem_ofPred_eq, mem_used_init]
  omega

theorem Inv.init (env : Env) (F : CNFFormula) :
  Inv env F [] (init F)
  := by
  constructor
  · rw [live_init]
    exact OccurrenceList.holds_init F
  · rw [used_init]
    exact List.nodup_range.filter _
  · intro p hp hnil
    have hlen := mem_used_init.mp hp
    rw [hnil] at hlen
    cases hlen
  · exact fun p hp => mem_used_init.mpr hp
  · exact fun e he => absurd he List.not_mem_nil
  · exact fun e he => absurd he List.not_mem_nil
  · exact List.Pairwise.nil
  · exact fun e he => absurd he List.not_mem_nil
  · exact fun v _ => rfl
  · rfl

/-! ### Roots -/

theorem mem_used {pending : For} {a : Analyzer} {p : Ptr} :
  p ∈ a.used pending
    ↔ p ∈ pending ∨ p ∈ a.index.unitc ∨ p ∈ a.gateFormula.roots ∨ p ∈ a.logClauses
  := by
  simp only [used, List.mem_append, or_assoc]

/-- Estimating roots moves clauses from the occurrence list to the pending roots. -/
theorem Inv.estimateRoots {a : Analyzer} (h : Inv env F [] a) :
  ∃ rootClauses index, estimateRoots F a = .ok (rootClauses, { a with index })
    ∧ Inv env F rootClauses { a with index } ∧ index.unitc = []
    ∧ (rootClauses = [] → a.live F [] = ∅)
  := by
  obtain ⟨roots, ol, live', heq, hholds, hunitc, hnodup, hsub, hmem, hnil⟩ :=
    OccurrenceList.estimateRoots_spec h.holds
  have hroot : ∀ p ∈ roots, p ∈ a.index.unitc ∨ p ∈ a.live F [] := fun p hp => ((hmem p).mp hp).1
  have hnot : ∀ p ∈ roots, p ∉ a.gateFormula.roots ++ a.logClauses := by
    intro p hp
    obtain hp | hp := hroot p hp
    · have hn := h.nodup
      simp only [used, List.nil_append, List.append_assoc] at hn
      exact (List.nodup_append'.mp hn).2.2 hp
    · intro hmem
      apply hp.2
      rw [mem_used]
      right; right
      exact List.mem_append.mp hmem
  have hlive : live' = ({ a with index := ol } : Analyzer).live F roots := by
    ext p
    simp only [live, Set.mem_ofPred_eq, mem_used, hunitc, List.not_mem_nil, false_or, not_or]
    constructor
    · intro hp
      obtain ⟨hlen, hused⟩ := hsub hp
      rw [mem_used, not_or, not_or] at hused
      refine ⟨hlen, ?_, ?_⟩
      · intro hr
        exact ((hmem p).mp hr).2 hp
      · exact not_or.mp hused.2.2
    · rintro ⟨hlen, hr, hroots, hlog⟩
      by_contra hp
      apply hr
      apply (hmem p).mpr
      refine ⟨?_, hp⟩
      right
      refine ⟨hlen, ?_⟩
      rw [mem_used]
      rintro (hc | hc | hc | hc)
      · cases hc
      · have := h.holds.unitc_length p hc
        omega
      · exact hroots hc
      · exact hlog hc
  refine ⟨roots, ol, ?_, ?_, hunitc, hnil⟩
  · rw [Analyzer.estimateRoots, heq]
    rfl
  constructor
  · rw [← hlive]
    exact hholds
  · simp only [used, hunitc, List.append_nil, List.append_assoc]
    apply List.nodup_append'.mpr
    refine ⟨hnodup, ?_, hnot⟩
    have hn := h.nodup
    simp only [used, List.nil_append, List.append_assoc] at hn
    exact (List.nodup_append'.mp hn).2.1
  · intro p hp
    rw [mem_used, hunitc] at hp
    obtain hp | hp | hp := hp
    · obtain hp | hp := hroot p hp
      · exact h.ne_nil p (mem_used.mpr (Or.inr (Or.inl hp)))
      · exact List.ne_nil_of_length_pos (Nat.zero_lt_of_lt hp.1)
    · cases hp
    · exact h.ne_nil p (mem_used.mpr (Or.inr (Or.inr hp)))
  · intro p hlen
    obtain hp | hp | hp := mem_used.mp (h.units p hlen)
    · cases hp
    · apply mem_used.mpr
      left
      apply (hmem p).mpr
      refine ⟨Or.inl hp, ?_⟩
      intro hl
      have := (hsub hl).1
      omega
    · exact mem_used.mpr (Or.inr (Or.inr hp))
  · intro e he p hp
    rw [← hlive, hunitc] at hp
    obtain hp | hp | hp := hp
    · exact h.fresh e he p (Or.inr (hroot p hp))
    · cases hp
    · exact h.fresh e he p (Or.inr (Or.inr (hsub hp)))
  · exact h.wf
  · exact h.order
  · exact h.gates
  · exact h.gates_of_not_mem
  · exact h.remainder

theorem addRoots_roots (a : Analyzer) (rootClauses : For) :
  (addRoots F a rootClauses).gateFormula.roots = a.gateFormula.roots ++ rootClauses
  := by
  have h : ∀ gf : GateFormula,
      (rootClauses.foldl (GateFormula.addRoot F) gf).roots = gf.roots ++ rootClauses := by
    induction rootClauses with
    | nil => intro gf; simp
    | cons p ps ih =>
        intro gf
        rw [List.foldl_cons, ih]
        simp [GateFormula.addRoot]
  exact h a.gateFormula

theorem addRoots_gates (a : Analyzer) (rootClauses : For) :
  (addRoots F a rootClauses).gateFormula.gates = a.gateFormula.gates
    ∧ (addRoots F a rootClauses).gateFormula.remainder = a.gateFormula.remainder
  := by
  have h : ∀ gf : GateFormula,
      (rootClauses.foldl (GateFormula.addRoot F) gf).gates = gf.gates
        ∧ (rootClauses.foldl (GateFormula.addRoot F) gf).remainder = gf.remainder := by
    induction rootClauses with
    | nil => exact fun gf => ⟨rfl, rfl⟩
    | cons p ps ih => exact fun gf => ih (gf.addRoot F p)
  exact h a.gateFormula

/-- Adding the pending roots moves them to the roots. -/
theorem used_addRoots_perm (a : Analyzer) (rootClauses : For) :
  (a.used rootClauses).Perm ((addRoots F a rootClauses).used [])
  := by
  have hlog : (addRoots F a rootClauses).logClauses = a.logClauses := rfl
  have hunitc : (addRoots F a rootClauses).index.unitc = a.index.unitc := rfl
  rw [used, used, addRoots_roots, hlog, hunitc]
  apply List.Perm.append_right
  rw [List.nil_append, List.append_assoc, ← List.append_assoc a.index.unitc]
  exact List.perm_append_comm

theorem Inv.addRoots {a : Analyzer} {rootClauses : For} (h : Inv env F rootClauses a) :
  Inv env F [] (addRoots F a rootClauses)
  := by
  have hperm := used_addRoots_perm (F := F) a rootClauses
  have hlive : (Analyzer.addRoots F a rootClauses).live F [] = a.live F rootClauses :=
    live_congr (fun p => hperm.mem_iff.symm)
  obtain ⟨hgates, hrem⟩ := addRoots_gates (F := F) a rootClauses
  constructor
  · rw [hlive]
    exact h.holds
  · exact hperm.nodup_iff.mp h.nodup
  · exact fun p hp => h.ne_nil p (hperm.mem_iff.mpr hp)
  · exact fun p hlen => hperm.mem_iff.mp (h.units p hlen)
  · intro e he p hp
    rw [hlive] at hp
    obtain hp | hp := hp
    · cases hp
    · exact h.fresh e he p (Or.inr hp)
  · exact h.wf
  · exact h.order
  · rw [hgates]
    exact h.gates
  · rw [hgates]
    exact h.gates_of_not_mem
  · rw [hrem]
    exact h.remainder

/-! ### Gates -/

/-- The call of `addGate` made for a candidate of a state. -/
def addition (F : CNFFormula) (a : Analyzer) (type : GateType) (out : Lit) : Addition where
  gate := a.gateFormula.newGate type out (a.index.index (~~~out)) (a.index.index out)
    (getInputLiterals F (~~~out) (a.index.index (~~~out)))
  before := a.gateFormula
  solver := a.S

/-- The state after a gate has been added for a candidate and its clauses have been removed
from the index. -/
def added (F : CNFFormula) (a : Analyzer) (type : GateType) (out : Lit) (S : List Int)
    (index : Index) : Analyzer where
  gateFormula := a.gateFormula.addGate type out (a.index.index (~~~out)) (a.index.index out)
    (getInputLiterals F (~~~out) (a.index.index (~~~out)))
  index := { a.index with index }
  S
  log := a.log ++ [a.addition F type out]

/-- A visit of a candidate either leaves everything but the solver as it is, or it adds a
gate and removes the clauses listed under the candidate and its complement. -/
theorem visit_cases (env : Env) {a : Analyzer} {live : Set Ptr}
    (h : OccurrenceList.Holds F a.index live) (frontier : List Lit) (out : Lit) :
  (∃ S, visit env F (a, frontier) out = .ok ({ a with S }, frontier))
    ∨ ∃ type S index,
        visit env F (a, frontier) out
            = .ok (a.added F type out S index, frontier ++ (a.addition F type out).gate.inp)
          ∧ (a.addition F type out).Wf env F
          ∧ OccurrenceList.Holds F { a.index with index }
              ((live \ {p | p ∈ a.index.index (~~~out)}) \ {p | p ∈ a.index.index out})
  := by
  have hmem : ∀ l p, p ∈ a.index.index l → p ∈ live ∧ l ∈ F.deref p := by
    intro l p hp
    obtain ⟨hlive, hl, -⟩ := (h.lists.mem l p).mp hp
    exact ⟨hlive, hl⟩
  by_cases hguard : (a.index.index (~~~out)).length > 0
      ∧ OccurrenceList.isBlockedSet F a.index.index out = true
  · generalize hfound : findType env F out (a.index.index (~~~out)) (a.index.index out) a.S = found
    obtain ⟨type, S⟩ := found
    by_cases htype : type = .NONE
    · left
      use S
      simp [visit, checkAddGate, hguard, hfound, htype]
    · right
      obtain ⟨index₁, hrem₁, hholds₁⟩ :=
        h.remove (fun p hp => (hmem _ p hp).1) (h.lists.nodup (~~~out))
      have hbwd : ∀ p ∈ a.index.index out, p ∈ live \ {p | p ∈ a.index.index (~~~out)} := by
        intro p hp
        refine ⟨(hmem _ p hp).1, ?_⟩
        intro hp'
        exact (F.deref_canonical p).compl_not_mem (hmem _ p hp).2 (hmem _ p hp').2
      obtain ⟨index₂, hrem₂, hholds₂⟩ := hholds₁.remove hbwd (h.lists.nodup out)
      refine ⟨type, S, index₂, ?_, ?_, hholds₂⟩
      · simp only [visit, checkAddGate, hguard, hfound, htype, ne_eq, not_false_eq_true, and_self,
          if_true, GateFormula.addGate_getGate]
        have h₁ : OccurrenceList.remove F a.index.index
            (a.gateFormula.newGate type out (a.index.index (~~~out)) (a.index.index out)
              (getInputLiterals F (~~~out) (a.index.index (~~~out)))).fwd = .ok index₁ := hrem₁
        have h₂ : OccurrenceList.remove F index₁
            (a.gateFormula.newGate type out (a.index.index (~~~out)) (a.index.index out)
              (getInputLiterals F (~~~out) (a.index.index (~~~out)))).bwd = .ok index₂ := hrem₂
        simp only [h₁, h₂, bind, Except.bind]
        rfl
      · constructor
        · exact htype
        · exact List.ne_nil_of_length_pos hguard.1
        · exact fun p hp => (hmem _ p hp).2
        · exact fun p hp => (hmem _ p hp).2
        · exact fun p hp q hq => OccurrenceList.isBlockedSet_sound hguard.2 hp hq
        · exact congrArg Prod.fst hfound
        · rfl
        · rfl
  · left
    use a.S
    simp [visit, checkAddGate, hguard]

theorem used_added (a : Analyzer) (type : GateType) (out : Lit) (S : List Int) (index : Index)
    (pending : For) :
  (a.added F type out S index).used pending
    = a.used pending ++ (a.index.index (~~~out) ++ a.index.index out)
  := by
  simp [used, added, addition, logClauses, GateFormula.gateClauses, GateFormula.newGate]

theorem live_added (a : Analyzer) (type : GateType) (out : Lit) (S : List Int) (index : Index) :
  (a.added F type out S index).live F []
    = (a.live F [] \ {p | p ∈ a.index.index (~~~out)}) \ {p | p ∈ a.index.index out}
  := by
  ext p
  simp only [live, used_added, List.mem_append, Set.mem_sdiff, Set.mem_ofPred_eq]
  tauto

/-- Adding a gate removes all clauses that mention its output and keeps the invariant. -/
theorem Inv.added {a : Analyzer} {type : GateType} {out : Lit} {S : List Int} {index : Index}
    (h : Inv env F [] a) (hunitc : a.index.unitc = []) (hwf : (a.addition F type out).Wf env F)
    (hholds : OccurrenceList.Holds F { a.index with index }
      ((a.live F [] \ {p | p ∈ a.index.index (~~~out)}) \ {p | p ∈ a.index.index out})) :
  Inv env F [] (a.added F type out S index)
  := by
  have hlive := live_added (F := F) a type out S index
  have hmem : ∀ l p, p ∈ a.index.index l ↔ p ∈ a.live F [] ∧ l ∈ F.deref p := by
    intro l p
    simpa using h.holds.lists.mem l p
  have hgate : ∀ p ∈ a.index.index (~~~out) ++ a.index.index out, p ∈ a.live F [] := by
    intro p hp
    obtain hp | hp := List.mem_append.mp hp
    · exact ((hmem _ p).mp hp).1
    · exact ((hmem _ p).mp hp).1
  -- the output is fresh, since a live clause mentions it
  have hout : ∀ e ∈ a.log, e.gate.out.var ≠ out.var := by
    intro e he heq
    obtain ⟨p, hp⟩ := List.exists_mem_of_ne_nil _ hwf.fwd_ne_nil
    obtain ⟨hplive, hpmem⟩ := (hmem (~~~out) p).mp hp
    apply h.fresh e he p (Or.inr (Or.inr hplive))
    rw [heq]
    exact ⟨~~~out, hpmem, Lit.var_compl out⟩
  constructor
  · rw [hlive]
    exact hholds
  · rw [used_added]
    apply List.nodup_append'.mpr
    refine ⟨h.nodup, ?_, ?_⟩
    · apply List.nodup_append'.mpr
      refine ⟨h.holds.lists.nodup _, h.holds.lists.nodup _, ?_⟩
      intro p hp hp'
      exact (F.deref_canonical p).compl_not_mem ((hmem _ p).mp hp').2 ((hmem _ p).mp hp).2
    · intro p hp hp'
      exact (hgate p hp').2 hp
  · intro p hp
    rw [used_added] at hp
    obtain hp | hp := List.mem_append.mp hp
    · exact h.ne_nil p hp
    · exact List.ne_nil_of_length_pos (Nat.zero_lt_of_lt (hgate p hp).1)
  · intro p hlen
    rw [used_added]
    exact List.mem_append_left _ (h.units p hlen)
  · intro e he p hp
    rw [hlive] at hp
    obtain he | he := List.mem_append.mp he
    · apply h.fresh e he p
      obtain hp | hp | hp := hp
      · exact Or.inl hp
      · exact Or.inr (Or.inl hp)
      · exact Or.inr (Or.inr hp.1.1)
    · obtain rfl := List.mem_singleton.mp he
      rintro ⟨l, hl, hvar⟩
      obtain hp | hp | ⟨⟨hp, hfwd⟩, hbwd⟩ := hp
      · cases hp
      · change p ∈ a.index.unitc at hp
        rw [hunitc] at hp
        cases hp
      · obtain rfl | rfl : l = out ∨ l = ~~~out := Literal.eq_or_eq_neg hvar
        · exact hbwd ((hmem _ p).mpr ⟨hp, hl⟩)
        · exact hfwd ((hmem _ p).mpr ⟨hp, hl⟩)
  · intro e he
    obtain he | he := List.mem_append.mp he
    · exact h.wf e he
    · obtain rfl := List.mem_singleton.mp he
      exact hwf
  · apply List.pairwise_append.mpr
    refine ⟨h.order, List.pairwise_singleton _ _, ?_⟩
    intro e he e' he' p hp
    obtain rfl := List.mem_singleton.mp he'
    exact h.fresh e he p (Or.inr (Or.inr (hgate p hp)))
  · intro e he
    rw [Analyzer.added, GateFormula.addGate_gates]
    obtain he | he := List.mem_append.mp he
    · rw [Function.update_of_ne (hout e he)]
      exact h.gates e he
    · obtain rfl := List.mem_singleton.mp he
      exact Function.update_self _ _ _
  · intro v hv
    rw [Analyzer.added, GateFormula.addGate_gates, Function.update_of_ne]
    · exact h.gates_of_not_mem v (fun e he => hv e (List.mem_append_left _ he))
    · rintro rfl
      exact hv _ (List.mem_append_right _ (List.mem_singleton_self _)) rfl
  · exact h.remainder

theorem Inv.setS {a : Analyzer} {pending : For} (h : Inv env F pending a) (S : List Int) :
  Inv env F pending { a with S }
  := ⟨h.holds, h.nodup, h.ne_nil, h.units, h.fresh, h.wf, h.order, h.gates, h.gates_of_not_mem,
    h.remainder⟩

/-- A visit succeeds and keeps the invariant; when it extends the frontier, it takes
clauses out of the index. -/
theorem Inv.visit {a : Analyzer} (h : Inv env F [] a) (hunitc : a.index.unitc = [])
    (frontier : List Lit) (out : Lit) :
  ∃ a' frontier', visit env F (a, frontier) out = .ok (a', frontier')
    ∧ Inv env F [] a' ∧ a'.index.unitc = []
    ∧ (a.used []).length ≤ (a'.used []).length
    ∧ (frontier' = frontier ∨ (a.used []).length < (a'.used []).length)
  := by
  obtain ⟨S, hvisit⟩ | ⟨type, S, index, hvisit, hwf, hholds⟩ :=
    visit_cases env h.holds frontier out
  · exact ⟨_, _, hvisit, h.setS S, hunitc, le_rfl, Or.inl rfl⟩
  · have hlen : (a.used []).length < ((a.added F type out S index).used []).length := by
      have := List.length_pos_of_ne_nil hwf.fwd_ne_nil
      rw [used_added, List.length_append, List.length_append]
      exact Nat.lt_add_of_pos_right (Nat.add_pos_left this _)
    exact ⟨_, _, hvisit, h.added hunitc hwf hholds, hunitc, hlen.le, Or.inr hlen⟩

/-- The invariant holds in every reachable state, and unit clauses wait in the occurrence
list only before the first roots are estimated. -/
theorem Reachable.inv {a : Analyzer} {pending : For} (h : Reachable env F pending a) :
  Inv env F pending a ∧ a.index.unitc = []
  := by
  induction h with
  | init heq =>
      obtain ⟨roots, index, heq', hinv, hunitc, -⟩ := (Inv.init env F).estimateRoots
      rw [heq] at heq'
      cases heq'
      exact ⟨hinv, hunitc⟩
  | estimateRoots _ heq ih =>
      obtain ⟨roots, index, heq', hinv, hunitc, -⟩ := ih.1.estimateRoots
      rw [heq] at heq'
      cases heq'
      exact ⟨hinv, hunitc⟩
  | addRoots _ ih => exact ⟨ih.1.addRoots, ih.2⟩
  | @visit a a' out frontier frontier' _ heq ih =>
      obtain ⟨a₁, frontier₁, heq', hinv, hunitc, -⟩ := ih.1.visit ih.2 frontier out
      rw [heq] at heq'
      cases heq'
      exact ⟨hinv, hunitc⟩

/-- All clauses taken out of the index are clauses of the formula. -/
theorem Inv.length_used {a : Analyzer} {pending : For} (h : Inv env F pending a) :
  (a.used pending).length ≤ F.nClauses
  := by
  have hsub : a.used pending ⊆ F.pointers := by
    intro p hp
    obtain ⟨l, hl⟩ := List.exists_mem_of_ne_nil _ (h.ne_nil p hp)
    exact List.mem_range.mpr (F.lt_of_mem_deref hl)
  have hle := (List.subperm_of_subset h.nodup hsub).length_le
  rwa [CNFFormula.pointers, List.length_range] at hle

end Analyzer

end CnfTools
