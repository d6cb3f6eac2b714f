import IgnoreGates.Cadical.Search
import IgnoreGates.Cadical.QueueSearch
import IgnoreGates.Cadical.CompactOrder

/-!
# The next decision variable

The state on which `next_decision_variable` depends, and the steps of the solver that change
it: variables are initialized, assigned and unassigned, become fixed or inactive, are bumped,
shuffled and compacted.  A decision variable is found as long as some variable is neither
assigned nor auxiliary.
-/

namespace Cadical

/-- The part of the solver's state on which decisions depend.  `assigned` says which variables
have a value. -/
structure Decider where
  external : External
  maxVar : Nat
  status : Nat → Status
  assigned : Nat → Bool
  vmtf : Vmtf
  evsids : Evsids
  useScores : Bool

namespace Decider

/-- The state without variables. -/
def init (aux : Finset Nat) (useScores : Bool) : Decider where
  external := { aux, i2e := fun _ => 0 }
  maxVar := 0
  status := fun _ => .unused
  assigned := fun _ => false
  vmtf := Vmtf.init
  evsids := Evsids.init
  useScores := useScores

section Operations

variable (d : Decider)

/-- The external variable of the index is auxiliary. -/
def isAux (idx : Nat) : Bool :=
  d.external.isAuxIdx idx

def fixed (idx : Nat) : Bool :=
  d.status idx = .fixed

/-- The index is one of a variable. -/
def IsVar (idx : Nat) : Prop :=
  1 ≤ idx ∧ idx ≤ d.maxVar

/-- All variables that are not fixed are unassigned: `level` is zero. -/
def AtRoot : Prop :=
  ∀ idx, d.assigned idx = true → d.fixed idx = true

/-- `next_decision_variable`, for a bounded number of iterations of its loop. -/
def nextDecisionVariable (n : Nat) : Option (Nat × Decider) :=
  let next :=
    if d.useScores then
      (Evsids.nextDecisionVariableWithBestScore d.assigned d.isAux n d.evsids).map
        (fun r => (r.1, { d with evsids := r.2 }))
    else
      (d.vmtf.nextDecisionVariableOnQueue d.assigned d.isAux n).map
        (fun r => (r.1, { d with vmtf := r.2 }))
  next.filter (fun r => !d.isAux r.1)

/-- `init_vars`, with the external variables of the new ones. -/
def initVars (reverse : Bool) (newMaxVar : Nat) (i2e : Nat → Nat) : Decider :=
  { d with
    external := { d.external with i2e }
    maxVar := newMaxVar
    vmtf := d.vmtf.initQueue reverse d.maxVar newMaxVar
    evsids := d.evsids.initScores d.maxVar newMaxVar }

/-- `search_assign`, which marks the variable as fixed on root level. -/
def assign (root : Bool) (idx : Nat) : Decider :=
  { d with
    status := if root then Function.update d.status idx .fixed else d.status
    assigned := Function.update d.assigned idx true }

def unassign (idx : Nat) : Decider :=
  { d with
    assigned := Function.update d.assigned idx false
    vmtf := d.vmtf.unassign idx
    evsids := d.evsids.unassign idx }

/-- `mark_active`, `mark_eliminated`, `mark_substituted`, `mark_pure` and `reactivate`. -/
def mark (idx : Nat) (status : Status) : Decider :=
  { d with status := Function.update d.status idx status }

def bumpVariable (idx : Nat) : Decider :=
  if d.useScores then { d with evsids := d.evsids.bumpVariableScore d.maxVar idx }
  else { d with vmtf := d.vmtf.bumpQueue d.assigned idx }

def bumpVariableScoreInc (scorefactor : ℚ) : Decider :=
  { d with evsids := d.evsids.bumpVariableScoreInc scorefactor d.maxVar }

def shuffleQueue (shuffle : List Nat) : Decider :=
  { d with vmtf := d.vmtf.shuffleQueue shuffle }

def shuffleScores (shuffle : List Nat) : Decider :=
  { d with evsids := d.evsids.shuffleScores shuffle }

def compact : Decider :=
  let m := Mapper.make d.status d.maxVar
  { d with
    external := { d.external with i2e := m.mapVector d.maxVar 0 d.external.i2e }
    maxVar := m.newMaxVar
    status := m.mapVector d.maxVar .unused d.status
    assigned := m.mapVals d.maxVar d.assigned
    vmtf := d.vmtf.compact m d.maxVar
    evsids := d.evsids.compact m d.maxVar }

/-- Some variable is neither assigned nor auxiliary. -/
def HasDecision : Prop :=
  ∃ idx, d.IsVar idx ∧ d.assigned idx = false ∧ d.isAux idx = false

/-- `next_decision_variable` terminates with a variable that is neither assigned nor
auxiliary. -/
def Decides : Prop :=
  ∃ n idx d', d.nextDecisionVariable n = some (idx, d') ∧ d.IsVar idx
    ∧ d.assigned idx = false ∧ d.isAux idx = false

end Operations

/-- The steps of the solver.  New variables and compacting come on root level; fixed variables
stay assigned and are not bumped.  The next decision variable is searched for when there is
one, for a decision or when the trail is reused. -/
inductive Step : Decider → Decider → Prop
  | initVars (d : Decider) (reverse : Bool) {newMaxVar : Nat} {i2e : Nat → Nat}
      (hroot : d.AtRoot) (hlt : d.maxVar < newMaxVar)
      (hi2e : ∀ idx, idx ≤ d.maxVar → i2e idx = d.external.i2e idx) :
      Step d (d.initVars reverse newMaxVar i2e)
  | assign (d : Decider) (root : Bool) {idx : Nat} (hvar : d.IsVar idx)
      (hun : d.assigned idx = false) : Step d (d.assign root idx)
  | unassign (d : Decider) {idx : Nat} (hassigned : d.assigned idx = true)
      (hfixed : d.fixed idx = false) : Step d (d.unassign idx)
  | mark (d : Decider) {idx : Nat} {status : Status} (hvar : d.IsVar idx)
      (hfixed : d.fixed idx = false) (hstatus : status ≠ .fixed) : Step d (d.mark idx status)
  | bump (d : Decider) {idx : Nat} (hvar : d.IsVar idx) (hfixed : d.fixed idx = false)
      (haux : d.isAux idx = false) : Step d (d.bumpVariable idx)
  | bump_inc (d : Decider) {scorefactor : ℚ} (hpos : 0 < scorefactor) :
      Step d (d.bumpVariableScoreInc scorefactor)
  | stable (d : Decider) (useScores : Bool) : Step d { d with useScores }
  | shuffleQueue (d : Decider) {shuffle : List Nat}
      (hshuffle : shuffle.Perm (Evsids.vars d.maxVar)
        ∨ shuffle = d.vmtf.walkBack (d.maxVar + 1) d.vmtf.queue.last) :
      Step d (d.shuffleQueue shuffle)
  | shuffleScores (d : Decider) {shuffle : List Nat}
      (hshuffle : shuffle.Perm (Evsids.vars d.maxVar)
        ∨ shuffle = d.evsids.scores.popAll d.evsids.less d.evsids.scores.size) :
      Step d (d.shuffleScores shuffle)
  | compact (d : Decider) (hroot : d.AtRoot) : Step d d.compact
  | next (d : Decider) {n idx : Nat} {d' : Decider} (hhas : d.HasDecision)
      (hnext : d.nextDecisionVariable n = some (idx, d')) : Step d d'

/-- The states that the solver can reach. -/
inductive Reachable : Decider → Prop
  | init (aux : Finset Nat) (useScores : Bool) : Reachable (init aux useScores)
  | step {d d' : Decider} (h : Reachable d) (hstep : Step d d') : Reachable d'

/-! ### The invariant -/

/-- The queue and the scores have the unassigned variables. -/
structure Inv (d : Decider) : Prop where
  queue : ∃ l, d.vmtf.Inv d.assigned d.fixed l ∧ (∀ x ∈ l, d.IsVar x)
    ∧ ∀ x, d.IsVar x → d.fixed x = false → x ∈ l
  scores : d.evsids.Inv d.assigned d.isAux d.maxVar
  assigned_of_fixed : ∀ x, d.fixed x = true → d.assigned x = true
  isVar_of_assigned : ∀ x, d.assigned x = true → d.IsVar x

namespace Inv

variable {d : Decider} {idx : Nat}

/-- Without variables the invariant holds. -/
theorem init (aux : Finset Nat) (useScores : Bool) :
  (Decider.init aux useScores).Inv
  where
    queue := by
      refine ⟨[], Vmtf.Inv.init _ _, fun _ hx => absurd hx List.not_mem_nil, ?_⟩
      intro x hx _
      have hpos := hx.1
      have hle : x ≤ 0 := hx.2
      omega
    scores := Evsids.Inv.init _ _
    assigned_of_fixed := fun _ hx => by cases hx
    isVar_of_assigned := fun _ hx => by cases hx

/-- A variable that is not assigned is not fixed. -/
theorem fixed_of_unassigned (h : d.Inv) (hun : d.assigned idx = false) :
  d.fixed idx = false
  := by
  cases hfixed : d.fixed idx with
  | false => rfl
  | true =>
      rw [h.assigned_of_fixed idx hfixed] at hun
      cases hun

/-- New variables are put in the queue and in the heap. -/
theorem initVars (h : d.Inv) (reverse : Bool) {newMaxVar : Nat} {i2e : Nat → Nat}
    (hroot : d.AtRoot) (hlt : d.maxVar < newMaxVar)
    (hi2e : ∀ idx, idx ≤ d.maxVar → i2e idx = d.external.i2e idx) :
  (d.initVars reverse newMaxVar i2e).Inv
  := by
  obtain ⟨l, hl, hvar, hcover⟩ := h.queue
  have hroot' : ∀ x, d.fixed x = false → d.assigned x = false := by
    intro x hx
    by_contra hassigned
    rw [hroot x (by simpa using hassigned)] at hx
    cases hx
  obtain ⟨l', hl', hmem⟩ := hl.initQueue hroot' reverse (fun x hx => (hvar x hx).2) newMaxVar
  constructor
  · refine ⟨l', hl', ?_, ?_⟩
    · intro x hx
      obtain hx | hx := (hmem x).mp hx
      · exact ⟨(hvar x hx).1, (hvar x hx).2.trans hlt.le⟩
      · exact ⟨by omega, hx.2⟩
    · rintro x ⟨hpos, hle⟩ hx
      apply (hmem x).mpr
      by_cases hold : x ≤ d.maxVar
      · exact Or.inl (hcover x ⟨hpos, hold⟩ hx)
      · exact Or.inr ⟨by omega, hle⟩
  · apply h.scores.initScores hlt.le
    intro x hx
    change decide (i2e x ∈ d.external.aux) = decide (d.external.i2e x ∈ d.external.aux)
    rw [hi2e x hx]
  · exact h.assigned_of_fixed
  · intro x hx
    have hvar := h.isVar_of_assigned x hx
    exact ⟨hvar.1, hvar.2.trans hlt.le⟩

/-- Assigning a variable keeps the invariant. -/
theorem assign (h : d.Inv) (root : Bool) (hvar : d.IsVar idx) (hun : d.assigned idx = false) :
  (d.assign root idx).Inv
  := by
  have hassigned : ∀ x, (d.assign root idx).assigned x = false → d.assigned x = false := by
    intro x hx
    change Function.update d.assigned idx true x = false at hx
    by_cases heq : x = idx
    · rw [heq]
      exact hun
    · rwa [Function.update_of_ne heq] at hx
  have hfixed : ∀ x, (d.assign root idx).fixed x = true →
      d.fixed x = true ∨ (x = idx ∧ root = true) := by
    intro x hx
    cases root with
    | false => exact Or.inl hx
    | true =>
        by_cases heq : x = idx
        · exact Or.inr ⟨heq, rfl⟩
        · change decide (Function.update d.status idx .fixed x = .fixed) = true at hx
          rw [Function.update_of_ne heq] at hx
          exact Or.inl hx
  obtain ⟨l, hl, hlvar, hcover⟩ := h.queue
  constructor
  · refine ⟨l, hl.mono (fun x _ => hassigned x) ?_, hlvar, ?_⟩
    · intro x _ hx
      obtain hx | ⟨rfl, -⟩ := hfixed x hx
      · exact Or.inl hx
      · exact Or.inr hun
    · intro x hx hnot
      apply hcover x hx
      cases hfix : d.fixed x with
      | false => rfl
      | true =>
          exfalso
          cases root with
          | false =>
              change d.fixed x = false at hnot
              rw [hfix] at hnot
              cases hnot
          | true =>
              change decide (Function.update d.status idx .fixed x = .fixed) = false at hnot
              by_cases heq : x = idx
              · rw [heq, Function.update_self] at hnot
                cases hnot
              · rw [Function.update_of_ne heq] at hnot
                change d.fixed x = false at hnot
                rw [hfix] at hnot
                cases hnot
  · exact h.scores.mono hassigned
  · intro x hx
    change Function.update d.assigned idx true x = true
    obtain hx | ⟨rfl, -⟩ := hfixed x hx
    · by_cases heq : x = idx
      · rw [heq, Function.update_self]
      · rw [Function.update_of_ne heq]
        exact h.assigned_of_fixed x hx
    · exact Function.update_self _ _ _
  · intro x hx
    change Function.update d.assigned idx true x = true at hx
    by_cases heq : x = idx
    · rw [heq]
      exact hvar
    · rw [Function.update_of_ne heq] at hx
      exact h.isVar_of_assigned x hx

/-- Unassigning a variable keeps the invariant, since it is put back where it can be found. -/
theorem unassign (h : d.Inv) (hassigned : d.assigned idx = true) (hfixed : d.fixed idx = false) :
  (d.unassign idx).Inv
  := by
  obtain ⟨l, hl, hlvar, hcover⟩ := h.queue
  have hvar := h.isVar_of_assigned idx hassigned
  constructor
  · exact ⟨l, hl.unassign (hcover idx hvar hfixed), hlvar, hcover⟩
  · exact h.scores.unassign hvar.1 hvar.2
  · intro x hx
    change Function.update d.assigned idx false x = true
    rw [Function.update_of_ne]
    · exact h.assigned_of_fixed x hx
    · rintro rfl
      change d.fixed x = true at hx
      rw [hfixed] at hx
      cases hx
  · intro x hx
    change Function.update d.assigned idx false x = true at hx
    by_cases heq : x = idx
    · rw [heq, Function.update_self] at hx
      cases hx
    · rw [Function.update_of_ne heq] at hx
      exact h.isVar_of_assigned x hx

/-- Changing the status of a variable that is not fixed changes nothing for the decisions. -/
theorem mark (h : d.Inv) {status : Status} (hfixed : d.fixed idx = false)
    (hstatus : status ≠ .fixed) :
  (d.mark idx status).Inv
  := by
  have hsame : (d.mark idx status).fixed = d.fixed := by
    funext x
    change decide (Function.update d.status idx status x = .fixed) = _
    by_cases heq : x = idx
    · rw [heq, Function.update_self, hfixed, decide_eq_false_iff_not]
      exact hstatus
    · rw [Function.update_of_ne heq]
      rfl
  refine ⟨?_, h.scores, ?_, h.isVar_of_assigned⟩
  · rw [hsame]
    exact h.queue
  · rw [hsame]
    exact h.assigned_of_fixed

/-- Bumping a variable keeps the invariant. -/
theorem bumpVariable (h : d.Inv) (hvar : d.IsVar idx) (hfixed : d.fixed idx = false)
    (haux : d.isAux idx = false) :
  (d.bumpVariable idx).Inv
  := by
  rw [Decider.bumpVariable]
  split
  · exact { h with scores := h.scores.bumpVariableScore hvar.1 hvar.2 haux }
  · obtain ⟨l, hl, hlvar, hcover⟩ := h.queue
    obtain ⟨l₁, l₂, rfl⟩ := List.append_of_mem (hcover idx hvar hfixed)
    have hperm : (l₁ ++ l₂ ++ [idx]).Perm (l₁ ++ idx :: l₂) :=
      (List.perm_append_singleton idx (l₁ ++ l₂)).trans List.perm_middle.symm
    exact { h with
      queue := ⟨_, hl.bumpQueue hfixed, fun x hx => hlvar x (hperm.mem_iff.mp hx),
        fun x hx hnot => hperm.mem_iff.mpr (hcover x hx hnot)⟩ }

theorem mem_vars {maxVar x : Nat} :
  x ∈ Evsids.vars maxVar ↔ 1 ≤ x ∧ x ≤ maxVar
  := by
  rw [Evsids.vars, List.mem_range'_1]
  omega

/-- Shuffling the queue keeps the invariant. -/
theorem shuffleQueue (h : d.Inv) {shuffle : List Nat}
    (hshuffle : shuffle.Perm (Evsids.vars d.maxVar)
      ∨ shuffle = d.vmtf.walkBack (d.maxVar + 1) d.vmtf.queue.last) :
  (d.shuffleQueue shuffle).Inv
  := by
  obtain ⟨l, hl, hlvar, hcover⟩ := h.queue
  have hspec : shuffle.Nodup ∧ (∀ x ∈ shuffle, d.IsVar x)
      ∧ ∀ x, d.IsVar x → d.fixed x = false → x ∈ shuffle := by
    obtain hperm | rfl := hshuffle
    · refine ⟨hperm.nodup_iff.mpr List.nodup_range', ?_, ?_⟩
      · intro x hx
        exact mem_vars.mp (hperm.mem_iff.mp hx)
      · intro x hx _
        exact hperm.mem_iff.mpr (mem_vars.mpr hx)
    · have hlength := Vmtf.length_le_maxVar hl.nodup hlvar
      rw [hl.last, Vmtf.walkBack_eq rfl hl.seg hl.zero_notMem (by omega)]
      refine ⟨List.nodup_reverse.mpr hl.nodup, ?_, ?_⟩
      · intro x hx
        exact hlvar x (List.mem_reverse.mp hx)
      · intro x hx hnot
        exact List.mem_reverse.mpr (hcover x hx hnot)
  obtain ⟨hnodup, hvar, hmem⟩ := hspec
  have hzero : 0 ∉ shuffle := fun hzero => absurd (hvar 0 hzero).1 (by omega)
  exact { h with queue := ⟨shuffle, hl.shuffleQueue shuffle hnodup hzero, hvar, hmem⟩ }

/-- Shuffling the scores keeps the invariant. -/
theorem shuffleScores (h : d.Inv) {shuffle : List Nat}
    (hshuffle : shuffle.Perm (Evsids.vars d.maxVar)
      ∨ shuffle = d.evsids.scores.popAll d.evsids.less d.evsids.scores.size) :
  (d.shuffleScores shuffle).Inv
  := by
  have hspec : shuffle.Nodup ∧ (∀ x ∈ shuffle, d.IsVar x)
      ∧ ∀ x, d.IsVar x → d.assigned x = false → x ∈ shuffle := by
    obtain hperm | rfl := hshuffle
    · refine ⟨hperm.nodup_iff.mpr List.nodup_range', ?_, ?_⟩
      · intro x hx
        exact mem_vars.mp (hperm.mem_iff.mp hx)
      · intro x hx _
        exact hperm.mem_iff.mpr (mem_vars.mpr hx)
    · obtain ⟨hnodup, hmem⟩ := Heap.popAll_spec (Evsids.compares d.evsids.stab)
        d.evsids.scores.size h.scores.wf h.scores.ordered le_rfl
      refine ⟨hnodup, ?_, ?_⟩
      · intro x hx
        exact h.scores.range x ((hmem x).mp hx)
      · intro x hx hun
        exact (hmem x).mpr (h.scores.cover x hx.1 hx.2 hun)
  obtain ⟨hnodup, hvar, hmem⟩ := hspec
  exact { h with
    scores := h.scores.shuffleScores hnodup hvar (fun x hpos hle => hmem x ⟨hpos, hle⟩) }

/-- Compacting keeps the active variables and the first fixed one. -/
theorem compact (h : d.Inv) (hroot : d.AtRoot) :
  d.compact.Inv
  := by
  have hm := Mapper.make_spec d.status d.maxVar
  obtain ⟨l, hl, hlvar, hcover⟩ := h.queue
  rw [Decider.compact]
  revert hm
  generalize Mapper.make d.status d.maxVar = m
  intro hm
  have hfixed : ∀ x, m.table x ≠ 0 →
      decide (m.mapVector d.maxVar .unused d.status (m.table x) = .fixed) = d.fixed x := by
    intro x hx
    rw [hm.mapVector .unused d.status hx]
    rfl
  have hvar : ∀ x, m.table x ≠ 0 → d.IsVar x := fun x hx => ((hm.kept x).mp hx).1
  have hactive : ∀ x, m.table x ≠ 0 → x ≠ m.firstFixed → d.fixed x = false := by
    intro x hx hne
    obtain hactive | hfirst := ((hm.kept x).mp hx).2
    · rw [Decider.fixed, hactive]
      rfl
    · exact absurd hfirst hne
  have hfirst : ∀ x, m.table x ≠ 0 → x = m.firstFixed → d.fixed x = true := by
    intro x hx heq
    have hne : m.firstFixed ≠ 0 := by
      rw [← heq]
      exact Nat.ne_zero_of_lt (hvar x hx).1
    rw [heq, Decider.fixed, decide_eq_true_eq]
    exact (hm.fixed hne).1
  have hunassigned : ∀ x, m.table x ≠ 0 → x ≠ m.firstFixed → d.assigned x = false := by
    intro x hx hne
    by_contra hassigned
    have hfix := hroot x (by simpa using hassigned)
    rw [hactive x hx hne] at hfix
    cases hfix
  constructor
  · refine ⟨(Vmtf.keptOf m l).map m.table, hl.compact hm hlvar ?_, ?_, ?_⟩
    · intro x hx
      obtain ⟨-, hne, hx⟩ := Vmtf.mem_keptOf.mp hx
      exact ⟨hunassigned x hx hne, (hfixed x hx).trans (hactive x hx hne)⟩
    · intro y hy
      obtain ⟨x, hx, rfl⟩ := List.mem_map.mp hy
      exact ⟨Nat.pos_of_ne_zero (Vmtf.mem_keptOf.mp hx).2.2, hm.le_new x⟩
    · rintro y ⟨hpos, hle⟩ hnot
      obtain ⟨x, rfl⟩ := hm.onto y hpos hle
      have hx : m.table x ≠ 0 := Nat.ne_zero_of_lt hpos
      have hxnot : d.fixed x = false := (hfixed x hx).symm.trans hnot
      apply List.mem_map_of_mem
      apply Vmtf.mem_keptOf.mpr
      refine ⟨hcover x (hvar x hx) hxnot, ?_, hx⟩
      intro heq
      rw [hfirst x hx heq] at hxnot
      cases hxnot
  · apply h.scores.compact hm
    · intro x hx hun
      change m.mapVals d.maxVar d.assigned (m.table x) = false at hun
      rw [hm.mapVals d.assigned hx] at hun
      refine ⟨hun, ?_⟩
      intro heq
      rw [h.assigned_of_fixed x (hfirst x hx heq)] at hun
      cases hun
    · intro x hx
      change decide (m.mapVector d.maxVar 0 d.external.i2e (m.table x) ∈ d.external.aux) = _
      rw [hm.mapVector 0 d.external.i2e hx]
      rfl
  · intro y hy
    change m.mapVals d.maxVar d.assigned y = true
    change decide (m.mapVector d.maxVar .unused d.status y = .fixed) = true at hy
    by_cases hle : y ≤ m.newMaxVar
    · by_cases hzero : y = 0
      · rw [hzero, Mapper.mapVector_zero] at hy
        have hpos := (h.isVar_of_assigned 0 (h.assigned_of_fixed 0 hy)).1
        omega
      · obtain ⟨x, rfl⟩ := hm.onto y (Nat.pos_of_ne_zero hzero) hle
        rw [hm.mapVals d.assigned hzero]
        exact h.assigned_of_fixed x ((hfixed x hzero).symm.trans hy)
    · rw [Mapper.mapVector, if_neg hle] at hy
      cases hy
  · intro y hy
    exact hm.mapVals_range d.assigned hy

/-- The search for the next decision finds a variable if there is one, and keeps the
invariant. -/
theorem nextDecisionVariable (h : d.Inv) (hhas : d.HasDecision) :
  ∃ n idx d', d.nextDecisionVariable n = some (idx, d') ∧ d.IsVar idx
    ∧ d.assigned idx = false ∧ d.isAux idx = false ∧ d'.Inv
  := by
  rw [HasDecision] at hhas
  by_cases hscores : d.useScores = true
  · obtain ⟨idx, e', he', hvar, hun, haux, hinv⟩ :=
      h.scores.nextDecisionVariableWithBestScore hhas (Nat.lt_succ_self _)
    have hnext : d.nextDecisionVariable (d.evsids.scores.size
        + (Evsids.Inv.unsettled d.isAux d.maxVar d.evsids).card + 1)
        = some (idx, { d with evsids := e' }) := by
      rw [Decider.nextDecisionVariable, if_pos hscores, he']
      simp [haux]
    exact ⟨_, idx, _, hnext, hvar, hun, haux, { h with scores := hinv }⟩
  · obtain ⟨l, hl, hlvar, hcover⟩ := h.queue
    have hex : ∃ x ∈ l, d.assigned x = false ∧ d.isAux x = false := by
      obtain ⟨x, hvar, hun, haux⟩ := hhas
      exact ⟨x, hcover x hvar (h.fixed_of_unassigned hun), hun, haux⟩
    obtain ⟨idx, q', l', hq', ⟨hun, haux⟩, ⟨F, E, hsplit, -⟩, hl', hperm, -⟩ :=
      hl.nextDecisionVariableOnQueue hex (Nat.lt_succ_self l.length)
    have hidx : idx ∈ l := by
      rw [hsplit]
      exact List.mem_append_right F List.mem_cons_self
    have hnext : d.nextDecisionVariable (l.length + 1) = some (idx, { d with vmtf := q' }) := by
      rw [Decider.nextDecisionVariable, if_neg hscores, hq']
      simp [haux]
    exact ⟨_, idx, _, hnext, hlvar idx hidx, hun, haux, { h with
      queue := ⟨l', hl', fun x hx => hlvar x (hperm.mem_iff.mp hx),
        fun x hx hnot => hperm.mem_iff.mpr (hcover x hx hnot)⟩ }⟩

end Inv

/-- More iterations do not change the result. -/
theorem nextDecisionVariable_mono {d : Decider} {m n : Nat} (hle : m ≤ n) {r : Nat × Decider}
    (h : d.nextDecisionVariable m = some r) :
  d.nextDecisionVariable n = some r
  := by
  rw [nextDecisionVariable] at h ⊢
  split at h
  · next hscores =>
      obtain ⟨hnext, haux⟩ := Option.filter_eq_some_iff.mp h
      obtain ⟨r', hr', rfl⟩ := Option.map_eq_some_iff.mp hnext
      rw [if_pos hscores, Evsids.nextDecisionVariableWithBestScore_mono hle hr']
      exact Option.filter_eq_some_iff.mpr ⟨rfl, haux⟩
  · next hscores =>
      obtain ⟨hnext, haux⟩ := Option.filter_eq_some_iff.mp h
      obtain ⟨r', hr', rfl⟩ := Option.map_eq_some_iff.mp hnext
      rw [if_neg hscores, Vmtf.nextDecisionVariableOnQueue_mono hle hr']
      exact Option.filter_eq_some_iff.mpr ⟨rfl, haux⟩

/-- A variable that the search has found is neither assigned nor auxiliary, and the invariant is
kept. -/
theorem Inv.of_nextDecisionVariable {d d' : Decider} {n idx : Nat} (h : d.Inv)
    (hhas : d.HasDecision) (hnext : d.nextDecisionVariable n = some (idx, d')) :
  d.IsVar idx ∧ d.assigned idx = false ∧ d.isAux idx = false ∧ d'.Inv
  := by
  obtain ⟨m, idx', d'', hm, hspec⟩ := h.nextDecisionVariable hhas
  have heq := nextDecisionVariable_mono (Nat.le_max_left n m) hnext
  rw [nextDecisionVariable_mono (Nat.le_max_right n m) hm] at heq
  obtain ⟨rfl, rfl⟩ := Prod.mk.inj (Option.some.inj heq)
  exact hspec

/-- Every step keeps the invariant. -/
theorem Inv.step {d d' : Decider} (h : d.Inv) (hstep : Step d d') :
  d'.Inv
  := by
  cases hstep with
  | initVars reverse hroot hlt hi2e => exact h.initVars reverse hroot hlt hi2e
  | assign root hvar hun => exact h.assign root hvar hun
  | unassign hassigned hfixed => exact h.unassign hassigned hfixed
  | mark hvar hfixed hstatus => exact h.mark hfixed hstatus
  | bump hvar hfixed haux => exact h.bumpVariable hvar hfixed haux
  | bump_inc hpos => exact { h with scores := h.scores.bumpVariableScoreInc hpos.le }
  | stable useScores => exact { h with }
  | shuffleQueue hshuffle => exact h.shuffleQueue hshuffle
  | shuffleScores hshuffle => exact h.shuffleScores hshuffle
  | compact hroot => exact h.compact hroot
  | next hhas hnext =>
      obtain ⟨-, -, -, hinv⟩ := h.of_nextDecisionVariable hhas hnext
      exact hinv

/-- The invariant holds in every state that the solver can reach. -/
theorem Reachable.inv {d : Decider} (h : Reachable d) :
  d.Inv
  := by
  induction h with
  | init aux useScores => exact Inv.init aux useScores
  | step _ hstep ih => exact ih.step hstep

/-! ### Decisions -/

/-- In every state that the solver can reach, `next_decision_variable` finds a variable if and
only if some variable is neither assigned nor auxiliary. -/
theorem decides_iff {d : Decider} (h : Reachable d) :
  d.Decides ↔ d.HasDecision
  := by
  constructor
  · rintro ⟨n, idx, d', -, hvar, hun, haux⟩
    exact ⟨idx, hvar, hun, haux⟩
  · intro hhas
    obtain ⟨n, idx, d', hnext, hvar, hun, haux, -⟩ := h.inv.nextDecisionVariable hhas
    exact ⟨n, idx, d', hnext, hvar, hun, haux⟩

/-- The state for a formula with the variables `1` and `2`, in which nothing is assigned. -/
def twoVariables (aux : Finset Nat) (useScores : Bool) : Decider :=
  (init aux useScores).initVars false 2 id

theorem reachable_twoVariables (aux : Finset Nat) (useScores : Bool) :
  Reachable (twoVariables aux useScores)
  := by
  apply Reachable.step (Reachable.init aux useScores)
  apply Step.initVars
  · intro idx hassigned
    cases hassigned
  · exact Nat.zero_lt_two
  · intro idx hle
    exact Nat.le_zero.mp hle

/-- Two variables, one of them auxiliary: the other one is decided. -/
theorem decides_iff_twoVariables :
  (twoVariables {2} false).Decides ↔ (twoVariables {2} false).HasDecision
  := decides_iff (reachable_twoVariables {2} false)

/-- The clauses leave no literal to propagate, since each has two unassigned literals. -/
def Propagated (clauses : List (List Int)) (d : Decider) : Prop :=
  ∀ c ∈ clauses, 2 ≤ (c.filter (fun lit => d.assigned lit.natAbs = false)).length

theorem not_decides_twoVariables (useScores : Bool) :
  ¬ (twoVariables {1, 2} useScores).Decides
  := by
  rintro ⟨n, idx, d', -, ⟨hpos, hle⟩, -, haux⟩
  change idx ≤ 2 at hle
  obtain rfl | rfl : idx = 1 ∨ idx = 2 := by omega
  · cases haux
  · cases haux

/-- When both variables of `(1 2) (1 -2) (-1 2) (-1 -2)` are auxiliary, no decision variable
is found, on the queue or by the scores, although nothing is assigned and nothing can be
propagated. -/
theorem not_decides :
  (Reachable (twoVariables {1, 2} false) ∧ Reachable (twoVariables {1, 2} true))
    ∧ Propagated [[1, 2], [1, -2], [-1, 2], [-1, -2]] (twoVariables {1, 2} false)
    ∧ (∃ idx, (twoVariables {1, 2} false).IsVar idx
      ∧ (twoVariables {1, 2} false).assigned idx = false)
    ∧ ¬ (twoVariables {1, 2} false).Decides ∧ ¬ (twoVariables {1, 2} true).Decides
  := by
  refine ⟨⟨reachable_twoVariables _ _, reachable_twoVariables _ _⟩, ?_, ⟨1, ?_, rfl⟩,
    not_decides_twoVariables false, not_decides_twoVariables true⟩
  · rw [Propagated]
    decide
  · exact ⟨le_rfl, by decide⟩

end Decider

end Cadical
