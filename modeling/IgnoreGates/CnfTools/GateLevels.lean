import IgnoreGates.Graph.Levels
import IgnoreGates.CnfTools.GateStats
import IgnoreGates.CnfTools.GateStructure

/-!
# The levels of the gates

`GateStats::analyze` determines the level of each gate by a breadth-first search from the
literals of the roots, and reads the levels again when it counts the types of the gates.  The
vector of levels has `n_vars` entries, but it is accessed with the variables `1`, …, `n_vars`.
The search computes the levels of `Graph`, where it stays within the bounds of the vector.
-/

namespace CnfTools

namespace GateFormula

/-- `getRoots`. -/
def getRoots (F : CNFFormula) (gates : GateFormula) : List Lit :=
  gates.roots.flatMap F.deref

end GateFormula

namespace GateStats

/-! ### The search -/

/-- The body of the inner loop of the search; the list holds the literals in `next`. -/
def visitLevel (gates : GateFormula) (level : Nat) (s : List Nat × List Lit) (lit : Lit) :
    Except Fault (List Nat × List Lit) :=
  let gate := gates.getGate lit
  if gate.isDefined then
    match s.1[lit.var]? with
    | none => .error .outOfBounds
    | some 0 => .ok (s.1.set lit.var level, s.2 ++ gate.inp)
    | some (_ + 1) => .ok s
  else
    .ok s

/-- The search, for a bounded number of levels. -/
def levelLoop (gates : GateFormula) : Nat → Nat → List Nat → List Lit → Except Fault (List Nat)
  | _, _, levels, [] => .ok levels
  | 0, _, _, _ :: _ => .error .outOfFuel
  | n + 1, level, levels, current => do
      let (levels, next) ← current.foldlM (visitLevel gates (level + 1)) (levels, [])
      levelLoop gates n (level + 1) levels next

/-- The counters, the output and the vectors `levels_none` to `levels_full`. -/
structure TypeLevels where
  stats : GateStats
  levels : GateType → List Nat

/-- The body of the loop over the variables. -/
def collect (gates : GateFormula) (levels : List Nat) (s : TypeLevels) (i : Nat) :
    Except Fault TypeLevels :=
  let type := (gates.getGate (Lit.ofVar i false)).type
  if type = .MONO then
    .ok s
  else
    match levels[i]? with
    | none => .error .outOfBounds
    | some level =>
        .ok
          { stats := s.stats.visit gates i
            levels := Function.update s.levels type (s.levels type ++ [level]) }

/-- The search and the loop over the variables of `GateStats::analyze`. -/
def analyzeLevels (F : CNFFormula) (gates : GateFormula) : Except Fault (List Nat × TypeLevels) := do
  let levels ← levelLoop gates (F.nVars + 1) 0 (List.replicate F.nVars 0) (gates.getRoots F)
  let types ← (List.range' 1 F.nVars).foldlM (collect gates levels) ⟨init, fun _ => []⟩
  return (levels, types)

/-! ### The graph that is searched -/

variable {gates : GateFormula}

/-- The entry of a variable, zero if there is none. -/
def levelAt (levels : List Nat) (v : Nat) : Nat :=
  levels.getD v 0

/-- The variable is the output of a gate. -/
def Inner (gates : GateFormula) (v : Nat) : Prop :=
  (gates.gates v).isDefined = true

/-- The second variable has an input literal of the gate of the first one. -/
def Edge (gates : GateFormula) (u v : Nat) : Prop :=
  ∃ l ∈ (gates.gates u).inp, l.var = v

/-- The variable has a literal in the list. -/
def HasVar (ls : List Lit) (v : Nat) : Prop :=
  ∃ l ∈ ls, l.var = v

/-- What a part of the inner loop does for the literals `ls`: the defined gates among them that
have no level get one, and their inputs are appended to `next`. -/
structure Visited (gates : GateFormula) (level : Nat) (ls : List Lit)
    (s s' : List Nat × List Lit) : Prop where
  length : s'.1.length = s.1.length
  old : ∀ v, levelAt s.1 v ≠ 0 → levelAt s'.1 v = levelAt s.1 v
  new : ∀ v, levelAt s.1 v = 0 → levelAt s'.1 v ≠ 0 →
    levelAt s'.1 v = level ∧ Inner gates v ∧ HasVar ls v ∧ ∀ l ∈ (gates.gates v).inp, l ∈ s'.2
  done : ∀ v, HasVar ls v → Inner gates v → levelAt s'.1 v ≠ 0
  kept : ∀ l ∈ s.2, l ∈ s'.2
  next : ∀ l ∈ s'.2,
    l ∈ s.2 ∨ ∃ v, levelAt s.1 v = 0 ∧ levelAt s'.1 v ≠ 0 ∧ l ∈ (gates.gates v).inp
  progress : s'.1.count 0 ≤ s.1.count 0 ∧ (s'.2 = s.2 ∨ s'.1.count 0 < s.1.count 0)

theorem Visited.refl (gates : GateFormula) (level : Nat) (s : List Nat × List Lit) :
  Visited gates level [] s s
  where
    length := rfl
    old := fun _ _ => rfl
    new := fun _ h h' => absurd h h'
    done := by
      rintro v ⟨l, hl, -⟩
      cases hl
    kept := fun _ hl => hl
    next := fun _ hl => Or.inl hl
    progress := ⟨le_rfl, Or.inl rfl⟩

theorem Visited.append {level : Nat} {ls ls' : List Lit} {s s' s'' : List Nat × List Lit}
    (h : Visited gates level ls s s') (h' : Visited gates level ls' s' s'') :
  Visited gates level (ls ++ ls') s s''
  := by
  have hleft : ∀ v, HasVar ls v → HasVar (ls ++ ls') v := by
    rintro v ⟨l, hl, hv⟩
    exact ⟨l, List.mem_append_left _ hl, hv⟩
  have hright : ∀ v, HasVar ls' v → HasVar (ls ++ ls') v := by
    rintro v ⟨l, hl, hv⟩
    exact ⟨l, List.mem_append_right _ hl, hv⟩
  have hkeep : ∀ v, levelAt s'.1 v ≠ 0 → levelAt s''.1 v ≠ 0 := by
    intro v hv
    rw [h'.old v hv]
    exact hv
  refine ⟨h'.length.trans h.length, ?_, ?_, ?_, fun l hl => h'.kept l (h.kept l hl), ?_, ?_⟩
  · intro v hv
    have hold := h.old v hv
    rw [h'.old v (hold ▸ hv), hold]
  · intro v hv hv''
    by_cases hv' : levelAt s'.1 v = 0
    · obtain ⟨heq, hinner, hvar, hinp⟩ := h'.new v hv' hv''
      exact ⟨heq, hinner, hright v hvar, hinp⟩
    · obtain ⟨heq, hinner, hvar, hinp⟩ := h.new v hv hv'
      rw [h'.old v hv']
      exact ⟨heq, hinner, hleft v hvar, fun l hl => h'.kept l (hinp l hl)⟩
  · rintro v ⟨l, hl, rfl⟩ hinner
    obtain hl | hl := List.mem_append.mp hl
    · exact hkeep _ (h.done _ ⟨l, hl, rfl⟩ hinner)
    · exact h'.done _ ⟨l, hl, rfl⟩ hinner
  · intro l hl
    obtain hl | ⟨v, hv, hv', hinp⟩ := h'.next l hl
    · obtain hl | ⟨v, hv, hv', hinp⟩ := h.next l hl
      · exact Or.inl hl
      · exact Or.inr ⟨v, hv, hkeep v hv', hinp⟩
    · right
      refine ⟨v, ?_, hv', hinp⟩
      by_contra hne
      exact hne (by rw [← h.old v hne, hv])
  · obtain ⟨hle, hnext⟩ := h.progress
    obtain ⟨hle', hnext'⟩ := h'.progress
    refine ⟨hle'.trans hle, ?_⟩
    obtain hnext' | hlt' := hnext'
    · obtain hnext | hlt := hnext
      · exact Or.inl (hnext'.trans hnext)
      · exact Or.inr (lt_of_le_of_lt hle' hlt)
    · exact Or.inr (lt_of_lt_of_le hlt' hle)

theorem levelAt_set {levels : List Nat} {v : Nat} (hv : v < levels.length) (level w : Nat) :
  levelAt (levels.set v level) w = if w = v then level else levelAt levels w
  := by
  rw [levelAt, List.getD_eq_getElem?_getD, List.getElem?_set]
  by_cases hvw : v = w
  · subst hvw
    simp [hv]
  · rw [if_neg hvw, if_neg (Ne.symm hvw), levelAt, List.getD_eq_getElem?_getD]

/-- A literal of a defined gate without a level is marked. -/
theorem Visited.mark {level : Nat} {s : List Nat × List Lit} {lit : Lit}
    (hlevel : level ≠ 0) (hinner : Inner gates lit.var) (hzero : s.1[lit.var]? = some 0) :
  Visited gates level [lit] s (s.1.set lit.var level, s.2 ++ (gates.gates lit.var).inp)
  := by
  obtain ⟨hlt, hget⟩ := List.getElem?_eq_some_iff.mp hzero
  have hat : levelAt s.1 lit.var = 0 := by
    rw [levelAt, List.getD_eq_getElem?_getD, hzero, Option.getD_some]
  have hset := levelAt_set hlt level
  have hself : levelAt (s.1.set lit.var level) lit.var = level := by
    rw [hset, if_pos rfl]
  have hcount : (s.1.set lit.var level).count 0 < s.1.count 0 := by
    have hpos : 0 < s.1.count 0 := List.count_pos_iff.mpr (hget ▸ List.getElem_mem hlt)
    rw [List.count_set hlt, hget]
    simp only [BEq.rfl, if_true, beq_iff_eq, hlevel, if_false, Nat.add_zero]
    omega
  refine ⟨List.length_set, ?_, ?_, ?_, fun l hl => List.mem_append_left _ hl, ?_,
    ⟨hcount.le, Or.inr hcount⟩⟩
  · intro v hv
    rw [hset, if_neg]
    rintro rfl
    exact hv hat
  · intro v hv hv'
    rw [hset] at hv'
    split at hv'
    · next hvl =>
        subst hvl
        exact ⟨hself, hinner, ⟨lit, List.mem_cons_self, rfl⟩,
          fun l hl => List.mem_append_right _ hl⟩
    · exact absurd hv hv'
  · rintro v ⟨l, hl, rfl⟩ -
    rw [List.mem_singleton.mp hl, hself]
    exact hlevel
  · intro l hl
    obtain hl | hl := List.mem_append.mp hl
    · exact Or.inl hl
    · right
      exact ⟨lit.var, hat, by rw [hself]; exact hlevel, hl⟩

theorem Visited.skip {level : Nat} {s : List Nat × List Lit} {lit : Lit}
    (h : Inner gates lit.var → levelAt s.1 lit.var ≠ 0) :
  Visited gates level [lit] s s
  := by
  refine { Visited.refl gates level s with new := fun v hv hv' => absurd hv hv', done := ?_ }
  rintro v ⟨l, hl, rfl⟩ hinner
  rw [List.mem_singleton.mp hl] at hinner ⊢
  exact h hinner

/-- One iteration of the inner loop, where it stays within the bounds. -/
theorem visitLevel_visited {level : Nat} (hlevel : level ≠ 0) {s s' : List Nat × List Lit}
    {lit : Lit} (h : visitLevel gates level s lit = .ok s') :
  Visited gates level [lit] s s'
  := by
  rw [visitLevel] at h
  split at h
  · next hinner =>
      split at h
      · cases h
      · next hzero =>
          obtain rfl := Except.ok.inj h
          exact Visited.mark hlevel hinner hzero
      · next n hpos =>
          obtain rfl := Except.ok.inj h
          apply Visited.skip
          intro _
          rw [levelAt, List.getD_eq_getElem?_getD, hpos]
          exact Nat.succ_ne_zero n
  · next hnot =>
      obtain rfl := Except.ok.inj h
      apply Visited.skip
      exact fun hinner => absurd hinner hnot

/-- Only a defined gate behind the end of the vector leads out of bounds. -/
theorem visitLevel_total (level : Nat) {s : List Nat × List Lit} {lit : Lit}
    (h : Inner gates lit.var → lit.var < s.1.length) :
  ∃ s', visitLevel gates level s lit = .ok s'
  := by
  rw [visitLevel]
  split
  · next hinner =>
      rw [List.getElem?_eq_getElem (h hinner)]
      split
      · next hnone => cases hnone
      · exact ⟨_, rfl⟩
      · exact ⟨_, rfl⟩
  · exact ⟨_, rfl⟩

theorem foldlM_visitLevel {level : Nat} (hlevel : level ≠ 0) (ls : List Lit)
    {s s' : List Nat × List Lit} (h : ls.foldlM (visitLevel gates level) s = .ok s') :
  Visited gates level ls s s'
  := by
  induction ls generalizing s with
  | nil =>
      obtain rfl := Except.ok.inj h
      exact Visited.refl gates level s
  | cons lit ls ih =>
      rw [List.foldlM_cons] at h
      cases hvisit : visitLevel gates level s lit with
      | error f =>
          rw [hvisit] at h
          cases h
      | ok t =>
          rw [hvisit] at h
          exact (visitLevel_visited hlevel hvisit).append (ih h)

theorem foldlM_visitLevel_total {level : Nat} (hlevel : level ≠ 0) (ls : List Lit)
    {s : List Nat × List Lit} (h : ∀ l ∈ ls, Inner gates l.var → l.var < s.1.length) :
  ∃ s', ls.foldlM (visitLevel gates level) s = .ok s'
  := by
  induction ls generalizing s with
  | nil => exact ⟨s, rfl⟩
  | cons lit ls ih =>
      obtain ⟨t, ht⟩ := visitLevel_total level (h lit List.mem_cons_self)
      rw [List.foldlM_cons, ht]
      apply ih
      intro l hl
      rw [(visitLevel_visited hlevel ht).length]
      exact h l (List.mem_cons_of_mem lit hl)

/-! ### The levels are distances -/

/-- The state of the search before a level. -/
abbrev Searching (F : CNFFormula) (gates : GateFormula) (level : Nat) (levels : List Nat)
    (current : List Lit) : Prop :=
  Graph.Levelled (HasVar (gates.getRoots F)) (Inner gates) (Edge gates) level (levelAt levels)
    (HasVar current)

/-- The variable is reached from the literals of the roots. -/
abbrev Reaches (F : CNFFormula) (gates : GateFormula) (d v : Nat) : Prop :=
  Graph.Walk (HasVar (gates.getRoots F)) (Inner gates) (Edge gates) d v

theorem Visited.searching {F : CNFFormula} {level : Nat} {levels levels' : List Nat}
    {current next : List Lit} (hsearch : Searching F gates level levels current)
    (h : Visited gates (level + 1) current (levels, []) (levels', next)) :
  Searching F gates (level + 1) levels' next
  := by
  apply hsearch.next h.old
  · intro v hv hv'
    obtain ⟨heq, hinner, hvar, hinp⟩ := h.new v hv hv'
    refine ⟨heq, hinner, hvar, ?_⟩
    rintro w ⟨l, hl, rfl⟩
    exact ⟨l, hinp l hl, rfl⟩
  · exact h.done
  · rintro w ⟨l, hl, rfl⟩
    obtain hl | ⟨v, hv, hv', hinp⟩ := h.next l hl
    · cases hl
    · exact ⟨v, hv, hv', l, hinp, rfl⟩

theorem levelLoop_cons (n level : Nat) (levels : List Nat) (c : Lit) (cs : List Lit) :
  levelLoop gates (n + 1) level levels (c :: cs)
    = (do
      let (levels, next) ← (c :: cs).foldlM (visitLevel gates (level + 1)) (levels, [])
      levelLoop gates n (level + 1) levels next)
  := rfl

/-- A search that ends has computed the distances. -/
theorem levelLoop_distances {F : CNFFormula} {n level : Nat} {levels levels' : List Nat}
    {current : List Lit} (hsearch : Searching F gates level levels current)
    (h : levelLoop gates n level levels current = .ok levels') :
  levels'.length = levels.length
    ∧ ∃ k, Graph.Levelled (HasVar (gates.getRoots F)) (Inner gates) (Edge gates) k
      (levelAt levels') (fun _ => False)
  := by
  induction n generalizing level levels current with
  | zero =>
      cases current with
      | nil =>
          obtain rfl := Except.ok.inj h
          refine ⟨rfl, level, ?_⟩
          convert hsearch using 2
          simp [HasVar]
      | cons c cs => cases h
  | succ n ih =>
      cases current with
      | nil =>
          obtain rfl := Except.ok.inj h
          refine ⟨rfl, level, ?_⟩
          convert hsearch using 2
          simp [HasVar]
      | cons c cs =>
          rw [levelLoop_cons] at h
          cases hfold : (c :: cs).foldlM (visitLevel gates (level + 1)) (levels, []) with
          | error f =>
              rw [hfold] at h
              cases h
          | ok s =>
              rw [hfold] at h
              have hvisited := foldlM_visitLevel (Nat.succ_ne_zero level) _ hfold
              obtain ⟨hlen, hlevelled⟩ := ih (hvisited.searching hsearch) h
              exact ⟨hlen.trans hvisited.length, hlevelled⟩

/-- The search ends, if the gates that it reaches are within the bounds of the vector. -/
theorem levelLoop_total {F : CNFFormula} {n level : Nat} {levels : List Nat}
    {current : List Lit} (hsearch : Searching F gates level levels current)
    (hbounds : ∀ d v, Reaches F gates d v → Inner gates v → v < levels.length)
    (hn : levels.count 0 < n) :
  ∃ levels', levelLoop gates n level levels current = .ok levels'
  := by
  induction n generalizing level levels current with
  | zero => exact absurd hn (Nat.not_lt_zero _)
  | succ n ih =>
      cases current with
      | nil => exact ⟨levels, rfl⟩
      | cons c cs =>
          obtain ⟨⟨levels', next⟩, hfold⟩ :=
            foldlM_visitLevel_total (s := (levels, [])) (Nat.succ_ne_zero level) (c :: cs)
              (fun l hl => hbounds level l.var (hsearch.walk _ ⟨l, hl, rfl⟩))
          have hvisited := foldlM_visitLevel (Nat.succ_ne_zero level) _ hfold
          rw [levelLoop_cons, hfold]
          obtain hnext | hlt := hvisited.progress.2
          · obtain rfl : next = [] := hnext
            refine ⟨levels', ?_⟩
            cases n <;> rfl
          · apply ih (hvisited.searching hsearch)
            · intro d v hreach hinner
              rw [hvisited.length]
              exact hbounds d v hreach hinner
            · have hlt' : levels'.count 0 < levels.count 0 := hlt
              omega

theorem levelAt_replicate (n : Nat) :
  levelAt (List.replicate n 0) = fun _ => 0
  := by
  funext v
  rw [levelAt, List.getD_eq_getElem?_getD, List.getElem?_replicate]
  split <;> rfl

/-! ### The loop over the variables -/

/-- The loop over the variables stays within the bounds of the vector exactly when it skips the
variables behind its end. -/
theorem foldlM_collect_ok_iff (levels : List Nat) (is : List Nat) (s : TypeLevels) :
  (∃ s', is.foldlM (collect gates levels) s = .ok s')
    ↔ ∀ i ∈ is, (gates.gates i).type = .MONO ∨ i < levels.length
  := by
  induction is generalizing s with
  | nil => simp [pure, Except.pure]
  | cons i is ih =>
      have hgate : (gates.getGate (Lit.ofVar i false)).type = (gates.gates i).type := by
        rw [GateFormula.getGate, Lit.ofVar_var]
      rw [List.foldlM_cons, List.forall_mem_cons, collect, hgate]
      by_cases hmono : (gates.gates i).type = .MONO
      · simp only [hmono, if_true, true_or, true_and]
        exact ih s
      · by_cases hlt : i < levels.length
        · simp only [hmono, if_false, hlt, or_true, true_and, List.getElem?_eq_getElem hlt]
          exact ih _
        · simp only [hmono, if_false, List.getElem?_eq_none (Nat.le_of_not_lt hlt), hlt, or_self,
            false_and, iff_false]
          rintro ⟨s', h⟩
          cases h

/-- Both loops succeed, and the search leaves the distances. -/
def LevelsComputed (F : CNFFormula) (gates : GateFormula) : Prop :=
  ∃ levels types, analyzeLevels F gates = .ok (levels, types)
    ∧ Graph.Distances (HasVar (gates.getRoots F)) (Inner gates) (Edge gates) (levelAt levels)

/-- The search reaches variables of the formula. -/
theorem reaches_range {F : CNFFormula} (hroots : ∀ l ∈ gates.getRoots F, 0 < l.var)
    (hinp : ∀ v, ∀ l ∈ (gates.gates v).inp, 0 < l.var ∧ l.var ≤ F.nVars) {d v : Nat}
    (h : Reaches F gates d v) :
  0 < v ∧ v ≤ F.nVars
  := by
  cases h with
  | start hv =>
      obtain ⟨l, hl, rfl⟩ := hv
      obtain ⟨p, -, hp⟩ := List.mem_flatMap.mp hl
      exact ⟨hroots l hl, F.deref_var_le hp⟩
  | step _ _ huv =>
      obtain ⟨l, hl, rfl⟩ := huv
      exact hinp _ l hl

/-- The levels are computed within the bounds of their vector exactly when the formula has no
variables, or the gate of its last variable has the type `MONO`, which is not counted, and the
search does not reach it as a defined gate. -/
theorem levelsComputed_iff (F : CNFFormula) (gates : GateFormula)
    (hroots : ∀ l ∈ gates.getRoots F, 0 < l.var)
    (hinp : ∀ v, ∀ l ∈ (gates.gates v).inp, 0 < l.var ∧ l.var ≤ F.nVars) :
  LevelsComputed F gates
    ↔ F.nVars = 0 ∨ (gates.gates F.nVars).type = .MONO
      ∧ ¬ (Inner gates F.nVars ∧ ∃ d, Reaches F gates d F.nVars)
  := by
  have hsearch : Searching F gates 0 (List.replicate F.nVars 0) (gates.getRoots F) := by
    rw [Searching, levelAt_replicate]
    exact Graph.Levelled.init
  constructor
  · rintro ⟨levels, types, hrun, -⟩
    rw [analyzeLevels] at hrun
    cases hloop : levelLoop gates (F.nVars + 1) 0 (List.replicate F.nVars 0)
        (gates.getRoots F) with
    | error f =>
        rw [hloop] at hrun
        cases hrun
    | ok levels' =>
        obtain ⟨hlen, k, hlevelled⟩ := levelLoop_distances hsearch hloop
        rw [List.length_replicate] at hlen
        rw [or_iff_not_imp_left]
        intro hpos
        constructor
        · rw [hloop] at hrun
          have htypes : ∃ s', (List.range' 1 F.nVars).foldlM (collect gates levels')
              ⟨init, fun _ => []⟩ = .ok s' := by
            cases hcollect : (List.range' 1 F.nVars).foldlM (collect gates levels')
                ⟨init, fun _ => []⟩ with
            | error f =>
                simp only [bind, Except.bind, hcollect] at hrun
                cases hrun
            | ok s' => exact ⟨s', rfl⟩
          have hlast := (foldlM_collect_ok_iff levels' _ _).mp htypes F.nVars
            (List.mem_range'_1.mpr ⟨Nat.pos_of_ne_zero hpos, by omega⟩)
          rw [hlen] at hlast
          exact hlast.resolve_right (lt_irrefl _)
        · rintro ⟨hinner, d, hreach⟩
          apply hlevelled.complete hreach hinner
          rw [levelAt, List.getD_eq_getElem?_getD, List.getElem?_eq_none hlen.le]
          rfl
  · intro hlast
    have hne : ∀ d v, Reaches F gates d v → Inner gates v → v < F.nVars := by
      intro d v hreach hinner
      obtain ⟨hpos, hle⟩ := reaches_range hroots hinp hreach
      apply lt_of_le_of_ne hle
      rintro rfl
      obtain hzero | ⟨-, hnot⟩ := hlast
      · omega
      · exact hnot ⟨hinner, d, hreach⟩
    obtain ⟨levels, hloop⟩ := levelLoop_total (n := F.nVars + 1) hsearch
      (by rwa [List.length_replicate]) (by rw [List.count_replicate_self]; omega)
    obtain ⟨hlen, k, hlevelled⟩ := levelLoop_distances hsearch hloop
    rw [List.length_replicate] at hlen
    obtain ⟨types, htypes⟩ := (foldlM_collect_ok_iff levels (List.range' 1 F.nVars)
      ⟨init, fun _ => []⟩).mpr (by
        intro i hi
        obtain ⟨hpos, hle⟩ := List.mem_range'_1.mp hi
        rw [hlen]
        by_cases hin : i = F.nVars
        · left
          rw [hin]
          obtain hzero | ⟨hmono, -⟩ := hlast
          · omega
          · exact hmono
        · right
          omega)
    refine ⟨levels, types, ?_, hlevelled.distances⟩
    rw [analyzeLevels, hloop]
    simp only [bind, Except.bind, htypes]
    rfl

/-- A formula with the unit clause `1`, a gate with the output 1 and the input 2, and a last
gate of the type `MONO`. -/
theorem levelsComputed_iff_mono :
  LevelsComputed (CNFFormula.readDimacs [[1], [2, 1]])
    { GateFormula.addRoot (CNFFormula.readDimacs [[1], [2, 1]]) GateFormula.init 0 with
      gates := fun v => if v = 1 then { type := .OR, out := ⟨2⟩, inp := [⟨4⟩] }
        else if v = 2 then { type := .MONO } else {} }
  := by
  apply (levelsComputed_iff _ _ _ _).mpr
  · right
    refine ⟨rfl, ?_⟩
    rintro ⟨hinner, -⟩
    cases hinner
  · decide
  · intro v
    by_cases h₁ : v = 1
    · subst h₁
      decide
    · by_cases h₂ : v = 2
      · subst h₂
        decide
      · simp [h₁, h₂]

/-- The analysis of the formula with the unit clause `1`: the loop over the variables reads the
level of the variable 1 behind the end of the vector. -/
theorem not_levelsComputed :
  ∃ r, Analyzer.analyze (Env.small false) (CNFFormula.readDimacs [[1]]) = .ok r
    ∧ ¬ LevelsComputed (CNFFormula.readDimacs [[1]]) r.gateFormula
  := by
  obtain ⟨r, hr, hfault⟩ := exists_ok_of_any
    (P := fun r : Analyzer =>
      (analyzeLevels (CNFFormula.readDimacs [[1]]) r.gateFormula).toOption.isNone)
    (by decide +kernel : (Analyzer.analyze (Env.small false)
      (CNFFormula.readDimacs [[1]])).toOption.any (fun r =>
        (analyzeLevels (CNFFormula.readDimacs [[1]]) r.gateFormula).toOption.isNone) = true)
  refine ⟨r, hr, ?_⟩
  rintro ⟨levels, types, hok, -⟩
  rw [hok] at hfault
  cases hfault

end GateStats

end CnfTools
