import IgnoreGates.Cadical.ConflictLevel

/-!
# Learning keeps the invariant of the watches

A new clause is watched by its first two literals.  The clause that is learned is false, and
sorting puts its only literal of the conflict level and then one of the jump level to the
front, so that it drives the first one.
-/

namespace Cadical

open Logic

namespace Cdcl

variable {s : Cdcl} {chrono n : Nat} {o : Options} {red : Bool} {l : List Lit}

/-! ### A new clause -/

theorem lits_newClause (s : Cdcl) (red : Bool) (l : List Lit) (c : Nat) :
  (s.newClause red l).lits c = if c = s.numClauses then l else s.lits c
  := by
  rw [lits, newClause]
  by_cases hc : c = s.numClauses
  · subst hc
    rw [if_pos rfl]
    simp only [Function.update_self]
  · rw [if_neg hc]
    simp only [Function.update_of_ne hc]
    rfl

/-- Only the watches of the two literals change. -/
theorem watchClause_eq {c : Nat} {l₀ l₁ : Lit} {rest : List Lit} (h : s.lits c = l₀ :: l₁ :: rest)
    (hne : l₀ ≠ l₁) :
  s.watchClause c = { s with
    wtab := Function.update
      (Function.update s.wtab l₀ (s.wtab l₀ ++ [⟨c, l₁, (s.lits c).length⟩])) l₁
      (s.wtab l₁ ++ [⟨c, l₀, (s.lits c).length⟩]) }
  := by
  have hcall : s.watchClause c = (s.watchLiteral l₀ l₁ c).watchLiteral l₁ l₀ c := by
    rw [watchClause, h]
  have hwtab : (s.watchLiteral l₀ l₁ c).wtab l₁ = s.wtab l₁ := Function.update_of_ne hne.symm _ _
  rw [hcall]
  change (s.watchLiteral l₀ l₁ c).setWatches l₁
    ((s.watchLiteral l₀ l₁ c).wtab l₁ ++ [⟨c, l₀, (s.lits c).length⟩]) = _
  rw [hwtab]
  rfl

/-- What a new clause has to satisfy. -/
structure ClauseOk (s : Cdcl) (l : List Lit) : Prop where
  length : 2 ≤ l.length
  nodup : l.Nodup
  vidx_le : ∀ k ∈ l, k.vidx ≤ s.maxVar

/-- The clauses are well formed with a new one of the right shape. -/
theorem WfClauses.newClause (h : s.WfClauses) (hl : s.ClauseOk l) (red : Bool) :
  (s.newClause red l).WfClauses
  := by
  have hold {c : Nat} (hc : c < s.numClauses + 1) (hne : c ≠ s.numClauses) :
      c < s.numClauses := Nat.lt_of_le_of_ne (Nat.le_of_lt_succ hc) hne
  refine ⟨?_, ?_, ?_, ?_⟩
  · intro c hc
    rw [lits_newClause]
    split
    · exact hl.length
    · next hne => exact h.length c (hold hc hne)
  · intro c hc
    rw [lits_newClause]
    split
    · exact hl.nodup
    · next hne => exact h.nodup c (hold hc hne)
  · intro c hc
    rw [Cdcl.newClause]
    by_cases hne : c = s.numClauses
    · subst hne
      simp only [Function.update_self]
      exact le_rfl
    · simp only [Function.update_of_ne hne]
      exact h.pos c (hold hc hne)
  · intro c hc k hk
    rw [lits_newClause] at hk
    split at hk
    · exact hl.vidx_le k hk
    · next hne => exact h.vidx_le c (hold hc hne) k hk

/-- A new clause leaves the trail well formed. -/
theorem WfTrail.newClause (h : s.WfTrail chrono) (red : Bool) (l : List Lit) :
  (s.newClause red l).WfTrail chrono
  where
    search := by
      have hlits : ∀ x ∈ s.trail, ∀ c, (s.var x).reason = some c →
          (s.newClause red l).lits c = s.lits c := by
        intro x hx c hc
        rw [lits_newClause, if_neg (Nat.ne_of_lt (h.reason x hx c hc))]
      apply h.search.alike
      refine ⟨rfl, rfl, fun _ => rfl, ?_, ?_⟩
      · intro x hx r hr
        obtain ⟨c, hc, rfl⟩ := Option.map_eq_some_iff.mp hr
        rw [hlits x hx c hc]
        exact ⟨s.lits c, Option.map_eq_some_iff.mpr ⟨c, hc, rfl⟩, fun _ => Iff.rfl⟩
      · intro x hx hr
        exact Option.map_eq_none_iff.mpr (Option.map_eq_none_iff.mp hr)
    vidx_le := h.vidx_le
    reason := fun x hx c hc => (h.reason x hx c hc).trans (Nat.lt_succ_self _)
    control := h.control
    start_mono := h.start_mono
    start_le := h.start_le
    propagated_le := h.propagated_le
    level_le := h.level_le
    le_level := h.le_level

/-- The clauses that were there stay settled when a clause is added. -/
theorem SettledAt.newClause {c n : Nat} {ok : Lit → Prop} (h : s.SettledAt c n ok)
    (hc : c < s.numClauses) (red : Bool) (l : List Lit) :
  (s.newClause red l).SettledAt c n ok
  := by
  have hne := Nat.ne_of_lt hc
  have hlits : (s.newClause red l).lits c = s.lits c := by rw [lits_newClause, if_neg hne]
  have hclause : (s.newClause red l).clauses c = s.clauses c := Function.update_of_ne hne _ _
  intro hgarbage k hk hneg
  rw [hclause] at hgarbage
  rw [Cdcl.watched, hlits] at hk
  obtain ⟨x, hx, hspec⟩ := h hgarbage k hk hneg
  exact ⟨x, hlits ▸ hx, hspec⟩

/-- What a new clause leaves as it is. -/
structure Adds (s s' : Cdcl) (red : Bool) (l : List Lit) : Prop where
  maxVar : s'.maxVar = s.maxVar
  numClauses : s'.numClauses = s.numClauses + 1
  clauses : s'.clauses = Function.update s.clauses s.numClauses ⟨l, 2, red, false⟩
  trail : s'.trail = s.trail
  vtab : s'.vtab = s.vtab
  level : s'.level = s.level
  control : s'.control = s.control
  propagated : s'.propagated = s.propagated
  conflict : s'.conflict = s.conflict
  unsat : s'.unsat = s.unsat

theorem Adds.lits {s' : Cdcl} (h : s.Adds s' red l) (c : Nat) :
  s'.lits c = if c = s.numClauses then l else s.lits c
  := by
  rw [← lits_newClause s red l, Cdcl.lits, h.clauses]
  rfl

theorem Adds.var {s' : Cdcl} (h : s.Adds s' red l) (x : Lit) :
  s'.var x = s.var x
  := congrFun h.vtab x.vidx

/-- The state with a new clause, whose watches are right. -/
structure Added (s s' : Cdcl) (chrono : Nat) (red : Bool) (l : List Lit) : Prop where
  adds : s.Adds s' red l
  clauses : s'.WfClauses
  trail : s'.WfTrail chrono
  watches : s'.WfWatches s'.wtab
  settledAt : ∀ c < s.numClauses, ∀ n ok, s.SettledAt c n ok → s'.SettledAt c n ok

/-- Adding and watching a clause. -/
theorem added_addClause (hc : s.WfClauses) (ht : s.WfTrail chrono) (hw : s.WfWatches s.wtab)
    (hl : s.ClauseOk l) (red : Bool) :
  s.Added ((s.newClause red l).watchClause s.numClauses) chrono red l
  := by
  obtain ⟨l₀, l₁, rest, hrest⟩ : ∃ l₀ l₁ rest, l = l₀ :: l₁ :: rest := by
    obtain _ | ⟨l₀, _ | ⟨l₁, rest⟩⟩ := l
    · exact absurd hl.length (by decide)
    · exact absurd hl.length (by simp)
    · exact ⟨l₀, l₁, rest, rfl⟩
  have hne : l₀ ≠ l₁ := by
    rintro rfl
    have hnodup := hl.nodup
    rw [hrest] at hnodup
    exact (List.nodup_cons.mp hnodup).1 List.mem_cons_self
  have hself : (s.newClause red l).lits s.numClauses = l₀ :: l₁ :: rest := by
    rw [lits_newClause, if_pos rfl, hrest]
  have hclauses := hc.newClause hl red
  have htrail := ht.newClause red l
  have hold {c : Nat} (hc : c < s.numClauses) : (s.newClause red l).lits c = s.lits c := by
    rw [lits_newClause, if_neg (Nat.ne_of_lt hc)]
  have hwatches : (s.newClause red l).WfWatches _ :=
    (WatchTable.congr hw (fun c hc => hold hc) (fun _ => id) (fun _ => id)).watchClause hself hne
      (Nat.lt_irrefl _) (fun c hc => Nat.lt_succ_of_lt hc) (Nat.lt_succ_self _) (by
        rintro c ⟨hc, hgarbage⟩
        obtain hlt | heq := Nat.lt_or_eq_of_le (Nat.le_of_lt_succ hc)
        · right
          rw [show (s.newClause red l).clauses c = s.clauses c from
            Function.update_of_ne (Nat.ne_of_lt hlt) _ _] at hgarbage
          exact ⟨hlt, hgarbage⟩
        · exact Or.inl heq)
  rw [watchClause_eq hself hne]
  exact ⟨⟨rfl, rfl, rfl, rfl, rfl, rfl, rfl, rfl, rfl, rfl⟩, hclauses.congr rfl rfl rfl,
    htrail.congr _ s.conflict, hwatches.congr rfl rfl,
    fun c hc n ok hsettled => hsettled.newClause hc red l⟩

/-! ### Clauses that become garbage -/

/-- The clause is redundant, or satisfied on root level. -/
def Useless (s : Cdcl) (c : Nat) : Prop :=
  (s.clauses c).redundant = true ∨ ∃ x ∈ s.lits c, x ∈ s.trail ∧ (s.var x).level = 0

/-- Only useless clauses have become garbage. -/
structure Marks (s s' : Cdcl) : Prop where
  eq : s' = { s with clauses := s'.clauses }
  clauses : ∀ c, s'.clauses c = s.clauses c
    ∨ s.Useless c ∧ s'.clauses c = { s.clauses c with garbage := true }

theorem Marks.refl (s : Cdcl) :
  s.Marks s
  := ⟨rfl, fun _ => Or.inl rfl⟩

theorem Marks.trans {s' s'' : Cdcl} (h : s.Marks s') (h' : s'.Marks s'') :
  s.Marks s''
  := by
  refine ⟨?_, ?_⟩
  · rw [h'.eq, h.eq]
  · intro c
    obtain heq | ⟨huseless, heq⟩ := h.clauses c
    · have h'' := h'.clauses c
      rw [heq] at h''
      refine h''.imp_right (And.imp_left ?_)
      rw [Useless, Useless, heq, Cdcl.lits, Cdcl.lits, heq, h.eq]
      exact id
    · right
      refine ⟨huseless, ?_⟩
      obtain heq' | ⟨-, heq'⟩ := h'.clauses c
      · rw [heq', heq]
      · rw [heq', heq]

/-- A useless clause may become garbage. -/
theorem marks_markGarbage {c : Nat} (h : s.Useless c) :
  s.Marks (s.markGarbage c)
  := by
  refine ⟨rfl, ?_⟩
  intro c'
  by_cases hc : c' = c
  · subst hc
    exact Or.inr ⟨h, Function.update_self _ _ _⟩
  · exact Or.inl (Function.update_of_ne hc _ _)

/-- Eager subsumption removes useless clauses only. -/
theorem marks_eagerly_subsume (s : Cdcl) (c lim : Nat) :
  s.Marks (s.eagerlySubsumeRecentlyLearnedClauses c lim)
  := by
  rw [eagerlySubsumeRecentlyLearnedClauses]
  generalize (List.range s.numClauses).reverse.take (lim + 1) = ds
  induction ds generalizing s with
  | nil => exact Marks.refl s
  | cons d ds ih =>
      rw [List.foldl_cons]
      split
      · next hd => exact (marks_markGarbage (Or.inl hd.2.2.1)).trans (ih (s.markGarbage d))
      · exact ih s

theorem Marks.lits {s' : Cdcl} (h : s.Marks s') (c : Nat) :
  s'.lits c = s.lits c
  := by
  rw [Cdcl.lits, Cdcl.lits]
  obtain heq | ⟨-, heq⟩ := h.clauses c
  · rw [heq]
  · rw [heq]

/-- Clauses that are not garbage later were none before. -/
theorem Marks.garbage {s' : Cdcl} (h : s.Marks s') {c : Nat}
    (hc : (s'.clauses c).garbage = false) :
  (s.clauses c).garbage = false
  := by
  obtain heq | ⟨-, heq⟩ := h.clauses c
  · rwa [heq] at hc
  · rw [heq] at hc
    cases hc

/-- What is settled stays so when useless clauses become garbage. -/
theorem Marks.settledAt {s' : Cdcl} (h : s.Marks s') {c n : Nat} {ok : Lit → Prop}
    (hsettled : s.SettledAt c n ok) (htrail : s'.trail = s.trail) :
  s'.SettledAt c n ok
  := by
  intro hgarbage k hk hneg
  rw [Cdcl.watched, h.lits] at hk
  rw [htrail] at hneg
  obtain ⟨x, hx, hmem, hok⟩ := hsettled (h.garbage hgarbage) k hk hneg
  exact ⟨x, h.lits c ▸ hx, htrail ▸ hmem, hok⟩

/-- The invariant is kept when useless clauses become garbage. -/
theorem Inv.marks {s' : Cdcl} (h : s.Inv chrono) (hm : s.Marks s') :
  s'.Inv chrono
  := by
  have hlits := hm.lits
  have hgarbage {c : Nat} := hm.garbage (c := c)
  have hsettled {c n : Nat} {ok : Lit → Prop} (hc : s.SettledAt c n ok) := hm.settledAt hc
  have hpos : ∀ c, (s'.clauses c).pos = (s.clauses c).pos := by
    intro c
    obtain heq | ⟨-, heq⟩ := hm.clauses c <;> rw [heq]
  rw [hm.eq] at hlits hgarbage hsettled hpos ⊢
  refine ⟨⟨?_, ?_, ?_, ?_⟩, ⟨?_, h.trail.vidx_le, h.trail.reason, h.trail.control,
    h.trail.start_mono, h.trail.start_le, h.trail.propagated_le, h.trail.level_le,
    h.trail.le_level⟩, ?_, ?_, ?_, ?_⟩
  · intro c hc
    rw [hlits]
    exact h.clauses.length c hc
  · intro c hc
    rw [hlits]
    exact h.clauses.nodup c hc
  · intro c hc
    rw [hpos]
    exact h.clauses.pos c hc
  · intro c hc k hk
    rw [hlits] at hk
    exact h.clauses.vidx_le c hc k hk
  · have heq : ({ s with clauses := s'.clauses } : Cdcl).toSearch = s.toSearch := by
      change (⟨s.trail, fun idx => ⟨(s.vtab idx).level, (s.vtab idx).reason.map _⟩, s.level⟩
        : Search) = ⟨s.trail, fun idx => ⟨(s.vtab idx).level, (s.vtab idx).reason.map s.lits⟩, s.level⟩
      rw [show ({ s with clauses := s'.clauses } : Cdcl).lits = s.lits from funext hlits]
    rw [heq]
    exact h.trail.search
  · exact WatchTable.congr h.watches (fun c _ => hlits c) (fun _ => id)
      (fun c hc => ⟨hc.1, hgarbage hc.2⟩)
  · intro l hl c hc
    exact hsettled (h.levels l hl c hc) rfl
  · intro hconflict c hc
    exact hsettled (h.settled hconflict c hc) rfl
  · intro c hc
    obtain ⟨hlt, hfalse, hlevel⟩ := h.conflict c hc
    refine ⟨hlt, ?_, ?_⟩
    · intro k hk
      rw [hlits] at hk
      exact hfalse k hk
    · intro hchrono
      rw [hlits]
      exact hlevel hchrono

/-! ### The backtrack level -/

/-- The search for a level to reuse goes up by at most one level in each round. -/
theorem reuseLoop_le (s : Cdcl) (bestPos n res : Nat) :
  res ≤ s.reuseLoop bestPos n res ∧ s.reuseLoop bestPos n res ≤ res + n
  := by
  induction n generalizing res with
  | zero => exact ⟨le_rfl, le_rfl⟩
  | succ n ih =>
      rw [reuseLoop]
      split
      · obtain ⟨hle, hge⟩ := ih (res + 1)
        omega
      · omega

/-- The search goes back to the jump level or to a level between. -/
theorem determineActualBacktrackLevel_spec (o : Options) (heuristics : Heuristics) {jump : Nat}
    (h : jump < s.level) :
  jump ≤ s.determineActualBacktrackLevel o heuristics jump
    ∧ s.determineActualBacktrackLevel o heuristics jump < s.level
    ∧ (o.chrono = 0 → s.determineActualBacktrackLevel o heuristics jump = jump)
  := by
  have hreuse := s.reuseLoop_le (bestLoop heuristics.better (s.trail.drop (s.start (jump + 1)))
    (s.start (jump + 1)) none 0) (s.level - 1 - jump) jump
  rw [determineActualBacktrackLevel]
  split
  · next hzero => exact ⟨le_rfl, h, fun _ => rfl⟩
  · next hne =>
      have hchrono {res : Nat} : o.chrono = 0 → res = jump := fun hzero => absurd hzero hne
      split
      · exact ⟨by omega, by omega, hchrono⟩
      · split
        · exact ⟨by omega, by omega, hchrono⟩
        · split
          · exact ⟨by omega, by omega, hchrono⟩
          · split
            · exact ⟨by omega, by omega, hchrono⟩
            · split
              · exact ⟨by omega, by omega, hchrono⟩
              · exact ⟨by omega, by omega, hchrono⟩

/-! ### The driving clause -/

open Search in
/-- Sorting puts `-uip` and a literal of the jump level to the front. -/
theorem sortClause_learned {e : External} {uip : Lit} {a : Analysis}
    (h : s.toSearch.Learned e uip a) (hfalse : ∀ k ∈ a.clause, -k ∈ s.trail)
    (ht : s.WfTrail chrono) (hlength : 1 < a.clause.length) :
  ∃ b rest, s.toSearch.sortClause a.clause = -uip :: b :: rest ∧ (s.var b).level < s.level
    ∧ ∀ k ∈ rest, (s.var k).level ≤ (s.var b).level
  := by
  have hperm : (s.toSearch.sortClause a.clause).Perm a.clause := s.toSearch.perm_sortClause a.clause
  have hpair := s.toSearch.pairwise_sortClause a.clause
  generalize s.toSearch.sortClause a.clause = l at hperm hpair
  obtain _ | ⟨x, _ | ⟨b, rest⟩⟩ := l
  · rw [← hperm.length_eq] at hlength
    exact absurd hlength (by decide)
  · rw [← hperm.length_eq] at hlength
    exact absurd hlength (by simp)
  · have hlevel : ∀ k ∈ x :: b :: rest, (s.var k).level ≤ s.level := by
      intro k hk
      rw [← var_neg]
      exact ht.search.level_le _ (hfalse k (hperm.subset hk))
    rw [List.pairwise_cons, List.pairwise_cons] at hpair
    have hx : x = -uip := by
      apply h.only_uip x (hperm.subset List.mem_cons_self)
      apply le_antisymm (hlevel x List.mem_cons_self)
      have huip : (s.var (-uip)).level = s.level := h.uip_level
      have hmem := hperm.symm.subset h.uip_mem
      obtain heq | hmem := List.mem_cons.mp hmem
      · rw [← heq]
        exact huip.ge
      · exact huip.ge.trans (hpair.1 _ hmem)
    subst hx
    refine ⟨b, rest, rfl, ?_, hpair.2.1⟩
    apply lt_of_le_of_ne (hlevel b (List.mem_cons_of_mem _ List.mem_cons_self))
    intro heq
    have hb := h.only_uip b (hperm.subset (List.mem_cons_of_mem _ List.mem_cons_self)) heq
    have hnodup := hperm.nodup_iff.mpr h.nodup.of_map
    rw [hb] at hnodup
    exact (List.nodup_cons.mp hnodup).1 List.mem_cons_self

/-- An empty clause or a unit clause is not added. -/
theorem newDrivingClause_of_le {clause : List Lit} (h : clause.length ≤ 1) :
  s.newDrivingClause clause = (s, none, 0)
  := by
  rw [newDrivingClause, Search.newDrivingClause, if_pos h]

/-- A clause of two literals at least is sorted and added. -/
theorem newDrivingClause_of_lt {clause : List Lit} (h : 1 < clause.length) :
  s.newDrivingClause clause
    = ((s.newClause true (s.toSearch.sortClause clause)).watchClause s.numClauses,
      some s.numClauses,
      ((s.toSearch.sortClause clause)[1]?.map (fun lit => (s.var lit).level)).getD 0)
  := by
  rw [newDrivingClause, Search.newDrivingClause, if_neg (Nat.not_le.mpr h)]
  rfl

open Search in
/-- The clause that is learned drives `-uip`. -/
theorem Inv.driving (h : s.Inv chrono) {e : External} {uip : Lit} {a : Analysis}
    (hl : s.toSearch.Learned e uip a) (hfalse : ∀ k ∈ a.clause, -k ∈ s.trail)
    (hlength : 1 < a.clause.length) :
  ∃ s' jump, s.newDrivingClause a.clause = (s', some s.numClauses, jump) ∧ jump < s.level
    ∧ s.Added s' chrono true (s.toSearch.sortClause a.clause)
    ∧ s'.Falsified chrono s.numClauses ∧ s'.Driving s.numClauses (-uip) jump
  := by
  have hperm : (s.toSearch.sortClause a.clause).Perm a.clause := s.toSearch.perm_sortClause a.clause
  have hmem : ∀ k ∈ s.toSearch.sortClause a.clause, -k ∈ s.trail := fun k hk =>
    hfalse k (hperm.subset hk)
  have hok : s.ClauseOk (s.toSearch.sortClause a.clause) := by
    refine ⟨?_, hperm.nodup_iff.mpr hl.nodup.of_map, ?_⟩
    · rw [hperm.length_eq]
      exact hlength
    · intro k hk
      rw [← Lit.vidx_neg]
      exact h.trail.vidx_le _ (hmem k hk)
  obtain ⟨b, rest, hsort, hlt, hrest⟩ := sortClause_learned hl hfalse h.trail hlength
  have hadded := added_addClause h.clauses h.trail h.watches hok true
  refine ⟨_, (s.var b).level, ?_, hlt, hadded, ?_⟩
  · have hsecond : (s.toSearch.sortClause a.clause)[1]? = some b := by rw [hsort]; rfl
    rw [newDrivingClause_of_lt hlength, hsecond]
    rfl
  · generalize (s.newClause true (s.toSearch.sortClause a.clause)).watchClause s.numClauses = s'
      at hadded
    have hvar := hadded.adds.var
    have hlits : s'.lits s.numClauses = -uip :: b :: rest := by
      rw [hadded.adds.lits, if_pos rfl, hsort]
    have hsorted : ∀ k ∈ s'.lits s.numClauses, -k ∈ s.trail := by
      intro k hk
      rw [hlits, ← hsort] at hk
      exact hmem k hk
    have hb : b ≠ -uip := by
      intro heq
      have huip : (s.var (-uip)).level = s.level := hl.uip_level
      rw [heq, huip] at hlt
      exact lt_irrefl _ hlt
    refine ⟨⟨hadded.clauses, hadded.trail, hadded.watches, ?_, ?_, ?_⟩, ?_, ?_, ?_, ?_, ?_⟩
    · intro l hl c hc hne
      rw [hadded.adds.level] at hl
      rw [hadded.adds.numClauses] at hc
      have hstart : s'.start = s.start := by
        funext l
        rw [start, start, hadded.adds.control]
      rw [hstart]
      simp only [hvar]
      have hold := Nat.lt_of_le_of_ne (Nat.le_of_lt_succ hc) hne
      exact hadded.settledAt c hold _ _ (h.levels l hl c hold)
    · rw [hadded.adds.numClauses]
      exact Nat.lt_succ_self _
    · intro k hk
      rw [hadded.adds.trail]
      exact hsorted k hk
    · rw [hlits]
      exact List.mem_cons_self
    · have huip : (s.var (-uip)).level = s.level := hl.uip_level
      rw [hvar, huip]
      exact hlt
    · intro k hk hne
      rw [hlits, List.mem_cons, List.mem_cons] at hk
      rw [hvar]
      obtain rfl | hk := hk.resolve_left hne
      · exact le_rfl
      · exact hrest k hk
    · intro k hk
      rw [Cdcl.watched, hlits] at hk
      have hk : k = -uip ∨ k = b := by simpa using hk
      rw [hvar]
      exact hk.imp_right (fun heq => by rw [heq])
    · refine ⟨b, ?_, hb, by rw [hvar]⟩
      rw [hlits]
      exact List.mem_cons_of_mem _ List.mem_cons_self

/-! ### The analysis -/

/-- The auxiliary literals above root level have reasons. -/
def AuxReasons (s : Cdcl) (e : External) : Prop :=
  ∀ x ∈ s.trail, e.isAux x = true → 0 < (s.var x).level → (s.var x).reason ≠ none

/-- How the analysis of the conflict `c` ends behind the conflict level: with the empty clause, a
unit or a clause. -/
inductive Learns (s : Cdcl) (o : Options) (c : Nat) : Cdcl → Prop
  | empty (hlevel : s.level = 0) : Learns s o c s.learnEmptyClause
  | unit {x : Lit} {n : Nat} (hx : -x ∈ s.trail) (hlevel : (s.var x).level = s.level)
      (hn : n < s.level) (hchrono : o.chrono = 0 → n = 0)
      (hrup : Rup (s.toSearch.graph (s.lits c)).clauses [x]) :
      Learns s o c ((s.backtrack n).searchAssignDriving o.chrono x .unit)
  | clause {x : Lit} {l : List Lit} {jump n : Nat} {s' t : Cdcl}
      (hadded : s.Added s' o.chrono true l) (hfalse : s'.Falsified o.chrono s.numClauses)
      (hdriving : s'.Driving s.numClauses x jump) (hlevel : (s.var x).level = s.level)
      (hn : n < s.level) (hjump : jump ≤ n) (hchrono : o.chrono = 0 → n = jump)
      (hrup : Rup (s.toSearch.graph (s.lits c)).clauses l)
      (hmarks : ((s'.backtrack n).searchAssignDriving o.chrono x
        (.clause s.numClauses)).Marks t) :
      Learns s o c t

open Search in
/-- The loops of the analysis end with a clause that follows from the conflict and the reasons by
reverse unit propagation. -/
theorem Inv.analyzeLoops (h : s.Inv chrono) {c : Nat} (hc : s.conflict = some c) {e : External}
    (hpos : 0 < s.level) (hlevel : ∃ k ∈ s.lits c, (s.var k).level = s.level)
    (haux : s.AuxReasons e) :
  ∃ uip a, s.toSearch.analyzeLoops e (s.lits c) = some (uip, a) ∧ s.toSearch.Learned e uip a
    ∧ (∀ k ∈ a.clause, -k ∈ s.trail)
    ∧ Rup (s.toSearch.graph (s.lits c)).clauses a.clause
  := by
  have hfalse : ∀ k ∈ s.lits c, -k ∈ s.toSearch.trail := (h.conflict c hc).false_
  have hreason : ∀ x ∈ s.toSearch.trail, e.isAux x = true → 0 < (s.toSearch.var x).level →
      (s.toSearch.var x).reason ≠ none := by
    intro x hx hauxx hxpos hnone
    exact haux x hx hauxx hxpos (Option.map_eq_none_iff.mp hnone)
  obtain ⟨uip, a, a₁, done, erased, hloops, hfound, hend⟩ :=
    h.trail.search.analyzeLoops (e := e) hfalse hpos hlevel
  have htidy := Tidy.analyzeLoops h.trail.search hfalse hloops
  have hlearned := hend.learned h.trail.search hpos hfound htidy hreason
  refine ⟨uip, a, hloops, hlearned, hend.clause_false, ?_⟩
  apply rup_clause h.trail.search hfalse hfound hend
  intro x hx hauxx
  have hmem := h.trail.search.traced_mem hfalse hx
  exact hreason x hmem hauxx ((graph_not_fixed hmem).mp hx.not_fixed)

/-- Learning from a conflict on the current level ends and gives a state without a conflict. -/
theorem Inv.learn (h : s.Inv o.chrono) {c : Nat} (hc : s.conflict = some c) {e : External}
    (hlevel : s.level ≠ 0 → ∃ k ∈ s.lits c, (s.var k).level = s.level) (haux : s.AuxReasons e)
    (heuristics : Heuristics) :
  ∃ t, s.learn e o heuristics c = some t ∧ s.Learns o c t
  := by
  rw [Cdcl.learn]
  split
  · next hzero => exact ⟨_, rfl, .empty hzero⟩
  · next hne =>
      obtain ⟨uip, a, hloops, hlearned, hfalse, hrup⟩ :=
        h.analyzeLoops hc (Nat.pos_of_ne_zero hne) (hlevel hne) haux
      rw [hloops]
      simp only
      by_cases hlength : a.clause.length ≤ 1
      · have hunit : a.clause = [-uip] := by
          obtain ⟨y, hy⟩ := List.length_eq_one_iff.mp
            (le_antisymm hlength (List.length_pos_of_mem hlearned.uip_mem))
          have hmem := hlearned.uip_mem
          rw [hy, List.mem_singleton] at hmem
          rw [hy, hmem]
        rw [newDrivingClause_of_le hlength]
        obtain ⟨-, hn, hchrono⟩ := s.determineActualBacktrackLevel_spec o heuristics
          (Nat.pos_of_ne_zero hne)
        refine ⟨_, rfl, .unit (hfalse _ hlearned.uip_mem) hlearned.uip_level hn hchrono ?_⟩
        rwa [hunit] at hrup
      · obtain ⟨s', jump, hcall, hjump, hadded, hfalsified, hdriving⟩ :=
          h.driving hlearned hfalse (Nat.not_le.mp hlength)
        rw [hcall]
        have hs'level : s'.level = s.level := hadded.adds.level
        obtain ⟨hle, hn, hchrono⟩ := s'.determineActualBacktrackLevel_spec o heuristics
          (hs'level ▸ hjump)
        rw [hs'level] at hn
        have hsorted : Rup (s.toSearch.graph (s.lits c)).clauses (s.toSearch.sortClause a.clause) :=
          hrup.of_subset (s.toSearch.perm_sortClause a.clause).symm.subset
        refine ⟨_, rfl, .clause hadded hfalsified hdriving hlearned.uip_level hn hle hchrono hsorted
          ?_⟩
        split
        · exact marks_eagerly_subsume _ _ _
        · exact Marks.refl _

/-- The negation of the literal on the current level is unassigned on a lower one. -/
theorem Inv.assignable_unit (h : s.Inv o.chrono) {x : Lit} (hx : -x ∈ s.trail)
    (hlevel : (s.var x).level = s.level) (hn : n < s.level) (hchrono : o.chrono = 0 → n = 0) :
  ({ s.backtrack n with conflict := none }).Assignable o.chrono x .unit
  := by
  have hmem {y : Lit} := h.trail.mem_backtrack hn.le (x := y)
  refine ⟨?_, ?_, nofun, nofun, ?_⟩
  · rw [val_eq_zero_iff]
    change x ∉ (s.backtrack n).trail ∧ -x ∉ (s.backtrack n).trail
    rw [hmem, hmem, var_neg, hlevel]
    exact ⟨fun hpos => h.trail.neg_not_mem hpos.1 hx, fun hneg => absurd hneg.2 (Nat.not_le.mpr hn)⟩
  · change x.vidx ≤ (s.backtrack n).maxVar
    rw [(s.backtrack_frame n).1, ← Lit.vidx_neg]
    exact h.trail.vidx_le _ hx
  · intro hzero
    change 0 = (s.backtrack n).level
    rw [backtrack_level, hchrono hzero]

/-- The invariant holds behind the empty clause. -/
theorem Inv.learnEmptyClause {chrono : Nat} (h : s.Inv chrono) :
  s.learnEmptyClause.Inv chrono
  := ⟨h.clauses.congr rfl rfl rfl, ⟨h.trail.search, h.trail.vidx_le, h.trail.reason,
    h.trail.control, h.trail.start_mono, h.trail.start_le, h.trail.propagated_le,
    h.trail.level_le, h.trail.le_level⟩, h.watches.congr rfl rfl, h.levels, h.settled,
    fun c hc => ⟨(h.conflict c hc).lt, (h.conflict c hc).false_, (h.conflict c hc).level⟩⟩

/-- The invariant holds behind what has been learned. -/
theorem Learns.inv {c : Nat} {t : Cdcl} (hl : s.Learns o c t) (h : s.Inv o.chrono) :
  t.Inv o.chrono
  := by
  cases hl with
  | empty hlevel => exact h.learnEmptyClause
  | unit hx hlevel hn hchrono hrup =>
      exact (h.backtrack_lt hn).searchAssign rfl (h.assignable_unit hx hlevel hn hchrono)
  | clause hadded hfalse hdriving hlevel hn hjump hchrono hrup hmarks =>
      apply Inv.marks _ hmarks
      apply hdriving.inv hfalse hjump _ hchrono
      rw [hadded.adds.var, hlevel]
      exact hn

end Cdcl

end Cadical
