import IgnoreGates.Cadical.WatchInvariant

/-!
# What keeps the invariant of the watches

Assigning a literal, visiting a watch that stays, and watching another literal of a clause.
-/

namespace Cadical

open Logic

namespace Cdcl

variable {s : Cdcl} {chrono : Nat}

/-! ### States that differ elsewhere -/

/-- The clauses are well formed whatever happens to the other fields. -/
theorem WfClauses.congr {s' : Cdcl} (h : s.WfClauses) (hmax : s'.maxVar = s.maxVar)
    (hnum : s'.numClauses = s.numClauses) (hclauses : s'.clauses = s.clauses) :
  s'.WfClauses
  := by
  cases s'
  cases hmax
  cases hnum
  cases hclauses
  exact ⟨h.length, h.nodup, h.pos, h.vidx_le⟩

/-- The watches are well formed as long as the clauses are the same. -/
theorem WfWatches.congr {s' : Cdcl} {wtab : Lit → List Watch} (h : s.WfWatches wtab)
    (hnum : s'.numClauses = s.numClauses) (hclauses : s'.clauses = s.clauses) :
  s'.WfWatches wtab
  := by
  cases s'
  cases hnum
  cases hclauses
  exact h

/-- The watches and the conflict do not matter for the trail. -/
theorem WfTrail.congr (h : s.WfTrail chrono) (wtab : Lit → List Watch) (conflict : Option Nat) :
  { s with wtab := wtab, conflict := conflict }.WfTrail chrono
  := ⟨h.search, h.vidx_le, h.reason, h.control, h.start_mono, h.start_le, h.propagated_le,
    h.level_le, h.le_level⟩

/-! ### Positions on the trail -/

/-- Higher levels start later on the trail. -/
theorem WfTrail.start_le_start (h : s.WfTrail chrono) {l l' : Nat} (hle : l ≤ l')
    (hlevel : l' ≤ s.level) :
  s.start l ≤ s.start l'
  := by
  induction l', hle using Nat.le_induction with
  | base => exact le_rfl
  | succ n hn ih => exact (ih (by omega)).trans (h.start_mono n hlevel)

theorem WfTrail.start_le_length (h : s.WfTrail chrono) {l : Nat} (hl : l ≤ s.level) :
  s.start l ≤ s.trail.length
  := ((h.start_le_start hl le_rfl).trans h.start_le).trans h.propagated_le

theorem WfTrail.neg_not_mem (h : s.WfTrail chrono) {x : Lit} (hx : x ∈ s.trail) :
  -x ∉ s.trail
  := h.search.neg_not_mem hx

/-- The trail has at most as many literals as there are variables. -/
theorem WfTrail.length_le (h : s.WfTrail chrono) :
  s.trail.length ≤ s.maxVar
  := by
  have hsub : s.trail.map Lit.vidx ⊆ List.range' 1 s.maxVar := by
    intro v hv
    obtain ⟨x, hx, rfl⟩ := List.mem_map.mp hv
    have hle := h.vidx_le x hx
    have hpos : 0 < x.vidx := Int.natAbs_pos.mpr x.ne_zero
    rw [List.mem_range'_1]
    omega
  have hlength := (h.search.nodup.subperm hsub).length_le
  rwa [List.length_map, List.length_range'] at hlength

/-! ### Assigning a literal -/

/-- The reason with the literals of the clause. -/
def reasonOf (s : Cdcl) : Edge → Reason
  | .unit => .unit
  | .decision => .decision
  | .clause c => .clause (s.lits c)

/-- Without `opts.chrono` the assignment level, which is not computed, is the current level. -/
theorem toSearch_searchAssign {x : Lit} {e : Edge}
    (hlevel : chrono = 0 → s.toSearch.litLevel x (s.reasonOf e) = s.level) :
  (s.searchAssign chrono x e).toSearch = s.toSearch.searchAssign x (s.reasonOf e)
  := by
  have hlit : s.litLevel chrono x e = s.toSearch.litLevel x (s.reasonOf e) := by
    cases e with
    | unit => rfl
    | decision => rfl
    | clause c =>
        rw [litLevel]
        split
        · rfl
        · next hchrono => exact (hlevel (not_not.mp hchrono)).symm
  have hreason : (s.litReason chrono x e).map s.lits
      = s.toSearch.litReason x (s.reasonOf e) := by
    cases e with
    | unit => rfl
    | decision => rfl
    | clause c =>
        rw [litReason, hlit]
        change _ = if s.toSearch.litLevel x (.clause (s.lits c)) = 0 then none else some (s.lits c)
        rw [apply_ite (Option.map s.lits)]
        rfl
  have hvtab : (s.searchAssign chrono x e).toSearch.vtab
      = (s.toSearch.searchAssign x (s.reasonOf e)).vtab := by
    funext idx
    change (⟨(Function.update s.vtab x.vidx _ idx).level,
      (Function.update s.vtab x.vidx _ idx).reason.map s.lits⟩ : Var)
        = Function.update s.toSearch.vtab x.vidx _ idx
    by_cases hidx : idx = x.vidx
    · subst hidx
      rw [Function.update_self, Function.update_self, hlit, hreason]
    · rw [Function.update_of_ne hidx, Function.update_of_ne hidx]
      rfl
  exact congrArg (fun vtab => (⟨s.trail ++ [x], vtab, s.level⟩ : Search)) hvtab

/-- Assigning a literal leaves the data of the literals on the trail as it is. -/
theorem searchAssign_var_of_mem {x y : Lit} (hx : s.val x = 0) (e : Edge) (hy : y ∈ s.trail) :
  (s.searchAssign chrono x e).var y = s.var y
  := by
  apply Function.update_of_ne
  exact (s.toSearch.unassigned_iff x).mpr ((s.val_eq_zero_iff x).mp hx) y hy

/-- The literal that is assigned gets its level and its reason. -/
theorem searchAssign_var_self (x : Lit) (e : Edge) :
  (s.searchAssign chrono x e).var x = ⟨s.litLevel chrono x e, s.litReason chrono x e⟩
  := Function.update_self _ _ _

/-- What an assignment requires: the literal is unassigned, a reason has it as its only literal
that is not false, a decision is the first literal of its level, and without `opts.chrono` the
literal belongs to the current level. -/
structure Assignable (s : Cdcl) (chrono : Nat) (x : Lit) (e : Edge) : Prop where
  val : s.val x = 0
  vidx_le : x.vidx ≤ s.maxVar
  clause : ∀ c, e = .clause c →
    c < s.numClauses ∧ x ∈ s.lits c ∧ ∀ k ∈ s.lits c, k ≠ x → -k ∈ s.trail
  decision : e = .decision → ∀ y ∈ s.trail, (s.var y).level ≠ s.level
  level : chrono = 0 → s.toSearch.litLevel x (s.reasonOf e) = s.level

/-- Without chronological backtracking literals are assigned on the current level. -/
theorem Assignable.litLevel_eq {x : Lit} {e : Edge} (ha : s.Assignable chrono x e)
    (hchrono : chrono = 0) :
  s.litLevel chrono x e = s.level
  := by
  cases e with
  | unit => exact ha.level hchrono
  | decision => rfl
  | clause c =>
      rw [litLevel, if_neg (not_not.mpr hchrono)]

/-- Assigning an unassigned literal keeps the trail well formed. -/
theorem WfTrail.searchAssign (h : s.WfTrail chrono) {x : Lit} {e : Edge}
    (ha : s.Assignable chrono x e) :
  (s.searchAssign chrono x e).WfTrail chrono
  := by
  have hold {y : Lit} (hy : y ∈ s.trail) : (s.searchAssign chrono x e).var y = s.var y :=
    searchAssign_var_of_mem ha.val e hy
  have htrail : (s.searchAssign chrono x e).trail = s.trail ++ [x] := rfl
  have hstart : (s.searchAssign chrono x e).start = s.start := rfl
  refine ⟨?_, ?_, ?_, h.control, h.start_mono, h.start_le, ?_, ?_, ?_⟩
  · rw [toSearch_searchAssign ha.level]
    apply h.search.searchAssign
    · exact (s.toSearch.unassigned_iff x).mpr ((s.val_eq_zero_iff x).mp ha.val)
    · intro lits hlits
      cases e with
      | unit => cases hlits
      | decision => cases hlits
      | clause c =>
          cases hlits
          exact (ha.clause c rfl).2
    · intro hdecision
      cases e with
      | unit => cases hdecision
      | decision => exact ha.decision rfl
      | clause c => cases hdecision
  · intro y hy
    obtain hy | hy := List.mem_append.mp hy
    · exact h.vidx_le y hy
    · rw [List.mem_singleton.mp hy]
      exact ha.vidx_le
  · intro y hy c hc
    obtain hy | hy := List.mem_append.mp hy
    · rw [hold hy] at hc
      exact h.reason y hy c hc
    · obtain rfl := List.mem_singleton.mp hy
      rw [searchAssign_var_self] at hc
      cases e with
      | unit => cases hc
      | decision => cases hc
      | clause c' =>
          simp only [litReason] at hc
          split at hc
          · cases hc
          · cases hc
            exact (ha.clause c rfl).1
  · rw [htrail, List.length_append]
    exact h.propagated_le.trans (Nat.le_add_right _ _)
  · intro l hl y hy
    rw [htrail, hstart, List.take_append_of_le_length (h.start_le_length hl)] at hy
    rw [hold (List.mem_of_mem_take hy)]
    exact h.level_le l hl y hy
  · intro hchrono l hl y hy
    rw [htrail, hstart, List.drop_append_of_le_length (h.start_le_length hl)] at hy
    obtain hy | hy := List.mem_append.mp hy
    · rw [hold (List.mem_of_mem_drop hy)]
      exact h.le_level hchrono l hl y hy
    · obtain rfl := List.mem_singleton.mp hy
      rw [searchAssign_var_self, ha.litLevel_eq hchrono]
      exact hl

/-- A clause with a true literal still has one after an assignment. -/
theorem HasTrue.searchAssign {c : Nat} {ok ok' : Lit → Prop} (h : s.HasTrue c ok) (x : Lit)
    (e : Edge) (hok : ∀ y ∈ s.trail, ok y → ok' y) :
  (s.searchAssign chrono x e).HasTrue c ok'
  := by
  obtain ⟨y, hy, hmem, hyok⟩ := h
  exact ⟨y, hy, List.mem_append_left _ hmem, hok y hmem hyok⟩

/-- A clause that is settled on a level stays settled on it. -/
theorem SettledAt.searchAssign {c l : Nat}
    (h : s.SettledAt c (s.start (l + 1)) (fun x => (s.var x).level ≤ l)) (ht : s.WfTrail chrono)
    (hl : l < s.level) {x : Lit} (hx : s.val x = 0) (e : Edge) :
  (s.searchAssign chrono x e).SettledAt c (s.start (l + 1))
    (fun y => ((s.searchAssign chrono x e).var y).level ≤ l)
  := by
  intro hgarbage k hk hneg
  have htake : (s.searchAssign chrono x e).trail.take (s.start (l + 1))
      = s.trail.take (s.start (l + 1)) := List.take_append_of_le_length (ht.start_le_length hl)
  apply (h hgarbage k hk (htake ▸ hneg)).searchAssign x e
  intro y hy hle
  rw [searchAssign_var_of_mem hx e hy]
  exact hle

/-- The lower levels stay settled when a literal is assigned. -/
theorem LevelsSettled.searchAssign (h : s.LevelsSettled) (ht : s.WfTrail chrono) {x : Lit}
    (hx : s.val x = 0) (e : Edge) :
  (s.searchAssign chrono x e).LevelsSettled
  := fun l hl c hc => (h l hl c hc).searchAssign ht hl hx e

/-- A conflict stays one when a literal is assigned. -/
theorem WfConflict.searchAssign {c : Nat} (h : s.WfConflict chrono c) {x : Lit}
    (hx : s.val x = 0) (e : Edge) :
  (s.searchAssign chrono x e).WfConflict chrono c
  where
    lt := h.lt
    false_ := fun k hk => List.mem_append_left _ (h.false_ k hk)
    level := by
      intro hchrono
      obtain ⟨k, hk, hlevel⟩ := h.level hchrono
      refine ⟨k, hk, ?_⟩
      have hvar : (s.searchAssign chrono x e).var k = s.var k := by
        rw [← var_neg, searchAssign_var_of_mem hx e (h.false_ k hk), var_neg]
      rw [hvar]
      exact hlevel

/-- The other literals of a reason are false on root level when the literal is assigned there. -/
theorem Assignable.root (ha : s.Assignable chrono x (.clause c)) (ht : s.WfTrail chrono)
    (hzero : s.litLevel chrono x (.clause c) = 0) {k : Lit} (hk : k ∈ s.lits c) (hne : k ≠ x) :
  -k ∈ s.trail ∧ (s.var (-k)).level = 0
  := by
  have hkneg := (ha.clause c rfl).2.2 k hk hne
  refine ⟨hkneg, ?_⟩
  rw [litLevel] at hzero
  split at hzero
  · have hle := Search.le_assignmentLevel (s := s.toSearch) hk hne
    rw [hzero, ← Search.var_neg] at hle
    exact Nat.le_zero.mp hle
  · have hle : (s.var (-k)).level ≤ s.level := ht.search.level_le (-k) hkneg
    rw [hzero] at hle
    exact Nat.le_zero.mp hle

/-- A literal of root level follows from its reason and other literals of root level. -/
theorem Holds.searchAssign {P : Set (Clause Lit)} (h : s.Holds P) (hP : RupClosed P)
    (ht : s.WfTrail chrono) {e : Edge} (ha : s.Assignable chrono x e)
    (hroot : s.litLevel chrono x e = 0 → (∀ c, e ≠ .clause c) → [x] ∈ P) :
  (s.searchAssign chrono x e).Holds P
  where
    clauses := h.clauses
    root := by
      intro y hy hlevel
      obtain hy | hy := List.mem_append.mp hy
      · rw [searchAssign_var_of_mem ha.val e hy] at hlevel
        exact h.root y hy hlevel
      · obtain rfl := List.mem_singleton.mp hy
        have hzero : s.litLevel chrono y e = 0 := by
          rw [searchAssign_var_self] at hlevel
          exact hlevel
        cases e with
        | unit => exact hroot hzero nofun
        | decision => exact hroot hzero nofun
        | clause c =>
            apply hP.remove (h.clauses c (ha.clause c rfl).1)
            intro k hk
            by_cases hky : k = y
            · exact Or.inl (hky ▸ List.mem_singleton_self k)
            · obtain ⟨hmem, hkroot⟩ := ha.root ht hzero hk hky
              exact Or.inr (h.root (-k) hmem hkroot)
    unsat := h.unsat

/-! ### The literals of a clause in another order -/

theorem lits_setClause (s : Cdcl) (c : Nat) (d : ClauseData) (c' : Nat) :
  (s.setClause c d).lits c' = if c' = c then d.literals else s.lits c'
  := by
  rw [lits, setClause]
  by_cases hc : c' = c
  · subst hc
    rw [if_pos rfl]
    simp only [Function.update_self]
  · rw [if_neg hc]
    simp only [Function.update_of_ne hc]
    rfl

variable {c : Nat} {d : ClauseData}

/-- Reordering a clause changes no clause as a set. -/
theorem mem_lits_setClause (hperm : d.literals.Perm (s.lits c)) {c' : Nat} {k : Lit} :
  k ∈ (s.setClause c d).lits c' ↔ k ∈ s.lits c'
  := by
  rw [lits_setClause]
  split
  · next hc =>
      subst hc
      exact hperm.mem_iff
  · rfl

/-- Reordering a clause does not change whether a clause has a true literal. -/
theorem hasTrue_setClause (hperm : d.literals.Perm (s.lits c)) {c' : Nat} {ok : Lit → Prop} :
  (s.setClause c d).HasTrue c' ok ↔ s.HasTrue c' ok
  := by
  simp only [HasTrue, mem_lits_setClause hperm]
  rfl

/-- The clauses are well formed after a clause has been reordered. -/
theorem WfClauses.setClause (h : s.WfClauses) (hperm : d.literals.Perm (s.lits c))
    (hpos : 2 ≤ d.pos) :
  (s.setClause c d).WfClauses
  where
    length := by
      intro c' hc'
      rw [lits_setClause]
      split
      · next heq =>
          subst heq
          rw [hperm.length_eq]
          exact h.length c' hc'
      · exact h.length c' hc'
    nodup := by
      intro c' hc'
      rw [lits_setClause]
      split
      · next heq =>
          subst heq
          exact hperm.nodup_iff.mpr (h.nodup c' hc')
      · exact h.nodup c' hc'
    pos := by
      intro c' hc'
      rw [Cdcl.setClause]
      by_cases heq : c' = c
      · subst heq
        simpa only [Function.update_self] using hpos
      · simp only [Function.update_of_ne heq]
        exact h.pos c' hc'
    vidx_le := by
      intro c' hc' k hk
      exact h.vidx_le c' hc' k ((mem_lits_setClause hperm).mp hk)

/-- The trail is well formed after a clause has been reordered. -/
theorem WfTrail.setClause (h : s.WfTrail chrono) (hperm : d.literals.Perm (s.lits c)) :
  (s.setClause c d).WfTrail chrono
  where
    search := by
      apply h.search.alike
      refine ⟨rfl, rfl, fun _ => rfl, ?_, ?_⟩
      · intro x _ r' hr'
        obtain ⟨c', hc', rfl⟩ := Option.map_eq_some_iff.mp hr'
        refine ⟨s.lits c', ?_, fun k => mem_lits_setClause hperm⟩
        change (s.var x).reason.map s.lits = some (s.lits c')
        rw [show (s.var x).reason = some c' from hc']
        rfl
      · intro x _ hx
        rw [show ((s.setClause c d).toSearch.var x).reason
          = (s.var x).reason.map (s.setClause c d).lits from rfl, Option.map_eq_none_iff] at hx
        change (s.var x).reason.map s.lits = none
        rw [hx]
        rfl
    vidx_le := h.vidx_le
    reason := h.reason
    control := h.control
    start_mono := h.start_mono
    start_le := h.start_le
    propagated_le := h.propagated_le
    level_le := h.level_le
    le_level := h.le_level

/-- A conflict stays one when a clause is reordered. -/
theorem WfConflict.setClause {c' : Nat} (h : s.WfConflict chrono c')
    (hperm : d.literals.Perm (s.lits c)) :
  (s.setClause c d).WfConflict chrono c'
  where
    lt := h.lt
    false_ := fun k hk => h.false_ k ((mem_lits_setClause hperm).mp hk)
    level := by
      intro hchrono
      obtain ⟨k, hk, hlevel⟩ := h.level hchrono
      exact ⟨k, (mem_lits_setClause hperm).mpr hk, hlevel⟩

theorem garbage_setClause (hgarbage : d.garbage = false → (s.clauses c).garbage = false) {c' : Nat}
    (h : ((s.setClause c d).clauses c').garbage = false) :
  (s.clauses c').garbage = false
  := by
  rw [Cdcl.setClause] at h
  by_cases heq : c' = c
  · subst heq
    simp only [Function.update_self] at h
    exact hgarbage h
  · simpa only [Function.update_of_ne heq] using h

/-- The literal is watched as before, or it belongs to the changed clause. -/
theorem mem_watched_setClause {c' : Nat} {k : Lit} (h : k ∈ (s.setClause c d).watched c') :
  k ∈ s.watched c' ∨ c' = c ∧ k ∈ d.literals.take 2
  := by
  rw [watched, lits_setClause] at h
  split at h
  · next heq => exact Or.inr ⟨heq, h⟩
  · exact Or.inl h

/-- The clauses stay settled when the new watched literals of the reordered clause do. -/
theorem Settled.setClause {n : Nat} {ok : Lit → Prop} (h : s.Settled n ok)
    (hperm : d.literals.Perm (s.lits c))
    (hgarbage : d.garbage = false → (s.clauses c).garbage = false)
    (hwatched : ∀ k ∈ d.literals.take 2, k ∉ s.watched c → -k ∈ s.trail.take n → s.HasTrue c ok) :
  (s.setClause c d).Settled n ok
  := by
  intro c' hc' hg k hk hneg
  rw [hasTrue_setClause hperm]
  have hg' := garbage_setClause hgarbage hg
  obtain hold | ⟨rfl, hnew⟩ := mem_watched_setClause hk
  · exact h c' hc' hg' k hold hneg
  · by_cases hmem : k ∈ s.watched c'
    · exact h c' hc' hg' k hmem hneg
    · exact hwatched k hnew hmem hneg

/-! ### Changing the watches -/

variable {wtab : Lit → List Watch} {lit r : Lit}

theorem lits_setClause_eq_update (s : Cdcl) (c : Nat) (d : ClauseData) :
  (s.setClause c d).lits = Function.update s.lits c d.literals
  := by
  funext c'
  rw [lits_setClause, Function.update_apply]

/-- The watched literals of the clause are the same. -/
theorem WfWatches.setClause (h : s.WfWatches wtab) (hperm : d.literals.Perm (s.lits c))
    (hgarbage : d.garbage = false → (s.clauses c).garbage = false)
    (hwatched : ∀ k, k ∈ d.literals.take 2 ↔ k ∈ s.watched c) :
  (s.setClause c d).WfWatches wtab
  := by
  apply WatchTable.reorder h
  · intro c' _
    rw [lits_setClause]
    split
    · next heq => rwa [heq]
    · rfl
  · intro c' _ k
    rw [lits_setClause]
    split
    · next heq =>
        rw [heq]
        exact hwatched k
    · rfl
  · exact fun _ => id
  · exact fun c' hc' => ⟨hc'.1, garbage_setClause hgarbage hc'.2⟩

/-- The literal `r` of the clause is watched instead of `lit`. -/
theorem WfWatches.move (h : s.WfWatches wtab) (lit r : Lit) {blit : Lit} (ws : List Watch)
    (d : ClauseData) (hws : ∀ v, v ∈ ws ↔ v ∈ wtab lit ∧ v.clause ≠ c)
    (hnodup : (ws.map Watch.clause).Nodup) (hc : c < s.numClauses)
    (hperm : d.literals.Perm (s.lits c))
    (hgarbage : d.garbage = false → (s.clauses c).garbage = false)
    (hwatched : ∀ k, k ∈ d.literals.take 2 ↔ k ∈ s.watched c ∧ k ≠ lit ∨ k = r)
    (hr : r ∉ s.watched c) (hne : r ≠ lit) (hblit : blit ∈ s.lits c ∧ blit ≠ r) :
  (s.setClause c d).WfWatches (Function.update (Function.update wtab lit ws) r
    (wtab r ++ [⟨c, blit, d.literals.length⟩]))
  := by
  apply (WatchTable.move h lit r ws hws hnodup hc hperm hwatched hr hne hblit).congr
  · exact fun c' _ => congrFun (lits_setClause_eq_update s c d) c'
  · exact fun _ => id
  · exact fun c' hc' => ⟨hc'.1, garbage_setClause hgarbage hc'.2⟩

end Cdcl

end Cadical
