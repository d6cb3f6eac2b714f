import IgnoreGates.Cadical.Learn

/-!
# Going back and driving on

Backtracking keeps the invariant of the watches.  A false clause whose literals but one lie on
lower levels forces this literal when the search goes back to one of the levels between, and
the invariant holds again, although nothing has been propagated in the meantime.
-/

namespace Cadical

open Logic

namespace Cdcl

variable {s : Cdcl} {chrono n : Nat}

/-! ### Backtracking -/

/-- Backtracking to a lower level keeps the literals of levels up to it, also those behind the start
of the next level. -/
theorem backtrack_of_lt (hn : n < s.level) :
  s.backtrack n =
    { s with
      trail := s.trail.take (s.start (n + 1))
        ++ (s.trail.drop (s.start (n + 1))).filter (fun lit => (s.var lit).level ≤ n)
      level := n
      control := s.control.take (n + 1)
      propagated := min s.propagated (s.start (n + 1)) }
  := if_neg (Nat.ne_of_lt hn)

/-- Backtracking to the present level changes nothing. -/
theorem backtrack_self (s : Cdcl) :
  s.backtrack s.level = s
  := if_pos rfl

/-- The levels and the reasons are not touched. -/
@[simp]
theorem backtrack_var (s : Cdcl) (n : Nat) (x : Lit) :
  (s.backtrack n).var x = s.var x
  := by
  rw [backtrack]
  split <;> rfl

/-- The clauses are not touched. -/
@[simp]
theorem backtrack_lits (s : Cdcl) (n c : Nat) :
  (s.backtrack n).lits c = s.lits c
  := by
  rw [backtrack]
  split <;> rfl

@[simp]
theorem backtrack_level (s : Cdcl) (n : Nat) :
  (s.backtrack n).level = n
  := by
  rw [backtrack]
  split
  · next h => exact h.symm
  · rfl

/-- What backtracking does not change. -/
theorem backtrack_frame (s : Cdcl) (n : Nat) :
  (s.backtrack n).maxVar = s.maxVar ∧ (s.backtrack n).numClauses = s.numClauses
    ∧ (s.backtrack n).clauses = s.clauses ∧ (s.backtrack n).wtab = s.wtab
    ∧ (s.backtrack n).conflict = s.conflict ∧ (s.backtrack n).unsat = s.unsat
  := by
  rw [backtrack]
  split
  · exact ⟨rfl, rfl, rfl, rfl, rfl, rfl⟩
  · exact ⟨rfl, rfl, rfl, rfl, rfl, rfl⟩

/-- A level begins inside the trail. -/
theorem WfTrail.length_take (h : s.WfTrail chrono) {l : Nat} (hl : l ≤ s.level) :
  (s.trail.take (s.start l)).length = s.start l
  := by
  rw [List.length_take]
  exact min_eq_left (h.start_le_length hl)

/-- The literals up to the level stay. -/
theorem WfTrail.trail_backtrack (h : s.WfTrail chrono) (hn : n ≤ s.level) :
  (s.backtrack n).trail = s.trail.filter (fun lit => (s.var lit).level ≤ n)
  := by
  obtain rfl | hlt := Nat.eq_or_lt_of_le hn
  · rw [backtrack_self]
    symm
    rw [List.filter_eq_self]
    intro x hx
    exact decide_eq_true (h.search.level_le x hx)
  · rw [backtrack_of_lt hlt]
    have htake : (s.trail.take (s.start (n + 1))).filter (fun lit => (s.var lit).level ≤ n)
        = s.trail.take (s.start (n + 1)) := by
      rw [List.filter_eq_self]
      intro x hx
      exact decide_eq_true (h.level_le n hlt x hx)
    nth_rewrite 3 [← List.take_append_drop (s.start (n + 1)) s.trail]
    rw [List.filter_append, htake]

/-- The literals up to the new level stay on the trail. -/
theorem WfTrail.mem_backtrack (h : s.WfTrail chrono) (hn : n ≤ s.level) {x : Lit} :
  x ∈ (s.backtrack n).trail ↔ x ∈ s.trail ∧ (s.var x).level ≤ n
  := by
  rw [h.trail_backtrack hn, List.mem_filter, decide_eq_true_eq]

/-- On the trail, this is the backtracking of the search. -/
theorem WfTrail.toSearch_backtrack (h : s.WfTrail chrono) (hn : n ≤ s.level) :
  (s.backtrack n).toSearch = s.toSearch.backtrack n
  := by
  have htrail := h.trail_backtrack hn
  rw [Search.backtrack]
  obtain rfl | hlt := Nat.eq_or_lt_of_le hn
  · rw [backtrack_self] at htrail ⊢
    change (⟨s.trail, s.toSearch.vtab, s.level⟩ : Search) = _
    rw [htrail]
    rfl
  · rw [backtrack_of_lt hlt] at htrail ⊢
    change (⟨_, s.toSearch.vtab, n⟩ : Search) = _
    simp only at htrail
    rw [htrail]
    rfl

/-- The levels that stay begin where they began. -/
theorem start_backtrack {l : Nat} (hn : n ≤ s.level) (hl : l ≤ n) :
  (s.backtrack n).start l = s.start l
  := by
  obtain rfl | hlt := Nat.eq_or_lt_of_le hn
  · rw [backtrack_self]
  · rw [backtrack_of_lt hlt]
    change (s.control.take (n + 1)).getD l 0 = s.control.getD l 0
    rw [List.getD_eq_getElem?_getD, List.getD_eq_getElem?_getD,
      List.getElem?_take_of_lt (Nat.lt_succ_of_le hl)]

/-- The trail before the next level. -/
theorem WfTrail.take_backtrack (h : s.WfTrail chrono) (hn : n < s.level) {m : Nat}
    (hm : m ≤ s.start (n + 1)) :
  (s.backtrack n).trail.take m = s.trail.take m
  := by
  rw [backtrack_of_lt hn, List.take_append_of_le_length (by rw [h.length_take hn]; exact hm),
    List.take_take, min_eq_left hm]

/-- Backtracking keeps the invariant of the trail. -/
theorem WfTrail.backtrack (h : s.WfTrail chrono) (hn : n ≤ s.level) :
  (s.backtrack n).WfTrail chrono
  := by
  obtain rfl | hlt := Nat.eq_or_lt_of_le hn
  · rwa [backtrack_self]
  have hmem {x : Lit} (hx : x ∈ (s.backtrack n).trail) : x ∈ s.trail :=
    ((h.mem_backtrack hn).mp hx).1
  have hstart {l : Nat} (hl : l ≤ n) := start_backtrack hn hl
  obtain ⟨hmax, hnum, -⟩ := s.backtrack_frame n
  have hpropagated : (s.backtrack n).propagated = min s.propagated (s.start (n + 1)) := by
    rw [backtrack_of_lt hlt]
  have hstarts : s.start (n + 1) ≤ (s.backtrack n).trail.length := by
    rw [backtrack_of_lt hlt, List.length_append, h.length_take hlt]
    exact Nat.le_add_right _ _
  refine ⟨?_, ?_, ?_, ?_, ?_, ?_, ?_, ?_, ?_⟩
  · rw [h.toSearch_backtrack hn]
    exact h.search.backtrack n
  · intro x hx
    rw [hmax]
    exact h.vidx_le x (hmem hx)
  · intro x hx c hc
    rw [backtrack_var] at hc
    rw [hnum]
    exact h.reason x (hmem hx) c hc
  · rw [backtrack_level, backtrack_of_lt hlt, List.length_take, h.control]
    omega
  · intro l hl
    rw [backtrack_level] at hl
    rw [hstart hl.le, hstart hl]
    exact h.start_mono l (hl.trans hlt)
  · rw [backtrack_level, hstart le_rfl, hpropagated]
    exact le_min ((h.start_le_start hn le_rfl).trans h.start_le) (h.start_mono n hlt)
  · rw [hpropagated]
    exact (min_le_right _ _).trans hstarts
  · intro l hl x hx
    rw [backtrack_level] at hl
    rw [hstart hl, h.take_backtrack hlt (h.start_le_start (Nat.succ_le_succ hl.le) hlt)] at hx
    rw [backtrack_var]
    exact h.level_le l (hl.trans hlt) x hx
  · intro hchrono l hl x hx
    rw [backtrack_level] at hl
    have hle := h.start_le_start (Nat.le_succ_of_le hl) hlt
    rw [hstart hl, backtrack_of_lt hlt,
      List.drop_append_of_le_length (by rw [h.length_take hlt]; exact hle)] at hx
    rw [backtrack_var]
    apply h.le_level hchrono l (hl.trans hn)
    obtain hx | hx := List.mem_append.mp hx
    · rw [List.drop_take] at hx
      exact List.mem_of_mem_take hx
    · have hdrop := List.mem_of_mem_filter hx
      obtain ⟨d, hd⟩ := Nat.exists_eq_add_of_le hle
      rw [hd, ← List.drop_drop] at hdrop
      exact List.mem_of_mem_drop hdrop

/-- A clause that is settled on a level stays so when the search goes back. -/
theorem SettledAt.backtrack {c l m : Nat}
    (h : s.SettledAt c (s.start (l + 1)) (fun x => (s.var x).level ≤ l)) (ht : s.WfTrail chrono)
    (hl : l ≤ n) (hn : n < s.level) (hm : m ≤ s.start (l + 1)) :
  (s.backtrack n).SettledAt c m (fun x => (s.var x).level ≤ l)
  := by
  intro hgarbage k hk hneg
  obtain ⟨-, -, hclauses, -⟩ := s.backtrack_frame n
  rw [hclauses] at hgarbage
  rw [watched, backtrack_lits] at hk
  rw [ht.take_backtrack hn (hm.trans (ht.start_le_start (Nat.succ_le_succ hl) hn))] at hneg
  obtain ⟨x, hx, hmem, hle⟩ := h hgarbage k hk (List.take_subset_take_left _ hm hneg)
  refine ⟨x, ?_, ?_, hle⟩
  · rwa [backtrack_lits]
  · rw [ht.mem_backtrack hn.le]
    exact ⟨hmem, hle.trans hl⟩

/-- The condition on the true literal may be weakened. -/
theorem SettledAt.weaken {c m : Nat} {ok ok' : Lit → Prop} (h : s.SettledAt c m ok)
    (hok : ∀ x, ok x → ok' x) :
  s.SettledAt c m ok'
  := by
  intro hgarbage k hk hneg
  obtain ⟨x, hx, hmem, hxok⟩ := h hgarbage k hk hneg
  exact ⟨x, hx, hmem, hok x hxok⟩

/-- Going back to a lower level resolves a conflict. -/
theorem Inv.backtrack_lt (h : s.Inv chrono) (hn : n < s.level) :
  { s.backtrack n with conflict := none }.Inv chrono
  := by
  obtain ⟨hmax, hnum, hclauses, hwtab, -, -⟩ := s.backtrack_frame n
  refine ⟨h.clauses.congr hmax hnum hclauses, (h.trail.backtrack hn.le).congr _ none, ?_, ?_, ?_,
    nofun⟩
  · change WfWatches _ (s.backtrack n).wtab
    rw [hwtab]
    exact h.watches.congr hnum hclauses
  · intro l hl c hc
    change l < (s.backtrack n).level at hl
    change c < (s.backtrack n).numClauses at hc
    rw [backtrack_level] at hl
    rw [hnum] at hc
    change (s.backtrack n).SettledAt c ((s.backtrack n).start (l + 1))
      (fun x => ((s.backtrack n).var x).level ≤ l)
    rw [start_backtrack hn.le hl]
    simp only [backtrack_var]
    exact (h.levels l (hl.trans hn) c hc).backtrack h.trail hl.le hn le_rfl
  · intro _ c hc
    change c < (s.backtrack n).numClauses at hc
    rw [hnum] at hc
    have hpropagated : (s.backtrack n).propagated ≤ s.start (n + 1) := by
      rw [backtrack_of_lt hn]
      exact min_le_right _ _
    exact ((h.levels n hn c hc).backtrack h.trail le_rfl hn hpropagated).weaken
      (fun _ _ => trivial)

/-- Going back keeps the invariant. -/
theorem Inv.backtrack (h : s.Inv chrono) (hconflict : s.conflict = none) (hn : n ≤ s.level) :
  (s.backtrack n).Inv chrono
  := by
  obtain rfl | hlt := Nat.eq_or_lt_of_le hn
  · rwa [backtrack_self]
  · have heq : { s.backtrack n with conflict := none } = s.backtrack n := by
      rw [← hconflict, ← (s.backtrack_frame n).2.2.2.2.1]
    rw [← heq]
    exact h.backtrack_lt hlt

/-! ### Assigning and deciding -/

/-- A clause that is settled stays so when a literal is assigned. -/
theorem SettledAt.searchAssign_propagated {c : Nat}
    (h : s.SettledAt c s.propagated (fun _ => True)) (ht : s.WfTrail chrono) (x : Lit) (e : Edge) :
  (s.searchAssign chrono x e).SettledAt c s.propagated (fun _ => True)
  := by
  intro hgarbage k hk hneg
  have htake : (s.searchAssign chrono x e).trail.take s.propagated
      = s.trail.take s.propagated := List.take_append_of_le_length ht.propagated_le
  exact (h hgarbage k hk (htake ▸ hneg)).searchAssign x e (fun _ _ _ => trivial)

/-- Assigning a literal keeps the invariant. -/
theorem Inv.searchAssign (h : s.Inv chrono) (hconflict : s.conflict = none) {x : Lit} {e : Edge}
    (ha : s.Assignable chrono x e) :
  (s.searchAssign chrono x e).Inv chrono
  := by
  refine ⟨h.clauses.congr rfl rfl rfl, h.trail.searchAssign ha, h.watches.congr rfl rfl,
    h.levels.searchAssign h.trail ha.val e, ?_, ?_⟩
  · intro _ c hc
    exact (h.settled hconflict c hc).searchAssign_propagated h.trail x e
  · intro c hc
    have hsome : s.conflict = some c := hc
    rw [hconflict] at hsome
    cases hsome

/-- A new level starts when everything has been propagated. -/
theorem Inv.newLevel (h : s.Inv chrono) (hconflict : s.conflict = none)
    (hall : s.propagated = s.trail.length) :
  s.newLevel.Inv chrono
  := by
  have hold {l : Nat} (hl : l ≤ s.level) : s.newLevel.start l = s.start l := by
    change (s.control ++ [s.trail.length]).getD l 0 = s.control.getD l 0
    rw [List.getD_append]
    rw [h.trail.control]
    exact Nat.lt_succ_of_le hl
  have hnew : s.newLevel.start (s.level + 1) = s.trail.length := by
    change (s.control ++ [s.trail.length]).getD (s.level + 1) 0 = s.trail.length
    rw [← h.trail.control, List.getD_append_right _ _ _ _ le_rfl, Nat.sub_self]
    rfl
  refine ⟨h.clauses.congr rfl rfl rfl, ⟨h.trail.search.newLevel, h.trail.vidx_le, h.trail.reason,
    ?_, ?_, ?_, h.trail.propagated_le, ?_, ?_⟩, h.watches.congr rfl rfl, ?_, h.settled, ?_⟩
  · change (s.control ++ [s.trail.length]).length = s.level + 1 + 1
    rw [List.length_append, h.trail.control]
    rfl
  · intro l hl
    obtain hlt | rfl := Nat.lt_or_eq_of_le (Nat.le_of_lt_succ hl)
    · rw [hold hlt.le, hold hlt]
      exact h.trail.start_mono l hlt
    · rw [hold le_rfl, hnew]
      exact h.trail.start_le_length le_rfl
  · exact (hnew.trans hall.symm).le
  · intro l hl x hx
    obtain hlt | rfl := Nat.lt_or_eq_of_le (Nat.le_of_lt_succ hl)
    · rw [hold hlt] at hx
      exact h.trail.level_le l hlt x hx
    · exact h.trail.search.level_le x (List.mem_of_mem_take hx)
  · intro hchrono l hl x hx
    obtain hle | rfl := Nat.le_or_eq_of_le_succ hl
    · rw [hold hle] at hx
      exact h.trail.le_level hchrono l hle x hx
    · rw [hnew] at hx
      change x ∈ s.trail.drop s.trail.length at hx
      rw [List.drop_length] at hx
      cases hx
  · intro l hl c hc
    obtain hlt | rfl := Nat.lt_or_eq_of_le (Nat.le_of_lt_succ hl)
    · rw [hold hlt]
      exact h.levels l hlt c hc
    · rw [hnew, ← hall]
      intro hgarbage k hk hneg
      obtain ⟨x, hx, hmem, -⟩ := h.settled hconflict c hc hgarbage k hk hneg
      exact ⟨x, hx, hmem, h.trail.search.level_le x hmem⟩
  · intro c hc
    have hsome : s.conflict = some c := hc
    rw [hconflict] at hsome
    cases hsome

/-! ### Driving clauses -/

/-- The clause `c` is false, and the other clauses are settled on the lower levels. -/
structure Falsified (s : Cdcl) (chrono : Nat) (c : Nat) : Prop where
  clauses : s.WfClauses
  trail : s.WfTrail chrono
  watches : s.WfWatches s.wtab
  levels : ∀ l < s.level, ∀ c' < s.numClauses, c' ≠ c →
    s.SettledAt c' (s.start (l + 1)) (fun x => (s.var x).level ≤ l)
  lt : c < s.numClauses
  false_ : ∀ k ∈ s.lits c, -k ∈ s.trail

/-- All literals but `x` lie on the level `jump` or below it, and that of them which is watched
on this level. -/
structure Driving (s : Cdcl) (c : Nat) (x : Lit) (jump : Nat) : Prop where
  mem : x ∈ s.lits c
  lt_level : jump < (s.var x).level
  le_jump : ∀ k ∈ s.lits c, k ≠ x → (s.var k).level ≤ jump
  watched : ∀ k ∈ s.watched c, k = x ∨ (s.var k).level = jump
  exists_ : ∃ k ∈ s.lits c, k ≠ x ∧ (s.var k).level = jump

/-- The literal that is forced is assigned to the level `jump`. -/
theorem Driving.assignmentLevel {c : Nat} {x : Lit} {jump : Nat} (h : s.Driving c x jump) :
  (s.backtrack n).toSearch.assignmentLevel x ((s.backtrack n).lits c) = jump
  := by
  have hlevel (k : Lit) : ((s.backtrack n).toSearch.var k).level = (s.var k).level :=
    congrArg VarData.level (s.backtrack_var n k)
  rw [backtrack_lits]
  apply le_antisymm
  · apply Search.assignmentLevel_le
    intro k hk hne
    rw [hlevel]
    exact h.le_jump k hk hne
  · obtain ⟨k, hk, hne, heq⟩ := h.exists_
    rw [← heq, ← hlevel]
    exact Search.le_assignmentLevel hk hne

/-- The driven literal can be assigned behind the backtracking, with the clause as its reason. -/
theorem Driving.assignable {c : Nat} {x : Lit} {jump : Nat} (h : s.Driving c x jump)
    (hf : s.Falsified chrono c) (hjump : jump ≤ n) (hn : n < (s.var x).level)
    (hchrono : chrono = 0 → n = jump) :
  (s.backtrack n).Assignable chrono x (.clause c)
  := by
  have hxneg := hf.false_ x h.mem
  have hle : n ≤ s.level := by
    have hlevel : (s.var (-x)).level ≤ s.level := hf.trail.search.level_le _ hxneg
    rw [var_neg] at hlevel
    exact hn.le.trans hlevel
  obtain ⟨hmax, hnum, -⟩ := s.backtrack_frame n
  have hmem {y : Lit} := hf.trail.mem_backtrack hle (x := y)
  refine ⟨?_, ?_, ?_, nofun, ?_⟩
  · rw [val_eq_zero_iff, hmem, hmem, var_neg]
    refine ⟨fun hx => hf.trail.neg_not_mem hx.1 hxneg, fun hx => ?_⟩
    exact absurd hx.2 (Nat.not_le.mpr hn)
  · rw [hmax]
    exact hf.clauses.vidx_le c hf.lt x h.mem
  · intro c' heq
    cases heq
    rw [hnum, backtrack_lits]
    refine ⟨hf.lt, h.mem, ?_⟩
    intro k hk hne
    rw [hmem, var_neg]
    exact ⟨hf.false_ k hk, (h.le_jump k hk hne).trans hjump⟩
  · intro hzero
    rw [backtrack_level, hchrono hzero]
    exact h.assignmentLevel

/-- The driven literal is assigned on the jump level. -/
theorem Driving.litLevel {c : Nat} {x : Lit} {jump : Nat} (h : s.Driving c x jump)
    (hchrono : chrono = 0 → n = jump) :
  (s.backtrack n).litLevel chrono x (.clause c) = jump
  := by
  rw [Cdcl.litLevel]
  split
  · exact h.assignmentLevel
  · next hzero =>
      rw [backtrack_level]
      exact hchrono (not_not.mp hzero)

/-- The driving clause is satisfied by the literal that is assigned. -/
theorem Driving.hasTrue {c : Nat} {x : Lit} {jump : Nat} (h : s.Driving c x jump) {ok : Lit → Prop}
    (hok : ok x) :
  ((s.backtrack n).searchAssign chrono x (.clause c)).HasTrue c ok
  := by
  refine ⟨x, ?_, List.mem_append_right _ (List.mem_singleton_self x), hok⟩
  change x ∈ (s.backtrack n).lits c
  rw [backtrack_lits]
  exact h.mem

/-- The other clauses are settled on the levels that are left. -/
theorem Falsified.settledAt_backtrack {c : Nat} (hf : s.Falsified chrono c) (hn : n < s.level)
    {c' l m : Nat} (hc' : c' < s.numClauses) (hne : c' ≠ c) (hl : l ≤ n) (hm : m ≤ s.start (l + 1)) :
  (s.backtrack n).SettledAt c' m (fun x => ((s.backtrack n).var x).level ≤ l)
  := by
  simp only [backtrack_var]
  exact (hf.levels l (hl.trans_lt hn) c' hc' hne).backtrack hf.trail hl hn hm

/-- The driving clause is settled on the levels that are left: the literal that is assigned is not
above the watched one that is false there. -/
theorem Driving.settledAt {c : Nat} {x : Lit} {jump : Nat} (h : s.Driving c x jump)
    (hf : s.Falsified chrono c) (hjump : jump ≤ n) (hn : n < (s.var x).level) (hlt : n < s.level)
    (hchrono : chrono = 0 → n = jump) {l : Nat} (hl : l < n) :
  ((s.backtrack n).searchAssign chrono x (.clause c)).SettledAt c
    (((s.backtrack n).searchAssign chrono x (.clause c)).start (l + 1))
    (fun y => (((s.backtrack n).searchAssign chrono x (.clause c)).var y).level ≤ l)
  := by
  have hxneg := hf.false_ x h.mem
  have ha := h.assignable hf hjump hn hchrono
  have htrail := (hf.trail.backtrack hlt.le).searchAssign ha
  intro _ k hk hneg
  apply h.hasTrue
  change k ∈ (s.backtrack n).watched c at hk
  rw [Cdcl.watched, backtrack_lits] at hk
  have hmem := List.mem_of_mem_take hneg
  have hkx : k ≠ x := by
    rintro rfl
    exact htrail.neg_not_mem (List.mem_append_right _ (List.mem_singleton_self k)) hmem
  have hklevel := htrail.level_le l (hl.trans_eq (s.backtrack_level n).symm) _ hneg
  have hkold : -k ∈ (s.backtrack n).trail := by
    obtain hmem | hmem := List.mem_append.mp hmem
    · exact hmem
    · exfalso
      have heq : -k = x := List.mem_singleton.mp hmem
      rw [← heq, Lit.neg_neg] at hxneg
      exact hf.trail.neg_not_mem hxneg (hf.false_ k (List.mem_of_mem_take hk))
  rw [searchAssign_var_of_mem ha.val _ hkold, backtrack_var, var_neg,
    (h.watched k hk).resolve_left hkx] at hklevel
  rw [searchAssign_var_self, h.litLevel hchrono]
  exact hklevel

/-- The invariant holds after the literal has been assigned. -/
theorem Driving.inv {c : Nat} {x : Lit} {jump : Nat} (h : s.Driving c x jump)
    (hf : s.Falsified chrono c) (hjump : jump ≤ n) (hn : n < (s.var x).level)
    (hchrono : chrono = 0 → n = jump) :
  ((s.backtrack n).searchAssignDriving chrono x (.clause c)).Inv chrono
  := by
  have hlt : n < s.level := by
    have hlevel : (s.var (-x)).level ≤ s.level := hf.trail.search.level_le _ (hf.false_ x h.mem)
    rw [var_neg] at hlevel
    exact hn.trans_le hlevel
  have ha := h.assignable hf hjump hn hchrono
  have ht := hf.trail.backtrack hlt.le
  obtain ⟨hmax, hnum, hclauses, hwtab, -, -⟩ := s.backtrack_frame n
  refine ⟨hf.clauses.congr hmax hnum hclauses, (ht.searchAssign ha).congr _ none, ?_, ?_, ?_, nofun⟩
  · change WfWatches _ (s.backtrack n).wtab
    rw [hwtab]
    exact hf.watches.congr hnum hclauses
  · intro l hl c' hc'
    change l < (s.backtrack n).level at hl
    have hln : l < n := hl.trans_eq (s.backtrack_level n)
    by_cases hcc : c' = c
    · subst hcc
      exact h.settledAt hf hjump hn hlt hchrono hln
    · have hold := hf.settledAt_backtrack hlt (hnum ▸ hc') hcc hln.le (le_refl (s.start (l + 1)))
      rw [← start_backtrack hlt.le hln] at hold
      exact hold.searchAssign ht hl ha.val (.clause c)
  · intro _ c' hc'
    by_cases hcc : c' = c
    · subst hcc
      have htrue : ((s.backtrack n).searchAssign chrono x (.clause c')).HasTrue c' (fun _ => True) :=
        h.hasTrue trivial
      exact fun _ _ _ _ => htrue
    · have hpropagated : (s.backtrack n).propagated ≤ s.start (n + 1) := by
        rw [backtrack_of_lt hlt]
        exact min_le_right _ _
      exact ((hf.settledAt_backtrack hlt (hnum ▸ hc') hcc le_rfl hpropagated).weaken
        (fun _ _ => trivial)).searchAssign_propagated ht x (.clause c)

end Cdcl

end Cadical
