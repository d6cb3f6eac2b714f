import IgnoreGates.Cadical.LearnInvariant

/-!
# What the steps of the search loop keep

The analysis resolves the conflict or derives the empty clause.  Every step keeps the
invariant of the watches and the reasons of the auxiliary literals, and what it derives follows by
reverse unit propagation.
-/

namespace Cadical

open Logic

namespace Cdcl

variable {s : Cdcl} {o : Options} {e : External} {c : Nat}

/-! ### The analysis -/

/-- The conflict is falsified. -/
theorem Inv.falsified {chrono : Nat} (h : s.Inv chrono) (hc : s.conflict = some c) :
  s.Falsified chrono c
  := ⟨h.clauses, h.trail, h.watches, fun l hl c' hc' _ => h.levels l hl c' hc',
    (h.conflict c hc).lt, (h.conflict c hc).false_⟩

/-- Going back to the level of the watched literals, with the conflict. -/
theorem Falsified.backtrack {chrono n : Nat} (h : s.Falsified chrono c)
    (hc : s.conflict = some c) (hn : n ≤ s.level) (hle : ∀ k ∈ s.lits c, (s.var k).level ≤ n)
    (hwatched : ∀ k ∈ s.watched c, (s.var k).level = n) :
  (s.backtrack n).Inv chrono
  := by
  obtain ⟨hmax, hnum, hclauses, hwtab, hconf, -⟩ := s.backtrack_frame n
  have ht := h.trail.backtrack hn
  have hsome : (s.backtrack n).conflict = some c := hconf.trans hc
  refine ⟨h.clauses.congr hmax hnum hclauses, ht, ?_, ?_, ?_, ?_⟩
  · rw [hwtab]
    exact h.watches.congr hnum hclauses
  · intro l hl c' hc'
    have hln : l < n := by rwa [backtrack_level] at hl
    by_cases hcc : c' = c
    · subst hcc
      intro _ k hk hneg
      exfalso
      rw [Cdcl.watched, backtrack_lits] at hk
      have hklevel := ht.level_le l hl _ hneg
      rw [backtrack_var, var_neg, hwatched k hk] at hklevel
      omega
    · rw [hnum] at hc'
      have hold := h.levels l (hln.trans_le hn) c' hc' hcc
      rw [start_backtrack hn hln]
      simp only [backtrack_var]
      obtain rfl | hlt := Nat.eq_or_lt_of_le hn
      · rwa [backtrack_self]
      · exact hold.backtrack h.trail hln.le hlt le_rfl
  · intro hnone
    rw [hsome] at hnone
    cases hnone
  · intro c' hc'
    obtain rfl := Option.some.inj (hsome.symm.trans hc')
    refine ⟨hnum ▸ h.lt, ?_, ?_⟩
    · intro k hk
      rw [backtrack_lits] at hk
      rw [h.trail.mem_backtrack hn, var_neg]
      exact ⟨h.false_ k hk, hle k hk⟩
    · intro _
      have hpos : 0 < (s.watched c).length := by
        rw [Cdcl.watched, List.length_take]
        have hlength := h.clauses.length c h.lt
        omega
      obtain ⟨k, hk⟩ := List.exists_mem_of_length_pos hpos
      refine ⟨k, ?_, ?_⟩
      · rw [backtrack_lits]
        exact List.mem_of_mem_take hk
      · rw [backtrack_var, backtrack_level]
        exact hwatched k hk

/-- How the analysis ends: by driving the only literal on the conflict level, or with what is
learned on this level. -/
inductive Analyzes (s : Cdcl) (o : Options) (c : Nat) : Cdcl → Prop
  | forced {s' : Cdcl} {x : Lit} {jump : Nat} (hsame : s.Reorders s')
      (hfalse : s'.Falsified o.chrono c) (hdriving : s'.Driving c x jump) (hchrono : o.chrono ≠ 0) :
      Analyzes s o c ((s'.backtrack ((s.var x).level - 1)).searchAssignDriving o.chrono x
        (.clause c))
  | learns {s' t : Cdcl} {n : Nat} (hsame : s.Reorders s') (htrail : s'.WfTrail o.chrono)
      (hn : n ≤ s'.level) (hinv : (s'.backtrack n).Inv o.chrono)
      (hlearns : (s'.backtrack n).Learns o c t) :
      Analyzes s o c t

/-- Reordering literals leaves the reasons of the auxiliary literals. -/
theorem AuxReasons.reorders {s' : Cdcl} (h : s.AuxReasons e) (hsame : s.Reorders s') :
  s'.AuxReasons e
  := by
  intro x hx
  rw [hsame.trail] at hx
  rw [hsame.var]
  exact h x hx

/-- Backtracking leaves the reasons of the auxiliary literals. -/
theorem AuxReasons.backtrack {n : Nat} (h : s.AuxReasons e) {chrono : Nat} (ht : s.WfTrail chrono)
    (hn : n ≤ s.level) :
  (s.backtrack n).AuxReasons e
  := by
  intro x hx
  rw [ht.mem_backtrack hn] at hx
  rw [backtrack_var]
  exact h x hx.1

/-- Every conflict can be analyzed. -/
theorem Inv.analyze (h : s.Inv o.chrono) (hc : s.conflict = some c) (haux : s.AuxReasons e)
    (heuristics : Heuristics) :
  ∃ t, s.analyze e o heuristics = some t ∧ s.Analyzes o c t
  := by
  rw [Cdcl.analyze, hc]
  simp only
  split
  · next hchrono =>
      obtain ⟨hsame, hfalse, hcases⟩ := (h.falsified hc).findConflictLevel
      generalize s.findConflictLevel c = r at hsame hfalse hcases
      obtain ⟨s', conflictLevel, forced⟩ := r
      simp only at hsame hfalse hcases
      obtain ⟨x, jump, rfl, rfl, hdriving⟩ | ⟨rfl, hle, hwatched⟩ := hcases
      · exact ⟨_, rfl, .forced hsame hfalse hdriving hchrono⟩
      · have hlevel : s'.level = s.level := hsame.extends_.level
        have hconf : s'.conflict = some c := hsame.conflict.trans hc
        have hmem {k : Lit} : k ∈ s'.lits c ↔ k ∈ s.lits c := (hsame.extends_.lits c).mem_iff
        have hpos : 0 < (s'.watched c).length := by
          rw [Cdcl.watched, List.length_take]
          have hlength := hfalse.clauses.length c hfalse.lt
          omega
        obtain ⟨k, hk⟩ := List.exists_mem_of_length_pos hpos
        have hkmem : k ∈ s'.lits c := List.mem_of_mem_take hk
        have hn : conflictLevel ≤ s'.level := by
          have hkle : (s'.var (-k)).level ≤ s'.level :=
            hfalse.trail.search.level_le _ (hfalse.false_ k hkmem)
          rwa [var_neg, hsame.var, hwatched k hk] at hkle
        have hinv := hfalse.backtrack hconf hn
          (fun k hk => by rw [hsame.var]; exact hle k (hmem.mp hk))
          (fun k hk => by rw [hsame.var]; exact hwatched k hk)
        have hconf' : (s'.backtrack conflictLevel).conflict = some c := by
          rw [(s'.backtrack_frame conflictLevel).2.2.2.2.1, hconf]
        obtain ⟨t, ht, hlearns⟩ := hinv.learn hconf'
          (fun _ => by
            refine ⟨k, ?_, ?_⟩
            · rwa [backtrack_lits]
            · rw [backtrack_var, backtrack_level, hsame.var, hwatched k hk])
          ((haux.reorders hsame).backtrack hfalse.trail hn) heuristics
        exact ⟨t, ht, .learns hsame hfalse.trail hn hinv hlearns⟩
  · next hchrono =>
      have hlevel := (h.conflict c hc).level (not_not.mp hchrono)
      obtain ⟨t, ht, hlearns⟩ := h.learn hc (fun _ => hlevel) haux heuristics
      refine ⟨t, ht, .learns (Reorders.refl s) h.trail (le_refl s.level) ?_ ?_⟩
      · rwa [backtrack_self]
      · rwa [backtrack_self]

/-! ### The invariant after the analysis -/

/-- The analysis keeps the invariant. -/
theorem Analyzes.inv {t : Cdcl} (h : s.Analyzes o c t) :
  t.Inv o.chrono
  := by
  cases h with
  | forced hsame hfalse hdriving hchrono =>
      have hlt := hdriving.lt_level
      have hvar := hsame.var
      apply hdriving.inv hfalse
      · rw [← hvar]
        omega
      · rw [← hvar]
        omega
      · exact fun hzero => absurd hzero hchrono
  | learns hsame htrail hn hinv hlearns => exact hlearns.inv hinv

/-- The analysis resolves the conflict, or it derives the empty clause on root level. -/
theorem Learns.unsat {t : Cdcl} (h : s.Learns o c t) :
  (t.unsat = s.unsat ∧ t.conflict = none) ∨ t.unsat = true ∧ t.level = 0
  := by
  cases h with
  | empty hlevel => exact Or.inr ⟨rfl, hlevel⟩
  | unit hx hlevel hn hchrono hrup => exact Or.inl ⟨(s.backtrack_frame _).2.2.2.2.2, rfl⟩
  | @clause x l jump n s' t hadded hfalse hdriving hlevel hn hjump hchrono hrup hmarks =>
      left
      rw [hmarks.eq]
      exact ⟨(s'.backtrack_frame n).2.2.2.2.2.trans hadded.adds.unsat, rfl⟩

/-- The analysis resolves the conflict, or it finds the formula unsatisfiable on root level. -/
theorem Analyzes.unsat {t : Cdcl} (h : s.Analyzes o c t) :
  (t.unsat = s.unsat ∧ t.conflict = none) ∨ t.unsat = true ∧ t.level = 0
  := by
  cases h with
  | @forced s' x jump hsame hfalse hdriving hchrono =>
      exact Or.inl ⟨(s'.backtrack_frame _).2.2.2.2.2.trans hsame.extends_.unsat, rfl⟩
  | @learns s' t n hsame htrail hn hinv hlearns =>
      have hunsat := hlearns.unsat
      rwa [(s'.backtrack_frame n).2.2.2.2.2, hsame.extends_.unsat] at hunsat

/-! ### What every step keeps -/

/-- The original clauses are satisfied when the irredundant clauses and the literals of root
level are. -/
def Covers (s : Cdcl) (F : Set (Clause Lit)) : Prop :=
  ∀ σ : Assignment Nat,
    (∀ c < s.numClauses, (s.clauses c).garbage = false → (s.clauses c).redundant = false →
      Clause.Sat σ (s.lits c)) →
    (∀ x ∈ s.trail, (s.var x).level = 0 → σ.value x = true) → Models σ F

/-- Nothing is derived that does not follow by reverse unit propagation, no original clause is lost,
the literals up to the new level stay, and new literals above root level have reasons. -/
structure Keeps (s t : Cdcl) : Prop where
  maxVar : t.maxVar = s.maxVar
  holds : ∀ P, RupClosed P → s.Holds P → t.Holds P
  covers : ∀ F, s.Covers F → t.Covers F
  level_le : t.level ≤ s.level
  stays : ∀ x ∈ s.trail, (s.var x).level ≤ t.level → x ∈ t.trail ∧ t.var x = s.var x
  new : ∀ x ∈ t.trail, x ∈ s.trail ∧ t.var x = s.var x
    ∨ (0 < (t.var x).level → (t.var x).reason ≠ none)

theorem Keeps.trans {t u : Cdcl} (h : s.Keeps t) (h' : t.Keeps u) :
  s.Keeps u
  := by
  refine ⟨h'.maxVar.trans h.maxVar, fun P hP hs => h'.holds P hP (h.holds P hP hs),
    fun F hF => h'.covers F (h.covers F hF), h'.level_le.trans h.level_le, ?_, ?_⟩
  · intro x hx hlevel
    obtain ⟨hxt, hvar⟩ := h.stays x hx (hlevel.trans h'.level_le)
    obtain ⟨hxu, hvar'⟩ := h'.stays x hxt (hvar ▸ hlevel)
    exact ⟨hxu, hvar'.trans hvar⟩
  · intro x hx
    obtain ⟨hxt, hvar'⟩ | hnew := h'.new x hx
    · rw [hvar']
      exact h.new x hxt
    · exact Or.inr hnew

/-- New literals have reasons, and so the auxiliary ones among them. -/
theorem AuxReasons.keeps {t : Cdcl} (he : s.AuxReasons e) (h : s.Keeps t) :
  t.AuxReasons e
  := by
  intro x hx haux hpos
  obtain ⟨hxs, hvar⟩ | hnew := h.new x hx
  · rw [hvar] at hpos ⊢
    exact he x hxs haux hpos
  · exact hnew hpos

/-- What the propagation derives is kept. -/
theorem Extends.keeps {t : Cdcl} (h : s.Extends t) :
  s.Keeps t
  := by
  obtain ⟨new, hnew, hreason⟩ := h.trail
  refine ⟨h.maxVar, h.holds, ?_, h.level.le, ?_, ?_⟩
  · intro F hF σ hclauses hroot
    apply hF σ
    · intro c hc hgarbage hred
      obtain ⟨k, hk, hval⟩ := hclauses c (h.numClauses ▸ hc) ((h.garbage c).trans hgarbage)
        ((h.redundant c).trans hred)
      exact ⟨k, (h.lits c).subset hk, hval⟩
    · intro x hx hlevel
      apply hroot x
      · rw [hnew]
        exact List.mem_append_left _ hx
      · rw [h.var x hx, hlevel]
  · intro x hx _
    refine ⟨?_, h.var x hx⟩
    rw [hnew]
    exact List.mem_append_left _ hx
  · intro x hx
    rw [hnew] at hx
    obtain hx | hx := List.mem_append.mp hx
    · exact Or.inl ⟨hx, h.var x hx⟩
    · exact Or.inr (hreason x hx)

/-- The conflict plays no part in what is kept. -/
theorem keeps_conflict (s : Cdcl) (conflict : Option Nat) :
  s.Keeps { s with conflict := conflict }
  := (extends_conflict s conflict).keeps

/-- Backtracking keeps the literals up to the level it goes back to. -/
theorem keeps_backtrack {chrono n : Nat} (ht : s.WfTrail chrono) (hn : n ≤ s.level) :
  s.Keeps (s.backtrack n)
  := by
  obtain ⟨hmax, hnum, hclauses, -, -, hunsat⟩ := s.backtrack_frame n
  refine ⟨hmax, ?_, ?_, (s.backtrack_level n).le.trans hn, ?_, ?_⟩
  · intro P _ hs
    refine ⟨?_, ?_, fun htrue => hs.unsat (hunsat ▸ htrue)⟩
    · intro c hc
      rw [backtrack_lits]
      exact hs.clauses c (hnum ▸ hc)
    · intro x hx hlevel
      rw [ht.mem_backtrack hn] at hx
      rw [backtrack_var] at hlevel
      exact hs.root x hx.1 hlevel
  · intro F hF σ hσ hroot
    apply hF σ
    · intro c hc hgarbage hred
      have hsat := hσ c (hnum ▸ hc) (hclauses ▸ hgarbage) (hclauses ▸ hred)
      rwa [backtrack_lits] at hsat
    · intro x hx hlevel
      apply hroot x
      · rw [ht.mem_backtrack hn]
        exact ⟨hx, by omega⟩
      · rwa [backtrack_var]
  · intro x hx hlevel
    rw [backtrack_level] at hlevel
    rw [ht.mem_backtrack hn]
    exact ⟨⟨hx, hlevel⟩, s.backtrack_var n x⟩
  · intro x hx
    rw [ht.mem_backtrack hn] at hx
    exact Or.inl ⟨hx.1, s.backtrack_var n x⟩

/-- What holds after backtracking held before it: only literals above root level are taken away. -/
theorem Holds.of_backtrack {P : Set (Clause Lit)} {chrono n : Nat} (h : (s.backtrack n).Holds P)
    (ht : s.WfTrail chrono) (hn : n ≤ s.level) :
  s.Holds P
  := by
  obtain ⟨-, hnum, -, -, -, hunsat⟩ := s.backtrack_frame n
  refine ⟨?_, ?_, fun htrue => h.unsat (hunsat.trans htrue)⟩
  · intro c hc
    have hsat := h.clauses c (hnum ▸ hc)
    rwa [backtrack_lits] at hsat
  · intro x hx hlevel
    apply h.root x
    · rw [ht.mem_backtrack hn]
      exact ⟨hx, by omega⟩
    · rwa [backtrack_var]

/-- Assigning a literal loses no original clause. -/
theorem Covers.searchAssign {F : Set (Clause Lit)} (h : s.Covers F) (chrono : Nat) {x : Lit}
    (hx : s.val x = 0) (edge : Edge) :
  (s.searchAssign chrono x edge).Covers F
  := by
  intro σ hσ hroot
  apply h σ hσ
  intro y hy hlevel
  apply hroot y (List.mem_append_left _ hy)
  rwa [searchAssign_var_of_mem hx edge hy]

/-- A literal that is no decision is assigned. -/
theorem keeps_searchAssign {chrono : Nat} (ht : s.WfTrail chrono) {x : Lit} {edge : Edge}
    (ha : s.Assignable chrono x edge) (hne : edge ≠ .decision)
    (hroot : ∀ P, RupClosed P → s.Holds P → s.litLevel chrono x edge = 0 →
      (∀ c, edge ≠ .clause c) → [x] ∈ P) :
  s.Keeps (s.searchAssign chrono x edge)
  := by
  refine ⟨rfl, fun P hP hs => hs.searchAssign hP ht ha (hroot P hP hs),
    fun _ hF => hF.searchAssign chrono ha.val edge, le_rfl,
    fun y hy _ => ⟨List.mem_append_left _ hy, searchAssign_var_of_mem ha.val edge hy⟩, ?_⟩
  intro y hy
  obtain hy | hy := List.mem_append.mp hy
  · exact Or.inl ⟨hy, searchAssign_var_of_mem ha.val edge hy⟩
  · right
    rw [List.mem_singleton.mp hy, searchAssign_var_self]
    cases edge with
    | unit => exact fun hpos => absurd hpos (Nat.lt_irrefl 0)
    | decision => exact absurd rfl hne
    | clause c =>
        intro hpos
        simp only [litReason]
        rw [if_neg (Nat.ne_of_gt hpos)]
        exact Option.some_ne_none c

/-- A literal driven by its clause is kept with this reason. -/
theorem keeps_searchAssign_clause {chrono : Nat} (ht : s.WfTrail chrono) {x : Lit}
    (ha : s.Assignable chrono x (.clause c)) :
  s.Keeps (s.searchAssignDriving chrono x (.clause c))
  := (keeps_searchAssign ht ha nofun (fun _ _ _ _ hne => absurd rfl (hne c))).trans
    (keeps_conflict _ none)

/-- Adding a clause loses no original clause. -/
theorem Covers.adds {t : Cdcl} {F : Set (Clause Lit)} {red : Bool} {l : List Lit} (hF : s.Covers F)
    (h : s.Adds t red l) :
  t.Covers F
  := by
  intro σ hσ hroot
  apply hF σ
  · intro c hc hgarbage hred
    have hne := Nat.ne_of_lt hc
    have hclause : t.clauses c = s.clauses c := by
      rw [h.clauses]
      exact Function.update_of_ne hne _ _
    have hsat := hσ c (by rw [h.numClauses]; exact hc.trans (Nat.lt_succ_self _))
      (hclause ▸ hgarbage) (hclause ▸ hred)
    rwa [h.lits, if_neg hne] at hsat
  · intro x hx hlevel
    apply hroot x
    · rwa [h.trail]
    · rwa [h.var]

/-- Adding a clause that follows keeps everything following. -/
theorem Holds.adds {t : Cdcl} {P : Set (Clause Lit)} {red : Bool} {l : List Lit} (hs : s.Holds P)
    (h : s.Adds t red l) (hl : l ∈ P) :
  t.Holds P
  where
    clauses := by
      intro c hc
      rw [h.lits]
      split
      · exact hl
      · next hne =>
          rw [h.numClauses] at hc
          exact hs.clauses c (Nat.lt_of_le_of_ne (Nat.le_of_lt_succ hc) hne)
    root := by
      intro x hx hlevel
      rw [h.trail] at hx
      rw [h.var] at hlevel
      exact hs.root x hx hlevel
    unsat := fun htrue => hs.unsat (h.unsat ▸ htrue)

/-- A clause that follows is added. -/
theorem Adds.keeps {t : Cdcl} {red : Bool} {l : List Lit} (h : s.Adds t red l)
    (hl : ∀ P, RupClosed P → s.Holds P → l ∈ P) :
  s.Keeps t
  where
    maxVar := h.maxVar
    holds := fun P hP hs => hs.adds h (hl P hP hs)
    covers := fun _ hF => hF.adds h
    level_le := h.level.le
    stays := fun x hx _ => ⟨h.trail ▸ hx, h.var x⟩
    new := fun x hx => Or.inl ⟨h.trail ▸ hx, h.var x⟩

/-- Marking useless clauses as garbage keeps what holds and what is covered. -/
theorem Marks.keeps {t : Cdcl} (h : s.Marks t) :
  s.Keeps t
  := by
  have hlits := h.lits
  have hclauses := h.clauses
  rw [h.eq] at hlits hclauses ⊢
  refine ⟨rfl, ?_, ?_, le_rfl, fun x hx _ => ⟨hx, rfl⟩, fun x hx => Or.inl ⟨hx, rfl⟩⟩
  · intro P _ hs
    refine ⟨?_, hs.root, hs.unsat⟩
    intro c hc
    rw [hlits]
    exact hs.clauses c hc
  · intro F hF σ hσ hroot
    apply hF σ _ hroot
    intro c hc hgarbage hred
    obtain heq | ⟨hmarked | ⟨x, hx, hmem, hlevel⟩, -⟩ := hclauses c
    · have hsat := hσ c hc (by rw [heq]; exact hgarbage) (by rw [heq]; exact hred)
      rwa [hlits] at hsat
    · rw [hred] at hmarked
      cases hmarked
    · exact ⟨x, hx, hroot x hmem hlevel⟩

/-! ### The conflict -/

/-- The conflict, the reasons and the literals of root level are in `P`. -/
theorem Holds.graph_subset {P : Set (Clause Lit)} {chrono : Nat} (h : s.Holds P)
    (ht : s.WfTrail chrono) (hc : c < s.numClauses) :
  (s.toSearch.graph (s.lits c)).clauses ⊆ P
  := by
  rintro d (rfl | ⟨x, hx⟩ | ⟨x, ⟨hx, hlevel⟩, rfl⟩)
  · exact h.clauses c hc
  · obtain ⟨hmem, hr⟩ := Search.mem_of_graph_reason hx
    obtain ⟨c', hc', rfl⟩ := Option.map_eq_some_iff.mp hr
    exact h.clauses c' (ht.reason x hmem c' hc')
  · exact h.root x hx hlevel

/-- On root level the empty clause follows from a false clause. -/
theorem Holds.nil_mem {P : Set (Clause Lit)} {chrono : Nat} (h : s.Holds P) (hP : RupClosed P)
    (hinv : s.Inv chrono) (hc : s.conflict = some c) (hlevel : s.level = 0) :
  [] ∈ P
  := by
  obtain ⟨hlt, hfalse, -⟩ := hinv.conflict c hc
  apply hP.remove (h.clauses c hlt)
  intro k hk
  have hle : (s.var (-k)).level ≤ s.level := hinv.trail.search.level_le _ (hfalse k hk)
  rw [hlevel] at hle
  exact Or.inr (h.root _ (hfalse k hk) (Nat.le_zero.mp hle))

/-- The empty clause is learned from a conflict on root level. -/
theorem keeps_learnEmptyClause {chrono : Nat} (hinv : s.Inv chrono) (hc : s.conflict = some c)
    (hlevel : s.level = 0) :
  s.Keeps s.learnEmptyClause
  := ⟨rfl, fun _ hP hs => ⟨hs.clauses, hs.root, fun _ => hs.nil_mem hP hinv hc hlevel⟩,
    fun _ hF => hF, le_rfl, fun _ hx _ => ⟨hx, rfl⟩, fun _ hx => Or.inl ⟨hx, rfl⟩⟩

/-- What is learned from a conflict follows by reverse unit propagation. -/
theorem Learns.keeps {t : Cdcl} (h : s.Learns o c t) (hinv : s.Inv o.chrono)
    (hc : s.conflict = some c) :
  s.Keeps t
  := by
  have hlt := (hinv.conflict c hc).lt
  cases h with
  | empty hlevel => exact keeps_learnEmptyClause hinv hc hlevel
  | @unit x n hx hlevel hn hchrono hrup =>
      have hback := (keeps_backtrack hinv.trail hn.le).trans (keeps_conflict (s.backtrack n) none)
      have ha := hinv.assignable_unit hx hlevel hn hchrono
      refine hback.trans (keeps_searchAssign (hinv.backtrack_lt hn).trail ha nofun ?_)
      intro P hP hs _ _
      have hold : (s.backtrack n).Holds P := ⟨hs.clauses, hs.root, hs.unsat⟩
      exact hP _ (hrup.mono ((hold.of_backtrack hinv.trail hn.le).graph_subset hinv.trail hlt))
  | @clause x l jump n s' t hadded hfalse hdriving hlevel hn hjump hchrono hrup hmarks =>
      have hlevel' : (s'.var x).level = s.level := by rw [hadded.adds.var, hlevel]
      have hle : n ≤ s'.level := by
        rw [hadded.adds.level]
        exact hn.le
      have ha := hdriving.assignable hfalse hjump (hn.trans_le hlevel'.ge) hchrono
      have hadd := hadded.adds.keeps
        (fun P hP hs => hP _ (hrup.mono (hs.graph_subset hinv.trail hlt)))
      have hback := keeps_backtrack hfalse.trail hle
      have hassign := keeps_searchAssign_clause (hfalse.trail.backtrack hle) ha
      exact ((hadd.trans hback).trans hassign).trans hmarks.keeps

/-- The analysis of a conflict derives nothing that does not follow. -/
theorem Analyzes.keeps {t : Cdcl} (h : s.Analyzes o c t) (hc : s.conflict = some c) :
  s.Keeps t
  := by
  cases h with
  | @forced s' x jump hsame hfalse hdriving hchrono =>
      have hlt := hdriving.lt_level
      rw [hsame.var] at hlt
      have hle : (s.var x).level - 1 ≤ s'.level := by
        have hxlevel : (s'.var (-x)).level ≤ s'.level :=
          hfalse.trail.search.level_le _ (hfalse.false_ x hdriving.mem)
        rw [var_neg, hsame.var] at hxlevel
        exact (Nat.sub_le _ _).trans hxlevel
      have ha := hdriving.assignable (n := (s.var x).level - 1) hfalse (by omega)
        (by rw [hsame.var]; omega) (fun hzero => absurd hzero hchrono)
      exact (hsame.extends_.keeps.trans (keeps_backtrack hfalse.trail hle)).trans
        (keeps_searchAssign_clause (hfalse.trail.backtrack hle) ha)
  | @learns s' t n hsame htrail hn hinv hlearns =>
      have hconf : (s'.backtrack n).conflict = some c := by
        rw [(s'.backtrack_frame n).2.2.2.2.1, hsame.conflict, hc]
      exact (hsame.extends_.keeps.trans (keeps_backtrack htrail hn)).trans
        (hlearns.keeps hinv hconf)

end Cdcl

end Cadical
