import IgnoreGates.Cadical.AnalyzeLoops
import IgnoreGates.Cadical.HighestLevel

/-!
# Soundness of the learned clause

The clause that is learned with `UIPAUX` follows from the conflict and the reasons if and
only if no auxiliary literal without a reason is reached: such a literal is erased from the
clause although nothing replaces it.  A literal that the conflict itself forces, and the empty
clause of a conflict on root level, are always sound.
-/

namespace Cadical

open Logic ImplicationGraph

namespace Search

variable {s : Search} {conflict : List Lit} {e : External}

/-! ### The conflict level -/

/-- The literals of a conflict are assigned, on levels up to the current one. -/
theorem Inv.conflict_level_le (h : s.Inv) (hfalse : ∀ k ∈ conflict, -k ∈ s.trail) :
  ∀ k ∈ conflict, (s.var k).level ≤ s.level
  := by
  intro k hk
  rw [← var_neg]
  exact h.level_le _ (hfalse k hk)

/-- The state in which the loops run is a state of the search; all literals of the conflict
are false in it, and one of them is on its level. -/
theorem Inv.conflictState (h : s.Inv) {chrono : Bool} (hconf : s.IsConflict chrono conflict) :
  (s.conflictState chrono conflict).Inv
    ∧ (∀ k ∈ conflict, -k ∈ (s.conflictState chrono conflict).trail)
    ∧ ((s.conflictState chrono conflict).level ≠ 0 → ∃ k ∈ conflict,
      ((s.conflictState chrono conflict).var k).level = (s.conflictState chrono conflict).level)
  := by
  rw [Search.conflictState]
  cases chrono with
  | false =>
      rw [if_neg Bool.false_ne_true]
      exact ⟨h, hconf.false_, hconf.level rfl⟩
  | true =>
      rw [if_pos rfl]
      obtain ⟨hall, heq⟩ := findConflictLevel_le (h.conflict_level_le hconf.false_)
      refine ⟨h.backtrack _, ?_, ?_⟩
      · intro k hk
        apply List.mem_filter.mpr
        rw [decide_eq_true_eq, var_neg]
        exact ⟨hconf.false_ k hk, hall k hk⟩
      · intro hne
        exact heq.resolve_left hne

/-- The state in which the loops run is on root level exactly when all literals of the conflict
are. -/
theorem Inv.conflictState_level (h : s.Inv) {chrono : Bool} (hconf : s.IsConflict chrono conflict) :
  (s.conflictState chrono conflict).level = 0 ↔ ∀ k ∈ conflict, (s.var k).level = 0
  := by
  have hle := h.conflict_level_le hconf.false_
  rw [Search.conflictState]
  cases chrono with
  | false =>
      rw [if_neg Bool.false_ne_true]
      constructor
      · intro hzero k hk
        exact Nat.le_zero.mp (hzero ▸ hle k hk)
      · intro hall
        by_contra hne
        obtain ⟨k, hk, heq⟩ := hconf.level rfl hne
        exact hne (heq.symm.trans (hall k hk))
  | true =>
      obtain ⟨hlevel, heq⟩ := findConflictLevel_le hle
      change (s.findConflictLevel conflict).1 = 0 ↔ _
      constructor
      · intro hzero k hk
        exact Nat.le_zero.mp (hzero ▸ hlevel k hk)
      · intro hall
        obtain hzero | ⟨k, hk, heq⟩ := heq
        · exact hzero
        · exact heq.symm.trans (hall k hk)

/-! ### Both loops -/

/-- Both loops come to their ends. -/
theorem Inv.analyzeLoops (h : s.Inv) (hfalse : ∀ k ∈ conflict, -k ∈ s.trail) (hpos : 0 < s.level)
    (hlevel : ∃ k ∈ conflict, (s.var k).level = s.level) :
  ∃ u a a₁ done erased, s.analyzeLoops e conflict = some (u, a)
    ∧ s.UipFound e conflict done u a₁ ∧ s.AuxInv e conflict done u erased a.clause.length a
  := by
  have hgrows := h.analyzeReason .init none (fun k hk _ => hfalse k hk)
  obtain ⟨new, hnew, hnew_false, hiff⟩ := hgrows.clause
  rw [Analysis.init, List.nil_append] at hnew
  have hsub : s.trail.reverse ⊆ s.trail := fun x hx => List.mem_reverse.mp hx
  have hinv : s.UipInv e conflict [] s.trail.reverse []
      (s.analyzeReason .init none conflict) := by
    refine ⟨by simp, ?_, by simp, by simp, ?_, ?_, ?_⟩
    · simpa using explored_conflict h hfalse
    · intro x hx
      rw [Analysis.init, hnew, hiff x hx]
      simp [Analysis.init]
    · intro k hk
      rw [Analysis.init, hnew] at hk
      exact hnew_false k hk
    · have hopen := hgrows.open_ s.trail.reverse hsub (List.nodup_reverse.mpr h.nodup.of_map)
        (fun x hx _ _ => List.mem_reverse.mpr hx)
      have hzero : s.openIn .init s.trail.reverse = 0 := by
        apply List.countP_eq_zero.mpr
        simp [Analysis.init]
      rw [hzero] at hopen
      change _ = (0 : Int) - 0 at hopen
      omega
  have hopen : 0 < s.openIn (s.analyzeReason .init none conflict) s.trail.reverse := by
    obtain ⟨k, hk, hklevel⟩ := hlevel
    apply openIn_pos.mpr
    use -k, List.mem_reverse.mpr (hfalse k hk)
    have hklevel' : (s.var (-k)).level = s.level := by rw [var_neg, hklevel]
    refine ⟨(hgrows.seen _ (hfalse k hk)).mpr (Or.inr ⟨⟨?_, by simp⟩, ?_⟩), hklevel'⟩
    · rwa [Lit.neg_neg]
    · rwa [hklevel']
  obtain ⟨u, a₁, done, hloop, hfound⟩ := hinv.uipLoop h hpos hopen
  have haux : s.AuxInv e conflict done u [] 0 { a₁ with clause := a₁.clause ++ [-u] } := by
    refine ⟨⟨hfound.explored.of_conflict, ?_, ?_⟩, by simp, hfound.visited, ?_, ?_, by simp,
      hfound.seen⟩
    · simpa using hfound.explored.of_reason
    · simpa using hfound.explored.traced
    · intro x hx
      have hneg : -x = -u ↔ x = u := by
        constructor
        · intro heq
          rw [← Lit.neg_neg x, heq, Lit.neg_neg]
        · rintro rfl
          rfl
      simp only [List.mem_append, List.mem_singleton, hneg, hfound.clause x hx,
        List.not_mem_nil, or_false]
      exact or_comm
    · intro k hk
      obtain hk | hk := List.mem_append.mp hk
      · exact hfound.clause_false k hk
      · rw [List.mem_singleton.mp hk, Lit.neg_neg]
        exact hfound.mem
  obtain ⟨a, erased, hauxLoop, hend⟩ := haux.auxLoop h hfound.mem hfound.stop
    ((a₁.clause ++ [-u]).length + s.trail.length + 1) (Nat.zero_le _)
    (Nat.lt_succ_of_le (Nat.add_le_add_left (List.countP_le_length) _))
  refine ⟨u, a, a₁, done, erased, ?_, hfound, hend⟩
  rw [Search.analyzeLoops, hloop]
  simp only [hauxLoop]

/-! ### The implication graph of the trail -/

/-- The assignment of the trail. -/
def assignment (s : Search) : Assignment Nat :=
  fun v => s.trail.any (fun x => x.vidx = v ∧ Literal.sign x = false)

theorem Inv.assignment_value (h : s.Inv) {x : Lit} (hx : x ∈ s.trail) :
  s.assignment.value x = true
  := by
  rw [Assignment.value]
  cases hsign : Literal.sign x with
  | false =>
      rw [Bool.xor_false, Search.assignment, List.any_eq_true]
      exact ⟨x, hx, by simpa using ⟨rfl, hsign⟩⟩
  | true =>
      have hvalue : s.assignment (Literal.var x) = false := by
        rw [Search.assignment, List.any_eq_false]
        intro y hy
        rw [decide_eq_true_eq]
        rintro ⟨hvidx, hysign⟩
        rw [h.eq_of_vidx hy hx hvidx, hsign] at hysign
        cases hysign
      rw [hvalue]
      rfl

theorem Inv.assignment_value_false (h : s.Inv) {k : Lit} (hk : -k ∈ s.trail) :
  s.assignment.value k = false
  := by
  have hvalue := h.assignment_value hk
  change s.assignment.value (Literal.neg k) = true at hvalue
  rw [Assignment.value_neg] at hvalue
  simpa using hvalue

theorem Inv.graph_wf (h : s.Inv) (hfalse : ∀ k ∈ conflict, -k ∈ s.trail) :
  (s.graph conflict).Wf s.assignment
  where
    conflict := fun k hk => h.assignment_value_false (hfalse k hk)
    reason_mem := by
      intro x r hr
      obtain ⟨hx, hr⟩ := mem_of_graph_reason hr
      exact h.reason_mem x hx r hr
    reason_true := by
      intro x r hr
      exact h.assignment_value (mem_of_graph_reason hr).1
    reason_false := by
      intro x r hr k hk hkx
      obtain ⟨hx, hr⟩ := mem_of_graph_reason hr
      exact h.assignment_value_false (h.reason_false hx hr hk hkx).1
    fixed := fun hx => h.assignment_value hx.1

/-- The literals of a reason come earlier on the trail. -/
theorem Inv.graph_rank (h : s.Inv) {x : Lit} {r : List Lit}
    (hr : (s.graph conflict).reason x = some r) {k : Lit} (hk : k ∈ r) (hkx : k ≠ x) :
  s.trail.idxOf (-k) < s.trail.idxOf x
  := by
  obtain ⟨hx, hr⟩ := mem_of_graph_reason hr
  obtain ⟨pre, post, hsplit⟩ := List.append_of_mem hx
  have hkpre := (h.before pre x post r hsplit hr k hk hkx).1
  have hnodup := h.nodup.of_map
  rw [hsplit, List.nodup_append'] at hnodup
  have hxpre : x ∉ pre := fun hmem => hnodup.2.2 hmem List.mem_cons_self
  rw [hsplit, List.idxOf_append_of_mem hkpre, List.idxOf_append_of_notMem hxpre]
  exact (List.idxOf_lt_length_iff.mpr hkpre).trans_le (Nat.le_add_right _ _)

/-! ### What has been reached -/

variable {done erased : List Lit} {u : Lit} {a a₁ : Analysis}

/-- At the end, no auxiliary literal is left in the clause. -/
theorem AuxInv.isAux_eq_false (haux : s.AuxInv e conflict done u erased a.clause.length a) {k : Lit}
    (hk : k ∈ a.clause) :
  e.isAux k = false
  := haux.kept k (by rwa [List.take_length])

/-- A seen literal has been expanded, or it is in the clause. -/
theorem AuxInv.expanded_or_mem (haux : s.AuxInv e conflict done u erased a.clause.length a)
    (h : s.Inv) {x : Lit} (hx : x ∈ s.trail) (hseen : a.seen x.vidx = true) :
  (x ∈ done ∨ x ∈ erased) ∨ -x ∈ a.clause
  := by
  have hclause := (haux.clause x hx).mpr
  obtain hlt | heq := Nat.lt_or_eq_of_le (h.level_le x hx)
  · obtain hmem | hmem := hclause (Or.inr ⟨hseen, hlt⟩)
    · exact Or.inr hmem
    · exact Or.inl (Or.inr hmem)
  · obtain hdone | rfl := haux.visited x hx heq hseen
    · exact Or.inl (Or.inl hdone)
    · obtain hmem | hmem := hclause (Or.inl rfl)
      · exact Or.inr hmem
      · exact Or.inl (Or.inr hmem)

/-- The literals that have been seen are those that are traced when auxiliary literals, and
literals that are no unique implication points, are expanded. -/
theorem seen_iff (h : s.Inv) (hfalse : ∀ k ∈ conflict, -k ∈ s.trail)
    (hfound : s.UipFound e conflict done u a₁)
    (haux : s.AuxInv e conflict done u erased a.clause.length a) {x : Lit} (hx : x ∈ s.trail) :
  a.seen x.vidx = true ↔ (s.graph conflict).Traced (s.Expanded e conflict) x
  := by
  constructor
  · intro hseen
    apply (haux.explored.traced x hx hseen).mono
    rintro y - (hy | hy)
    · obtain ⟨-, -, hlevel, -, hexpanded⟩ := hfound.expanded y hy
      exact hexpanded.imp_right (fun hnot => ⟨hlevel, hnot⟩)
    · exact Or.inl (haux.erased_aux y hy).2
  · intro htraced
    clear hx
    induction htraced with
    | conflict hx hfixed =>
        have hmem := h.traced_mem hfalse (.conflict (E := fun _ => False) hx hfixed)
        exact haux.explored.of_conflict _ hmem hx ((graph_not_fixed hmem).mp hfixed)
    | @reason x y r hy hE hr hx hxy hfixed ih =>
        have hmem := h.traced_mem hfalse (.reason hy hE hr hx hxy hfixed)
        obtain ⟨hymem, hyr⟩ := mem_of_graph_reason hr
        have hexpanded : y ∈ done ∨ y ∈ erased := by
          obtain hyaux | ⟨hlevel, hnot⟩ := hE
          · apply (haux.expanded_or_mem h hymem ih).resolve_right
            intro hclause
            have hkept := haux.isAux_eq_false hclause
            rw [isAux_neg, hyaux] at hkept
            cases hkept
          · obtain hdone | rfl := haux.visited y hymem hlevel ih
            · exact Or.inl hdone
            · exact absurd (hfound.uniqueImplicationPoint h hfalse) hnot
        exact haux.explored.of_reason y hymem hexpanded r hyr x hmem hx hxy
          ((graph_not_fixed hmem).mp hfixed)

/-! ### The driving clause -/

/-- Sorting keeps the literals. -/
theorem perm_sortClause (s : Search) (clause : List Lit) :
  (s.sortClause clause).Perm clause
  := List.perm_insertionSort _ _

/-- A literal that is not larger is not on a larger level. -/
theorem level_le_of_not_larger {a b : Lit} (h : ¬ s.analyzeTrailLarger b a) :
  (s.var b).level ≤ (s.var a).level
  := by
  by_contra hlt
  exact h (Or.inl (Nat.not_le.mp hlt))

/-- Sorting puts literals on higher levels first. -/
theorem pairwise_sortClause (s : Search) (clause : List Lit) :
  (s.sortClause clause).Pairwise (fun a b => (s.var b).level ≤ (s.var a).level)
  := by
  have : Std.Total (fun a b => ¬ s.analyzeTrailLarger b a) := by
    constructor
    intro a b
    rw [analyzeTrailLarger, analyzeTrailLarger]
    omega
  have : IsTrans Lit (fun a b => ¬ s.analyzeTrailLarger b a) := by
    constructor
    intro a b c
    rw [analyzeTrailLarger, analyzeTrailLarger, analyzeTrailLarger]
    omega
  exact (List.pairwise_insertionSort _ clause).imp level_le_of_not_larger

/-- A driving clause has the literals of the learned clause. -/
theorem newDrivingClause_some {clause d : List Lit}
    (h : (s.newDrivingClause clause).1 = some d) :
  d.Perm clause
  := by
  rw [newDrivingClause] at h
  split at h
  · cases h
  · cases h
    exact s.perm_sortClause clause

/-- Only unit clauses and the empty clause have no driving clause. -/
theorem newDrivingClause_none {clause : List Lit} (h : (s.newDrivingClause clause).1 = none) :
  clause.length ≤ 1
  := by
  rw [newDrivingClause] at h
  split at h
  · assumption
  · cases h

/-! ### Soundness of the loops -/

/-- When an auxiliary literal without a reason has been reached, the clause does not follow. -/
theorem not_entails_clause (h : s.Inv) (hfalse : ∀ k ∈ conflict, -k ∈ s.trail)
    (hfound : s.UipFound e conflict done u a₁)
    (haux : s.AuxInv e conflict done u erased a.clause.length a) {x : Lit} (hx : x ∈ s.trail)
    (hseen : a.seen x.vidx = true) (hxaux : e.isAux x = true) (hnone : (s.var x).reason = none) :
  ¬ Entails (s.graph conflict).clauses a.clause
  := by
  apply not_entails_of_traced (h.graph_wf hfalse) (haux.explored.traced x hx hseen)
    (h.assignment_value hx) ((graph_reason hx).trans hnone)
  intro k hk
  have hkfalse := haux.clause_false k hk
  have hkept := haux.isAux_eq_false hk
  have hclause := (haux.clause (-k) hkfalse).mp (Or.inl (by rwa [Lit.neg_neg]))
  refine ⟨h.assignment_value_false hkfalse, ?_, ?_⟩
  · change ¬ (-k ∈ done ∨ -k ∈ erased)
    rintro (hdone | herased)
    · obtain ⟨-, hne, hlevel, -⟩ := hfound.expanded (-k) hdone
      obtain heq | ⟨-, hlt⟩ := hclause
      · exact hne heq
      · omega
    · have hkaux := (haux.erased_aux (-k) herased).2
      rw [isAux_neg, hkept] at hkaux
      cases hkaux
  · change -k ≠ x
    rintro rfl
    rw [isAux_neg, hkept] at hxaux
    cases hxaux

/-- The clause follows by reverse unit propagation when no auxiliary literal without a reason has
been reached. -/
theorem rup_clause (h : s.Inv) (hfalse : ∀ k ∈ conflict, -k ∈ s.trail)
    (hfound : s.UipFound e conflict done u a₁)
    (haux : s.AuxInv e conflict done u erased a.clause.length a) (hnone : s.NoneErased e conflict) :
  Rup (s.graph conflict).clauses a.clause
  := by
  apply rup_of_traced (E := fun y => y ∈ done ∨ y ∈ erased) (fun x => s.trail.idxOf x)
  · intro x r hr
    exact (h.graph_wf hfalse).reason_mem hr
  · intro x r hr k hk hkx _
    exact h.graph_rank hr hk hkx
  · intro x htraced
    have hx := h.traced_mem hfalse htraced
    have hseen : a.seen x.vidx = true := by
      apply (seen_iff h hfalse hfound haux hx).mpr
      apply htraced.mono
      rintro y - (hy | hy)
      · obtain ⟨-, -, hlevel, -, hexpanded⟩ := hfound.expanded y hy
        exact hexpanded.imp_right (fun hnot => ⟨hlevel, hnot⟩)
      · exact Or.inl (haux.erased_aux y hy).2
    obtain hexpanded | hmem := haux.expanded_or_mem h hx hseen
    · left
      refine ⟨hexpanded, ?_⟩
      rw [graph_reason hx, Option.isSome_iff_ne_none]
      obtain hdone | herased := hexpanded
      · exact (hfound.expanded x hdone).2.2.2.1
      · exact hnone x ((seen_iff h hfalse hfound haux hx).mp hseen) (haux.erased_aux x herased).2
    · exact Or.inr hmem

/-- The clause follows, and the literal that is assigned is in it, exactly when no auxiliary
literal without a reason has been reached. -/
theorem sound_loops_iff (h : s.Inv) (hfalse : ∀ k ∈ conflict, -k ∈ s.trail)
    (hfound : s.UipFound e conflict done u a₁)
    (haux : s.AuxInv e conflict done u erased a.clause.length a) :
  s.Sound conflict a.clause u (s.newDrivingClause a.clause).1 ↔ s.NoneErased e conflict
  := by
  constructor
  · intro hsound x htraced hxaux hnone
    have hx := h.traced_mem hfalse htraced
    exact not_entails_clause h hfalse hfound haux hx
      ((seen_iff h hfalse hfound haux hx).mpr htraced) hxaux hnone hsound.entails
  · intro hnone
    have hreason {x : Lit} (hx : x ∈ s.trail) (hseen : a.seen x.vidx = true)
        (hxaux : e.isAux x = true) : (s.var x).reason ≠ none :=
      hnone x ((seen_iff h hfalse hfound haux hx).mp hseen) hxaux
    have hclause := (rup_clause h hfalse hfound haux hnone).entails
    have hu : -u ∈ a.clause := by
      obtain hmem | herased := (haux.clause u hfound.mem).mpr (Or.inl rfl)
      · exact hmem
      · exfalso
        have huaux := (haux.erased_aux u herased).2
        obtain hstop | hstop := hfound.stop
        · rw [hstop] at huaux
          cases huaux
        · exact hreason hfound.mem haux.seen huaux hstop
    refine ⟨hclause, ?_, ?_⟩
    · intro d hd
      have hperm := newDrivingClause_some hd
      exact ⟨hperm, hperm.mem_iff.mpr hu⟩
    · intro hnull
      have hlen := newDrivingClause_none hnull
      obtain ⟨k, hk⟩ := List.length_eq_one_iff.mp
        (le_antisymm hlen (List.length_pos_of_mem hu))
      rw [hk, List.mem_singleton] at hu
      rw [hu, ← hk]
      exact hclause

/-! ### The conflict analysis -/

/-- A literal that is the only one of the conflict on its level is forced by the conflict one
level below. -/
theorem Forces.forced (h : s.Inv) (hfalse : ∀ k ∈ conflict, -k ∈ s.trail) {lit : Lit}
    (hforces : s.Forces conflict lit) :
  (s.backtrack ((s.findConflictLevel conflict).1 - 1)).Forced conflict lit
  := by
  have hlevel := hforces.level_eq (h.conflict_level_le hfalse)
  have hpos := hforces.1
  have hmem {x : Lit} : x ∈ (s.backtrack ((s.findConflictLevel conflict).1 - 1)).trail
      ↔ x ∈ s.trail ∧ (s.var x).level < (s.var lit).level := by
    rw [Search.backtrack, List.mem_filter, decide_eq_true_eq, ← hlevel]
    exact and_congr_right (fun _ => Nat.le_sub_one_iff_lt hpos)
  refine ⟨hforces.mem, ?_, ?_⟩
  · intro x hx hvidx
    have hlt := (hmem.mp hx).2
    rw [Search.var, Search.var, hvidx] at hlt
    exact lt_irrefl _ hlt
  · intro k hk hne
    rw [hmem, var_neg]
    refine ⟨hfalse k hk, ?_⟩
    by_contra hnot
    exact hne (hforces.eq_of_le hk (Nat.not_lt.mp hnot))

/-- The literals of a conflict on root level are false in every model of the root-level units. -/
theorem entails_empty (hfalse : ∀ k ∈ conflict, -k ∈ s.trail)
    (hroot : ∀ k ∈ conflict, (s.var k).level = 0) :
  Entails (s.graph conflict).clauses []
  := by
  intro σ hσ
  obtain ⟨k, hk, hvalue⟩ := hσ conflict (Or.inl rfl)
  have hfixed : (s.graph conflict).fixed (-k) := ⟨hfalse k hk, by rw [var_neg, hroot k hk]⟩
  obtain ⟨l, hl, hneg⟩ := hσ [-k] (Or.inr (Or.inr ⟨-k, hfixed, rfl⟩))
  obtain rfl := List.mem_singleton.mp hl
  change σ.value (Literal.neg k) = true at hneg
  rw [Assignment.value_neg, hvalue] at hneg
  cases hneg

/-- In every reachable state with a conflict, the analysis comes to an end.  It flips a literal
exactly when `opts.chrono` is set and the literal is the only one of the conflict on its level,
it learns the empty clause exactly when the conflict is on root level, and otherwise it learns a
clause.  The first two outcomes are always sound; a clause that is learned and the assignment of
the literal `-uip` are sound exactly when no auxiliary literal without a reason is traced. -/
theorem analyze_sound_iff (e : External) {chrono : Bool} (h : Reachable s)
    (hconf : s.IsConflict chrono conflict) :
  ∃ outcome, s.analyze e chrono conflict = some outcome
    ∧ (∀ lit, outcome = .forced lit ↔ chrono = true ∧ s.Forces conflict lit)
    ∧ (outcome = .empty ↔ ∀ k ∈ conflict, (s.var k).level = 0)
    ∧ (s.SoundOutcome chrono conflict outcome
      ↔ (∃ lit, chrono = true ∧ s.Forces conflict lit)
        ∨ (∀ k ∈ conflict, (s.var k).level = 0)
        ∨ (s.conflictState chrono conflict).NoneErased e conflict)
  := by
  have hinv := h.inv
  have hle := hinv.conflict_level_le hconf.false_
  rw [analyze]
  cases hfound : if chrono = true then (s.findConflictLevel conflict).2 else none with
  | some forced =>
      obtain ⟨rfl, hforces⟩ : chrono = true ∧ s.Forces conflict forced := by
        split at hfound
        · next hchrono => exact ⟨hchrono, (findConflictLevel_forced_iff hle).mp hfound⟩
        · cases hfound
      refine ⟨.forced forced, rfl, ?_, ?_, ?_⟩
      · intro l
        constructor
        · rintro ⟨⟩
          exact ⟨rfl, hforces⟩
        · rintro ⟨-, hl⟩
          rw [(hforces.eq_of_le hl.mem (((hl.level_eq hle).trans (hforces.level_eq hle).symm).ge))]
      · constructor
        · nofun
        · intro hroot
          exact absurd (hroot forced hforces.mem) hforces.1.ne'
      · exact iff_of_true (hforces.forced hinv hconf.false_) (Or.inl ⟨forced, rfl, hforces⟩)
  | none =>
      have hnot (l : Lit) : ¬ (chrono = true ∧ s.Forces conflict l) := by
        rintro ⟨hchrono, hforces⟩
        rw [if_pos hchrono, (findConflictLevel_forced_iff hle).mpr hforces] at hfound
        cases hfound
      obtain ⟨hstate, hfalse, hlevel⟩ := hinv.conflictState hconf
      have hzero := hinv.conflictState_level hconf
      simp only
      split
      · next hroot =>
          have hroot := hzero.mp hroot
          refine ⟨.empty, rfl, fun l => iff_of_false nofun (hnot l), iff_of_true rfl hroot, ?_⟩
          exact iff_of_true (entails_empty hconf.false_ hroot) (Or.inr (Or.inl hroot))
      · next hne =>
          obtain ⟨u, a, a₁, done, erased, hloops, hfound, haux⟩ :=
            hstate.analyzeLoops (e := e) hfalse (Nat.pos_of_ne_zero hne) (hlevel hne)
          rw [hloops]
          have hroot := mt hzero.mpr hne
          refine ⟨_, rfl, fun l => iff_of_false nofun (hnot l), iff_of_false nofun hroot, ?_⟩
          rw [or_iff_right (fun ⟨l, hl⟩ => hnot l hl), or_iff_right hroot]
          exact sound_loops_iff hstate hfalse hfound haux

/-- A literal that is given as a number. -/
def lit (n : Int) (h : n ≠ 0 := by decide) : Lit :=
  ⟨n, h⟩

/-- The decision 1, the literal 2 that is forced by (-1 2), the decision 3, and the literal 4
that is forced by (-2 -3 4). -/
def impliedAux : Search :=
  ((((Search.init.searchAssumeDecision (lit 1)).searchAssign (lit 2)
    (.clause [lit (-1), lit 2])).searchAssumeDecision (lit 3)).searchAssign (lit 4)
      (.clause [lit (-2), lit (-3), lit 4]))

theorem impliedAux_reachable :
  Reachable impliedAux
  := (((Reachable.init.step (.decide _ (by decide))).step
    (.imply _ (by decide) (by decide) (by decide))).step (.decide _ (by decide))).step
      (.imply _ (by decide) (by decide) (by decide))

theorem impliedAux_isConflict :
  impliedAux.IsConflict true [lit (-2), lit (-3), lit (-4)]
  where
    false_ := by decide
    level := nofun

/-- The auxiliary variable 2 is replaced by its reason in the clause that is learned from
(-2 -3 -4). -/
theorem analyze_sound_iff_impliedAux :
  impliedAux.analyze ⟨{2}, id⟩ true [lit (-2), lit (-3), lit (-4)]
      = some (.driving [lit (-3), lit (-1)] (lit 3) (some [lit (-3), lit (-1)]) 1)
    ∧ impliedAux.SoundOutcome true [lit (-2), lit (-3), lit (-4)]
      (.driving [lit (-3), lit (-1)] (lit 3) (some [lit (-3), lit (-1)]) 1)
  := by
  have hcall : impliedAux.analyze ⟨{2}, id⟩ true [lit (-2), lit (-3), lit (-4)]
      = some (.driving [lit (-3), lit (-1)] (lit 3) (some [lit (-3), lit (-1)]) 1) := by
    decide +kernel
  obtain ⟨outcome, hsome, -, -, hsound⟩ :=
    analyze_sound_iff ⟨{2}, id⟩ impliedAux_reachable impliedAux_isConflict
  obtain rfl := Option.some_injective _ (hsome.symm.trans hcall)
  refine ⟨hcall, hsound.mpr (Or.inr (Or.inr ?_))⟩
  intro x _ haux hnone
  have hvidx : x.vidx = 2 := Finset.mem_singleton.mp (of_decide_eq_true haux)
  rw [Search.var, hvidx] at hnone
  revert hnone
  decide +kernel

/-- The decisions 1 and 2, and the literal 3 that is forced by the clause (-2 3). -/
def twoDecisions : Search :=
  ((Search.init.searchAssumeDecision (lit 1)).searchAssumeDecision (lit 2)).searchAssign
    (lit 3) (.clause [lit (-2), lit 3])

theorem twoDecisions_reachable :
  Reachable twoDecisions
  := ((Reachable.init.step (.decide _ (by decide))).step (.decide _ (by decide))).step
    (.imply _ (by decide) (by decide) (by decide))

theorem twoDecisions_isConflict :
  twoDecisions.IsConflict true [lit (-1), lit (-2), lit (-3)]
  where
    false_ := by decide
    level := nofun

/-- With the auxiliary variable 1 as the first decision, the unit clause (-2) is learned from
the clauses (-2 3) and (-1 -2 -3), which are satisfied by -1, 2 and 3. -/
theorem not_analyze_sound :
  ¬ ∀ (e : External) (s : Search) (conflict : List Lit), Reachable s →
    s.IsConflict true conflict → ∀ outcome, s.analyze e true conflict = some outcome →
      s.SoundOutcome true conflict outcome
  := by
  intro h
  have hsound := h ⟨{1}, id⟩ twoDecisions _ twoDecisions_reachable twoDecisions_isConflict
    (.driving [lit (-2)] (lit 2) none 0) (by decide +kernel)
  obtain ⟨k, hk, hval⟩ := hsound.entails (fun v => v ≠ 1) (by
    rintro c (rfl | ⟨x, hr⟩ | ⟨x, ⟨hx, hlevel⟩, -⟩)
    · exact ⟨lit (-1), by decide, by decide⟩
    · obtain ⟨hx, hr⟩ := mem_of_graph_reason hr
      have hcases : ∀ x ∈ (twoDecisions.conflictState true [lit (-1), lit (-2), lit (-3)]).trail,
          ∀ c ∈ ((twoDecisions.conflictState true [lit (-1), lit (-2), lit (-3)]).var x).reason,
            lit 3 ∈ c := by
        decide +kernel
      exact ⟨lit 3, hcases x hx c hr, by decide⟩
    · have hcases : ∀ x ∈ (twoDecisions.conflictState true [lit (-1), lit (-2), lit (-3)]).trail,
          ((twoDecisions.conflictState true [lit (-1), lit (-2), lit (-3)]).var x).level ≠ 0 := by
        decide +kernel
      exact absurd hlevel (hcases x hx))
  rw [List.mem_singleton.mp hk] at hval
  revert hval
  decide

end Search

end Cadical
