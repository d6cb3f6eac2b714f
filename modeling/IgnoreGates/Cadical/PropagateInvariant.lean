import IgnoreGates.Cadical.WatchSteps

/-!
# Propagation keeps the invariant of the watches

The visit of a watch settles its clause: a literal of the clause is true, or the clause is
watched by a literal that has not been propagated.  The visits of all watches of a literal
settle the clauses that it watches, and every round of the loop moves `propagated` on, so that
propagation ends.
-/

namespace Cadical

open Logic

namespace Cdcl

variable {s : Cdcl} {chrono : Nat}

variable {literals : List Lit} {lit : Lit} {k : Nat}

/-! ### Searching a literal of the clause -/

/-- A replacement is a literal behind the watches that is not false. -/
theorem findReplacement_some {pos : Nat} (hpos : 2 ≤ pos)
    (h : s.findReplacement literals pos = some k) (lit : Lit) :
  2 ≤ k ∧ k < literals.length ∧ 0 ≤ s.val (literals.getD k lit)
  := by
  rw [findReplacement] at h
  split at h
  · next j hj =>
      cases h
      obtain ⟨hlt, hval⟩ := findIdx_drop hj lit
      exact ⟨by omega, hlt, of_decide_eq_true hval⟩
  · obtain ⟨j, hj, rfl⟩ := Option.map_eq_some_iff.mp h
    obtain ⟨hlt, hval⟩ := findIdx_drop hj lit
    have hlt' : 2 + j < literals.length := hlt.trans_le (List.length_take_le' _ _)
    refine ⟨by omega, hlt', ?_⟩
    rw [List.getD_eq_getElem _ _ hlt, List.getElem_take,
      ← List.getD_eq_getElem literals lit hlt'] at hval
    exact of_decide_eq_true hval

/-- Without a replacement, all literals behind the watches are false. -/
theorem findReplacement_none {pos : Nat} (h : s.findReplacement literals pos = none) :
  ∀ x ∈ literals.drop 2, s.val x < 0
  := by
  intro x hx
  rw [findReplacement] at h
  split at h
  · cases h
  · next hnone =>
      rw [Option.map_eq_none_iff, List.findIdx?_eq_none_iff] at h
      rw [List.findIdx?_eq_none_iff] at hnone
      rw [← List.take_append_drop pos literals, List.drop_append] at hx
      obtain hx | hx := List.mem_append.mp hx
      · have hval := h x hx
        rw [decide_eq_false_iff_not] at hval
        omega
      · have hval := hnone x (List.mem_of_mem_drop hx)
        rw [decide_eq_false_iff_not] at hval
        omega

/-- The literal found lies behind the watches and is on the level. -/
theorem findLevel_some {level : Nat} (h : s.findLevel literals level = some k) (lit : Lit) :
  2 ≤ k ∧ k < literals.length ∧ (s.var (literals.getD k lit)).level = level
  := by
  obtain ⟨j, hj, rfl⟩ := Option.map_eq_some_iff.mp h
  obtain ⟨hlt, hlevel⟩ := findIdx_drop hj lit
  exact ⟨by omega, hlt, of_decide_eq_true hlevel⟩

/-! ### Visiting a watch -/

variable {pre post : List Watch} {w w' : Watch} {x : Lit}

/-- What the watch that is visited says of its clause. -/
theorem Visiting.head (h : s.Visiting chrono lit pre (w :: post)) :
  w.clause < s.numClauses ∧ w.size = (s.lits w.clause).length ∧ lit ∈ (s.lits w.clause).take 2
    ∧ w.blit ∈ s.lits w.clause ∧ w.blit ≠ lit
  := by
  have hself : w ∈ Function.update s.wtab lit (pre ++ w :: post) lit := by
    rw [Function.update_self]
    exact List.mem_append_right _ List.mem_cons_self
  exact ⟨h.watches.clause lit w hself, h.watches.size lit w hself, h.watches.watched lit w hself,
    h.watches.blit lit w hself⟩

/-- A settled clause keeps its watch. -/
theorem Visiting.keep (h : s.Visiting chrono lit pre (w :: post))
    (hclause : w'.clause = w.clause) (hsize : w'.size = w.size)
    (hblit : w'.blit ∈ s.lits w.clause ∧ w'.blit ≠ lit)
    (htrue : s.conflict = none → s.HasTrue w.clause (fun _ => True)) :
  s.Visiting chrono lit (pre ++ [w']) post
  where
    clauses := h.clauses
    trail := h.trail
    lit_false := h.lit_false
    watches := by
      rw [List.append_assoc]
      exact h.watches.keep hclause hsize hblit
    levels := h.levels
    settled := by
      intro hconflict c hc hgarbage k hk hneg
      obtain hsettled | ⟨rfl, hmem⟩ := h.settled hconflict c hc hgarbage k hk hneg
      · exact Or.inl hsettled
      · rw [List.map_cons, List.mem_cons] at hmem
        obtain rfl | hmem := hmem
        · exact Or.inl (htrue hconflict)
        · exact Or.inr ⟨rfl, hmem⟩
    conflict := h.conflict

/-- A clause that is garbage loses its watch. -/
theorem Visiting.drop (h : s.Visiting chrono lit pre (w :: post))
    (hgarbage : (s.clauses w.clause).garbage = true) :
  s.Visiting chrono lit pre post
  where
    clauses := h.clauses
    trail := h.trail
    lit_false := h.lit_false
    watches := h.watches.drop (fun hlive => absurd (hgarbage.symm.trans hlive.2) (by decide))
    levels := h.levels
    settled := by
      intro hconflict c hc hg k hk hneg
      obtain hsettled | ⟨rfl, hmem⟩ := h.settled hconflict c hc hg k hk hneg
      · exact Or.inl hsettled
      · rw [List.map_cons, List.mem_cons] at hmem
        obtain rfl | hmem := hmem
        · rw [hgarbage] at hg
          cases hg
        · exact Or.inr ⟨rfl, hmem⟩
    conflict := h.conflict

/-- Assigning a literal keeps the invariant of the visits. -/
theorem Visiting.searchAssign (h : s.Visiting chrono lit pre post) {e : Edge}
    (ha : s.Assignable chrono x e) :
  (s.searchAssign chrono x e).Visiting chrono lit pre post
  where
    clauses := h.clauses.congr rfl rfl rfl
    trail := h.trail.searchAssign ha
    lit_false := by
      change -lit ∈ (s.trail ++ [x]).drop (s.start s.level)
      rw [List.drop_append_of_le_length (h.trail.start_le_length le_rfl)]
      exact List.mem_append_left _ h.lit_false
    watches := h.watches.congr rfl rfl
    levels := h.levels.searchAssign h.trail ha.val e
    settled := by
      intro hconflict c hc hgarbage k hk hneg
      have htake : (s.searchAssign chrono x e).trail.take s.propagated
          = s.trail.take s.propagated := List.take_append_of_le_length h.trail.propagated_le
      obtain hsettled | hpost := h.settled hconflict c hc hgarbage k hk (htake ▸ hneg)
      · exact Or.inl (hsettled.searchAssign x e (fun _ _ _ => trivial))
      · exact Or.inr hpost
    conflict := fun c hc => (h.conflict c hc).searchAssign ha.val e

/-- A falsified clause can be made the conflict. -/
theorem Visiting.set_conflict (h : s.Visiting chrono lit pre post) {c : Nat}
    (hc : s.WfConflict chrono c) :
  { s with conflict := some c }.Visiting chrono lit pre post
  where
    clauses := h.clauses.congr rfl rfl rfl
    trail := h.trail.congr s.wtab (some c)
    lit_false := h.lit_false
    watches := h.watches.congr rfl rfl
    levels := h.levels
    settled := by
      intro hconflict
      cases hconflict
    conflict := by
      intro c' hc'
      cases hc'
      exact ⟨hc.lt, hc.false_, hc.level⟩

/-- The saved position plays no part in the invariant. -/
theorem Visiting.setPos (h : s.Visiting chrono lit pre post) (c : Nat) (hk : 2 ≤ k) :
  (s.setPos c k).Visiting chrono lit pre post
  := by
  have hgarbage : ({ s.clauses c with pos := k } : ClauseData).garbage = false →
      (s.clauses c).garbage = false := id
  have hperm : ({ s.clauses c with pos := k } : ClauseData).literals.Perm (s.lits c) := by rfl
  have hwatched : ∀ x, x ∈ ({ s.clauses c with pos := k } : ClauseData).literals.take 2
      ↔ x ∈ s.watched c := fun _ => Iff.rfl
  refine ⟨h.clauses.setClause hperm hk, h.trail.setClause hperm, h.lit_false,
    h.watches.setClause hperm hgarbage hwatched, ?_, ?_,
    fun c' hc' => (h.conflict c' hc').setClause hperm⟩
  · intro l hl
    exact (h.levels l hl).setClause hperm hgarbage
      (fun x hx hnot => absurd ((hwatched x).mp hx) hnot)
  · intro hconflict c' hc' hg x hx hneg
    rw [Cdcl.setPos, hasTrue_setClause hperm]
    apply h.settled hconflict c' hc' (garbage_setClause hgarbage hg) x _ hneg
    obtain hx | ⟨rfl, hx⟩ := mem_watched_setClause hx
    · exact hx
    · exact hx

/-- The literal at position `k` is watched instead of `lit`. -/
theorem Visiting.move (h : s.Visiting chrono lit pre (w :: post)) (hk : 2 ≤ k)
    (hlt : k < (s.lits w.clause).length) {blit : Lit}
    (hblit : blit ∈ (s.lits w.clause).take 2)
    (hlevels : ∀ l < s.level, -(s.lits w.clause).getD k lit ∈ s.trail.take (s.start (l + 1)) →
      s.HasTrue w.clause (fun x => (s.var x).level ≤ l))
    (hsettled : s.conflict = none →
      -(s.lits w.clause).getD k lit ∈ s.trail.take s.propagated →
        s.HasTrue w.clause (fun _ => True)) :
  ((s.setLits w.clause (replaceWatch (s.lits w.clause) lit
    (otherWatch (s.lits w.clause) lit) k)).watchLiteral ((s.lits w.clause).getD k lit) blit
      w.clause).Visiting chrono lit pre post
  := by
  obtain ⟨hc, -, hlit, -, -⟩ := h.head
  have hnodup := h.clauses.nodup w.clause hc
  have hr := not_mem_watched_of_mem_drop hnodup (getD_mem_drop lit hk hlt)
  have hperm := replaceWatch_perm hlit hk hlt
  have hwatched := mem_take_replaceWatch hlit hk hlt hnodup
  generalize hreplace : replaceWatch (s.lits w.clause) lit (otherWatch (s.lits w.clause) lit) k
    = new at hperm hwatched ⊢
  generalize hget : (s.lits w.clause).getD k lit = r at hr hwatched hlevels hsettled ⊢
  have hne : r ≠ lit := fun heq => hr (heq ▸ hlit)
  have hblitr : blit ∈ s.lits w.clause ∧ blit ≠ r :=
    ⟨List.mem_of_mem_take hblit, fun heq => hr (heq ▸ hblit)⟩
  have hupdate : Function.update s.wtab lit (pre ++ w :: post) r = s.wtab r :=
    Function.update_of_ne hne _ _
  have hgarbage : ({ s.clauses w.clause with literals := new } : ClauseData).garbage = false →
      (s.clauses w.clause).garbage = false := id
  have hwatches := h.watches.move lit r (pre ++ post)
    { s.clauses w.clause with literals := new }
    (by rw [Function.update_self]; exact h.watches.mem_others)
    (by
      have hnodup := h.watches.nodup lit
      rw [Function.update_self] at hnodup
      exact hnodup.sublist (((List.sublist_cons_self w post).append_left pre).map Watch.clause))
    hc hperm hgarbage hwatched hr hne hblitr
  rw [Function.update_idem, hupdate, Function.update_comm hne.symm] at hwatches
  have hlits : (s.setLits w.clause new).lits w.clause = new := by
    rw [setLits, lits_setClause, if_pos rfl]
  have hclauses := h.clauses.setClause (d := { s.clauses w.clause with literals := new }) hperm
    (h.clauses.pos w.clause hc)
  have htrail := h.trail.setClause (d := { s.clauses w.clause with literals := new }) hperm
  refine ⟨hclauses.congr rfl rfl rfl, htrail.congr _ s.conflict, h.lit_false, ?_, ?_, ?_, ?_⟩
  · rw [watchLiteral, hlits]
    exact hwatches.congr rfl rfl
  · intro l hl
    apply (h.levels l hl).setClause hperm hgarbage
    intro x hx hnot hneg
    obtain ⟨hxw, -⟩ | rfl := (hwatched x).mp hx
    · exact absurd hxw hnot
    · exact hlevels l hl hneg
  · intro hconflict c hc' hg x hx hneg
    change (s.setClause w.clause _).HasTrue c _ ∨ _
    rw [hasTrue_setClause hperm]
    have hg' := garbage_setClause hgarbage hg
    have hold : x ∈ s.watched c → (c = w.clause → x ≠ lit) →
        s.HasTrue c (fun _ => True) ∨ x = lit ∧ c ∈ post.map Watch.clause := by
      intro hxw hnot
      obtain htrue | ⟨rfl, hmem⟩ := h.settled hconflict c hc' hg' x hxw hneg
      · exact Or.inl htrue
      · rw [List.map_cons, List.mem_cons] at hmem
        obtain heq | hmem := hmem
        · exact absurd rfl (hnot heq)
        · exact Or.inr ⟨rfl, hmem⟩
    change x ∈ (s.setClause w.clause _).watched c at hx
    rw [Cdcl.watched, lits_setClause] at hx
    split at hx
    · next heq =>
        subst heq
        obtain ⟨hxw, hxlit⟩ | rfl := (hwatched x).mp hx
        · exact hold hxw (fun _ => hxlit)
        · exact Or.inl (hsettled hconflict hneg)
    · next hne' => exact hold hx (fun heq => absurd heq hne')
  · intro c' hc'
    have hconflict := (h.conflict c' hc').setClause
      (d := { s.clauses w.clause with literals := new }) hperm
    exact ⟨hconflict.lt, hconflict.false_, hconflict.level⟩

/-! ### What propagation leaves unchanged -/

/-- The clauses have the same literals in perhaps another order, the trail of `s'` extends that
of `s` by literals that are on root level or have reasons, and nothing that does not follow is
derived. -/
structure Extends (s s' : Cdcl) : Prop where
  maxVar : s'.maxVar = s.maxVar
  numClauses : s'.numClauses = s.numClauses
  lits : ∀ c, (s'.lits c).Perm (s.lits c)
  redundant : ∀ c, (s'.clauses c).redundant = (s.clauses c).redundant
  garbage : ∀ c, (s'.clauses c).garbage = (s.clauses c).garbage
  level : s'.level = s.level
  control : s'.control = s.control
  unsat : s'.unsat = s.unsat
  propagated : s.propagated ≤ s'.propagated
  trail : ∃ new, s'.trail = s.trail ++ new ∧
    ∀ x ∈ new, 0 < (s'.var x).level → (s'.var x).reason ≠ none
  var : ∀ x ∈ s.trail, s'.var x = s.var x
  holds : ∀ P, RupClosed P → s.Holds P → s'.Holds P

theorem Extends.refl (s : Cdcl) :
  s.Extends s
  := ⟨rfl, rfl, fun _ => List.Perm.refl _, fun _ => rfl, fun _ => rfl, rfl, rfl, rfl,
    le_rfl, ⟨[], (List.append_nil _).symm, nofun⟩, fun _ _ => rfl, fun _ _ => id⟩

theorem Extends.trans {s' s'' : Cdcl} (h : s.Extends s') (h' : s'.Extends s'') :
  s.Extends s''
  := by
  obtain ⟨new, hnew, hreason⟩ := h.trail
  obtain ⟨new', hnew', hreason'⟩ := h'.trail
  refine ⟨h'.maxVar.trans h.maxVar, h'.numClauses.trans h.numClauses,
    fun c => (h'.lits c).trans (h.lits c), fun c => (h'.redundant c).trans (h.redundant c),
    fun c => (h'.garbage c).trans (h.garbage c), h'.level.trans h.level,
    h'.control.trans h.control, h'.unsat.trans h.unsat, h.propagated.trans h'.propagated,
    ⟨new ++ new', ?_, ?_⟩, ?_, fun P hP hs => h'.holds P hP (h.holds P hP hs)⟩
  · rw [hnew', hnew, List.append_assoc]
  · intro x hx
    obtain hx | hx := List.mem_append.mp hx
    · rw [h'.var x (by rw [hnew]; exact List.mem_append_right _ hx)]
      exact hreason x hx
    · exact hreason' x hx
  · intro x hx
    rw [h'.var x (by rw [hnew]; exact List.mem_append_left _ hx), h.var x hx]

/-- An assignment by a clause extends the trail by a literal that has a reason. -/
theorem extends_searchAssign (ht : s.WfTrail chrono) {c : Nat}
    (ha : s.Assignable chrono x (.clause c)) :
  s.Extends (s.searchAssign chrono x (.clause c))
  := by
  refine ⟨rfl, rfl, fun _ => List.Perm.refl _, fun _ => rfl, fun _ => rfl, rfl, rfl, rfl,
    le_rfl, ⟨[x], rfl, ?_⟩, fun y hy => searchAssign_var_of_mem ha.val _ hy,
    fun _ hP hs => hs.searchAssign hP ht ha (fun _ hne => absurd rfl (hne c))⟩
  intro y hy hpos
  rw [List.mem_singleton.mp hy, searchAssign_var_self] at hpos ⊢
  simp only [litReason]
  rw [if_neg (Nat.ne_of_gt hpos)]
  exact Option.some_ne_none c

/-- A clause may be changed as long as its literals, up to their order, and its flags stay. -/
theorem extends_setClause {c : Nat} {d : ClauseData} (hperm : d.literals.Perm (s.lits c))
    (hredundant : d.redundant = (s.clauses c).redundant)
    (hgarbage : d.garbage = (s.clauses c).garbage) :
  s.Extends (s.setClause c d)
  := by
  have hclauses : ∀ c', (s.setClause c d).clauses c' = if c' = c then d else s.clauses c' :=
    fun c' => Function.update_apply _ _ _ _
  refine ⟨rfl, rfl, ?_, ?_, ?_, rfl, rfl, rfl, le_rfl,
    ⟨[], (List.append_nil _).symm, nofun⟩, fun _ _ => rfl, ?_⟩
  · intro c'
    rw [lits_setClause]
    split
    · next heq =>
        subst heq
        exact hperm
    · rfl
  · intro c'
    rw [hclauses]
    split
    · next heq => rw [hredundant, heq]
    · rfl
  · intro c'
    rw [hclauses]
    split
    · next heq => rw [hgarbage, heq]
    · rfl
  · intro P hP hs
    refine ⟨?_, hs.root, hs.unsat⟩
    intro c' hc'
    exact hP.of_subset (hs.clauses c' hc') (fun k hk => (mem_lits_setClause hperm).mpr hk)

/-- The literals of a clause may be reordered. -/
theorem extends_setLits {c : Nat} {new : List Lit} (hperm : new.Perm (s.lits c)) :
  s.Extends (s.setLits c new)
  := extends_setClause (d := { s.clauses c with literals := new }) hperm rfl rfl

theorem extends_watchLiteral (s : Cdcl) (lit blit : Lit) (c : Nat) :
  s.Extends (s.watchLiteral lit blit c)
  := ⟨rfl, rfl, fun _ => List.Perm.refl _, fun _ => rfl, fun _ => rfl, rfl, rfl, rfl,
    le_rfl, ⟨[], (List.append_nil _).symm, nofun⟩, fun _ _ => rfl,
    fun _ _ hs => ⟨hs.clauses, hs.root, hs.unsat⟩⟩

/-- The conflict plays no part in what an extension says. -/
theorem extends_conflict (s : Cdcl) (conflict : Option Nat) :
  s.Extends { s with conflict := conflict }
  := ⟨rfl, rfl, fun _ => List.Perm.refl _, fun _ => rfl, fun _ => rfl, rfl, rfl, rfl,
    le_rfl, ⟨[], (List.append_nil _).symm, nofun⟩, fun _ _ => rfl,
    fun _ _ hs => ⟨hs.clauses, hs.root, hs.unsat⟩⟩

/-! ### The cases of a visit -/

/-- What a visit has to show. -/
structure Visited (s : Cdcl) (chrono : Nat) (lit : Lit) (pre post : List Watch) (v : Visit) :
    Prop where
  extends_ : s.Extends v.solver
  visiting : v.solver.Visiting chrono lit (pre ++ v.keep.toList) post
  stop : v.stop = true → v.solver.conflict ≠ none

/-- The last literal of the clause that is not false can be assigned. -/
theorem Visiting.assignable (h : s.Visiting chrono lit pre (w :: post))
    (hx : x ∈ s.lits w.clause) (hne : x ≠ lit) (hval : s.val x = 0)
    (hfalse : ∀ k ∈ s.lits w.clause, k ≠ x → -k ∈ s.trail) :
  s.Assignable chrono x (.clause w.clause)
  := by
  obtain ⟨hc, -, hlit, -, -⟩ := h.head
  have hmem : lit ∈ s.lits w.clause := List.mem_of_mem_take hlit
  refine ⟨hval, h.clauses.vidx_le w.clause hc x hx, ?_, nofun, ?_⟩
  · intro c heq
    cases heq
    exact ⟨hc, hx, hfalse⟩
  · intro hchrono
    apply le_antisymm
    · apply Search.assignmentLevel_le
      intro k hk hkx
      rw [← Search.var_neg]
      exact h.trail.search.level_le _ (hfalse k hk hkx)
    · have hlevel := h.trail.le_level hchrono s.level le_rfl (-lit) h.lit_false
      rw [Cdcl.var_neg] at hlevel
      exact hlevel.trans (Search.le_assignmentLevel (s := s.toSearch) hmem hne.symm)

/-- A clause all of whose literals are false may become the conflict. -/
theorem Visiting.wfConflict (h : s.Visiting chrono lit pre (w :: post))
    (hfalse : ∀ k ∈ s.lits w.clause, -k ∈ s.trail) :
  s.WfConflict chrono w.clause
  where
    lt := h.head.1
    false_ := hfalse
    level := by
      intro hchrono
      refine ⟨lit, List.mem_of_mem_take h.head.2.2.1, ?_⟩
      have hge := h.trail.le_level hchrono s.level le_rfl (-lit) h.lit_false
      have hle := h.trail.search.level_le (-lit) (List.mem_of_mem_drop h.lit_false)
      rw [Cdcl.var_neg] at hge
      rw [Search.var_neg] at hle
      exact le_antisymm hle hge

/-- The other watched literal is assigned. -/
theorem Visiting.propagateUnit (h : s.Visiting chrono lit pre (w :: post))
    (hval : s.val (otherWatch (s.lits w.clause) lit) = 0)
    (hfalse : ∀ k ∈ (s.lits w.clause).drop 2, s.val k < 0) :
  s.Visited chrono lit pre post
    (s.propagateUnit chrono lit (otherWatch (s.lits w.clause) lit) w)
  := by
  obtain ⟨hc, -, hlit, hblit⟩ := h.head
  have hlength := h.clauses.length w.clause hc
  have hmem := otherWatch_mem hlit hlength
  have hne := otherWatch_ne hlit hlength (h.clauses.nodup w.clause hc)
  have hothers : ∀ k ∈ s.lits w.clause, k ≠ otherWatch (s.lits w.clause) lit →
      -k ∈ s.trail := by
    intro k hk hkne
    obtain rfl | heq | hdrop := mem_watched_or_drop hlit hlength hk
    · exact List.mem_of_mem_drop h.lit_false
    · exact absurd heq hkne
    · exact ((s.val_neg_iff k).mp (hfalse k hdrop)).2
  have ha := h.assignable (List.mem_of_mem_take hmem) hne hval hothers
  have hassigned := h.searchAssign ha
  have hextends := extends_searchAssign h.trail ha
  rw [Cdcl.propagateUnit]
  generalize hs' : s.searchAssign chrono (otherWatch (s.lits w.clause) lit) (.clause w.clause)
    = s' at hassigned hextends
  have hlits : s'.lits w.clause = s.lits w.clause := by
    rw [← hs']
    rfl
  have htrail : otherWatch (s.lits w.clause) lit ∈ s'.trail := by
    rw [← hs']
    exact List.mem_append_right _ (List.mem_singleton_self _)
  rw [← hlits] at hmem htrail hblit ⊢
  have htrue {ok : Lit → Prop} (hok : ok (otherWatch (s'.lits w.clause) lit)) :
      s'.HasTrue w.clause ok := ⟨_, List.mem_of_mem_take hmem, htrail, hok⟩
  have hkeep : s.Visited chrono lit pre post ⟨some w, false, s'⟩ :=
    ⟨hextends, hassigned.keep rfl rfl hblit (fun _ => htrue trivial), nofun⟩
  split
  · split
    · exact hkeep
    · next k hk =>
        obtain ⟨hk2, hlt, hlevel⟩ := findLevel_some hk lit
        have hperm := replaceWatch_perm (hlits ▸ hlit) hk2 hlt
        refine ⟨hextends.trans ((extends_setLits hperm).trans
          (extends_watchLiteral _ _ _ _)), ?_, nofun⟩
        rw [Option.toList_none, List.append_nil]
        apply hassigned.move hk2 hlt hmem
        · intro l hl hneg
          apply htrue
          rw [← hlevel, ← Cdcl.var_neg]
          exact hassigned.trail.level_le l hl _ hneg
        · intro _ _
          exact htrue trivial
  · exact hkeep

/-- The clause of a watch is large and not garbage. -/
theorem Visiting.visitLarge (h : s.Visiting chrono lit pre (w :: post)) :
  s.Visited chrono lit pre post (s.visitLarge chrono lit w)
  := by
  obtain ⟨hc, -, hlit, hblit⟩ := h.head
  have hlength := h.clauses.length w.clause hc
  have hmem := otherWatch_mem hlit hlength
  have hne := otherWatch_ne hlit hlength (h.clauses.nodup w.clause hc)
  rw [Cdcl.visitLarge]
  simp only
  split
  · next hval =>
      refine ⟨Extends.refl s, ?_, nofun⟩
      have hother := List.mem_of_mem_take hmem
      exact h.keep rfl rfl ⟨hother, hne⟩
        (fun _ => ⟨_, hother, (s.val_pos_iff _).mp hval, trivial⟩)
  · split
    · next hval k hk =>
        obtain ⟨hk2, hlt, hkval⟩ := findReplacement_some (h.clauses.pos w.clause hc) hk lit
        have hdrop := getD_mem_drop lit hk2 hlt
        have hposed := h.setPos w.clause hk2
        have hextends : s.Extends (s.setPos w.clause k) :=
          extends_setClause (d := { s.clauses w.clause with pos := k }) (List.Perm.refl _) rfl rfl
        have hlits : (s.setPos w.clause k).lits w.clause = s.lits w.clause := by
          rw [Cdcl.setPos, lits_setClause, if_pos rfl]
          rfl
        have hnot := not_mem_watched_of_mem_drop (h.clauses.nodup w.clause hc) hdrop
        rw [← hlits] at hlit hdrop hnot hmem hlt ⊢
        split
        · next hrval =>
            refine ⟨hextends, ?_, nofun⟩
            have hr := List.mem_of_mem_drop hdrop
            have hrlit : ((s.setPos w.clause k).lits w.clause).getD k lit ≠ lit := by
              intro heq
              rw [heq] at hnot
              exact hnot hlit
            exact hposed.keep rfl rfl ⟨hr, hrlit⟩
              (fun _ => ⟨_, hr, (Cdcl.val_pos_iff _ _).mp hrval, trivial⟩)
        · next hrval =>
            have hperm := replaceWatch_perm hlit hk2 hlt
            have hun := (s.val_eq_zero_iff _).mp (le_antisymm (not_lt.mp hrval)
              (by rw [hlits]; exact hkval))
            refine ⟨hextends.trans ((extends_setLits hperm).trans
              (extends_watchLiteral _ _ _ _)), ?_, nofun⟩
            rw [Option.toList_none, List.append_nil]
            apply hposed.move hk2 hlt hlit
            · intro l _ hneg
              exact absurd (List.mem_of_mem_take hneg) hun.2
            · intro _ hneg
              exact absurd (List.mem_of_mem_take hneg) hun.2
    · next hval hnone =>
        have hfalse := findReplacement_none hnone
        split
        · next hzero => exact h.propagateUnit hzero hfalse
        · next hzero =>
            refine ⟨extends_conflict s _, ?_, fun _ => Option.some_ne_none _⟩
            have hconflict : s.WfConflict chrono w.clause := by
              apply h.wfConflict
              intro k hk
              obtain rfl | rfl | hdrop := mem_watched_or_drop hlit hlength hk
              · exact List.mem_of_mem_drop h.lit_false
              · exact ((s.val_neg_iff _).mp (by omega)).2
              · exact ((s.val_neg_iff k).mp (hfalse k hdrop)).2
            exact (h.set_conflict hconflict).keep rfl rfl hblit nofun

/-- In a binary clause the blocking literal is the other watch. -/
theorem Visiting.binary (h : s.Visiting chrono lit pre (w :: post)) (hbinary : w.binary = true)
    {k : Lit} (hk : k ∈ s.lits w.clause) :
  k = lit ∨ k = w.blit
  := by
  obtain ⟨-, hsize, hlit, hblit, hne⟩ := h.head
  rw [Watch.binary, decide_eq_true_eq, hsize] at hbinary
  exact eq_or_eq_of_binary hlit hbinary hblit hne hk

/-- Each of the branches of a visit keeps the invariant. -/
theorem Visiting.visit (h : s.Visiting chrono lit pre (w :: post)) :
  s.Visited chrono lit pre post (s.visit chrono lit w)
  := by
  obtain ⟨-, -, -, hblit⟩ := h.head
  rw [Cdcl.visit]
  split
  · next hval =>
      exact ⟨Extends.refl s, h.keep rfl rfl hblit
        (fun _ => ⟨_, hblit.1, (s.val_pos_iff _).mp hval, trivial⟩), nofun⟩
  · next hval =>
      split
      · next hbinary =>
          split
          · next hneg =>
              refine ⟨extends_conflict s _, ?_, nofun⟩
              have hconflict : s.WfConflict chrono w.clause := by
                apply h.wfConflict
                intro k hk
                obtain rfl | rfl := h.binary hbinary hk
                · exact List.mem_of_mem_drop h.lit_false
                · exact ((s.val_neg_iff _).mp hneg).2
              exact (h.set_conflict hconflict).keep rfl rfl hblit nofun
          · next hneg =>
              have hzero : s.val w.blit = 0 := by omega
              have ha : s.Assignable chrono w.blit (.clause w.clause) := by
                apply h.assignable hblit.1 hblit.2 hzero
                intro k hk hne
                rw [(h.binary hbinary hk).resolve_right hne]
                exact List.mem_of_mem_drop h.lit_false
              refine ⟨extends_searchAssign h.trail ha, ?_, nofun⟩
              apply (h.searchAssign ha).keep rfl rfl hblit
              intro _
              exact ⟨w.blit, hblit.1, List.mem_append_right _ (List.mem_singleton_self _), trivial⟩
      · split
        · next hconflict =>
            have hsome : s.conflict ≠ none := Option.isSome_iff_ne_none.mp hconflict
            exact ⟨Extends.refl s, h.keep rfl rfl hblit (fun hnone => absurd hnone hsome),
              fun _ => hsome⟩
        · split
          · next hgarbage =>
              refine ⟨Extends.refl s, ?_, nofun⟩
              rw [Option.toList_none, List.append_nil]
              exact h.drop hgarbage
          · exact h.visitLarge

/-! ### The loops -/

/-- All watches of the literal are visited, by induction on those still to come. -/
theorem Visiting.visits {ws : List Watch} (h : s.Visiting chrono lit pre ws) :
  s.Extends (Cdcl.visits chrono lit ws s).2
    ∧ (Cdcl.visits chrono lit ws s).2.Visiting chrono lit (pre ++ (Cdcl.visits chrono lit ws s).1) []
  := by
  induction ws generalizing s pre with
  | nil =>
      rw [Cdcl.visits, List.append_nil]
      exact ⟨Extends.refl s, h⟩
  | cons w ws ih =>
      have hvisited := h.visit
      rw [Cdcl.visits]
      generalize s.visit chrono lit w = v at hvisited
      simp only
      split
      · next hstop =>
          refine ⟨hvisited.extends_, ?_⟩
          have hconflict := hvisited.stop hstop
          obtain ⟨hclauses, htrail, hlit, hwatches, hlevels, -, hconf⟩ := hvisited.visiting
          refine ⟨hclauses, htrail, hlit, ?_, hlevels, fun hnone => absurd hnone hconflict, hconf⟩
          rwa [List.append_nil, ← List.append_assoc]
      · obtain ⟨hextends, hvisiting⟩ := ih hvisited.visiting
        refine ⟨hvisited.extends_.trans hextends, ?_⟩
        rwa [← List.append_assoc]

/-- The watches of the next literal of the trail are visited. -/
theorem Inv.visiting (h : s.Inv chrono) (hconflict : s.conflict = none) {y : Lit}
    (hy : s.trail[s.propagated]? = some y) :
  { s with propagated := s.propagated + 1 }.Visiting chrono (-y) [] (s.wtab (-y))
  := by
  obtain ⟨hlt, hget⟩ := List.getElem?_eq_some_iff.mp hy
  have htrail : { s with propagated := s.propagated + 1 }.WfTrail chrono :=
    ⟨h.trail.search, h.trail.vidx_le, h.trail.reason, h.trail.control, h.trail.start_mono,
      h.trail.start_le.trans (Nat.le_succ _), hlt, h.trail.level_le, h.trail.le_level⟩
  refine ⟨h.clauses.congr rfl rfl rfl, htrail, ?_, ?_, h.levels, ?_, ?_⟩
  · rw [Lit.neg_neg, ← hget]
    have hle : s.start s.level ≤ s.propagated := h.trail.start_le
    apply List.mem_iff_getElem.mpr
    refine ⟨s.propagated - s.start s.level, ?_, ?_⟩
    · rw [List.length_drop]
      exact Nat.sub_lt_sub_right hle hlt
    · rw [List.getElem_drop]
      congr 1
      exact Nat.add_sub_cancel' hle
  · rw [List.nil_append, Function.update_eq_self]
    exact h.watches.congr rfl rfl
  · intro _ c hc hgarbage k hk hneg
    change -k ∈ s.trail.take (s.propagated + 1) at hneg
    rw [List.take_add_one, hy, Option.toList_some, List.mem_append, List.mem_singleton] at hneg
    obtain hneg | rfl := hneg
    · exact Or.inl (h.settled hconflict c hc hgarbage k hk hneg)
    · rw [Lit.neg_neg]
      exact Or.inr ⟨rfl, h.watches.exists_ c ⟨hc, hgarbage⟩ k hk⟩
  · intro c hc
    rw [hconflict] at hc
    cases hc

/-- Propagating the next literal of the trail extends it and keeps the invariant. -/
theorem Inv.propagateLiteral (h : s.Inv chrono) (hconflict : s.conflict = none) {y : Lit}
    (hy : s.trail[s.propagated]? = some y) :
  { s with propagated := s.propagated + 1 }.Extends
      ({ s with propagated := s.propagated + 1 }.propagateLiteral chrono (-y))
    ∧ ({ s with propagated := s.propagated + 1 }.propagateLiteral chrono (-y)).Inv chrono
  := by
  obtain ⟨hextends, hvisiting⟩ := (h.visiting hconflict hy).visits
  rw [Cdcl.propagateLiteral]
  generalize visits chrono (-y) (s.wtab (-y)) { s with propagated := s.propagated + 1 } = r
    at hextends hvisiting
  obtain ⟨ws, s'⟩ := r
  obtain ⟨hclauses, htrail, -, hwatches, hlevels, hsettled, hconf⟩ := hvisiting
  refine ⟨⟨hextends.maxVar, hextends.numClauses, hextends.lits, hextends.redundant,
    hextends.garbage, hextends.level, hextends.control, hextends.unsat, hextends.propagated,
    hextends.trail, hextends.var,
    fun P hP hs => ⟨(hextends.holds P hP hs).clauses, (hextends.holds P hP hs).root,
      (hextends.holds P hP hs).unsat⟩⟩, hclauses.congr rfl rfl rfl, htrail.congr _ s'.conflict, ?_,
    hlevels, ?_, fun c hc => ⟨(hconf c hc).lt, (hconf c hc).false_, (hconf c hc).level⟩⟩
  · rw [List.nil_append, List.append_nil] at hwatches
    exact hwatches.congr rfl rfl
  · intro hnone c hc hgarbage k hk hneg
    obtain htrue | ⟨-, hmem⟩ := hsettled hnone c hc hgarbage k hk hneg
    · exact htrue
    · cases hmem

/-- The propagation ends, since each round moves on by a literal and the trail holds a variable only
once. -/
theorem Inv.propagateLoop (n : Nat) (h : s.Inv chrono) (hn : s.maxVar - s.propagated ≤ n) :
  ∃ s', Cdcl.propagateLoop chrono n s = some s' ∧ s.Extends s' ∧ s'.Inv chrono
    ∧ (s'.conflict = none → s'.propagated = s'.trail.length)
  := by
  have hlength := h.trail.length_le
  have hle := h.trail.propagated_le
  have hdone : s.conflict.isSome ∨ s.propagated = s.trail.length →
      s.conflict = none → s.propagated = s.trail.length := by
    rintro (hsome | heq) hnone
    · rw [hnone] at hsome
      cases hsome
    · exact heq
  induction n generalizing s with
  | zero =>
      have hend : s.propagated = s.trail.length := by omega
      rw [Cdcl.propagateLoop, if_pos (Or.inr hend)]
      exact ⟨s, rfl, Extends.refl s, h, fun _ => hend⟩
  | succ n ih =>
      rw [Cdcl.propagateLoop]
      split
      · next hend => exact ⟨s, rfl, Extends.refl s, h, hdone hend⟩
      · next hgo =>
          obtain ⟨hconflict, hend⟩ := not_or.mp hgo
          have hlt : s.propagated < s.trail.length := lt_of_le_of_ne hle hend
          have hy := List.getElem?_eq_getElem hlt
          rw [hy]
          simp only
          have hnone : s.conflict = none := by
            rwa [Bool.not_eq_true, Option.isSome_eq_false_iff, Option.isNone_iff_eq_none]
              at hconflict
          obtain ⟨hextends, hinv⟩ := h.propagateLiteral hnone hy
          obtain ⟨s', hloop, hextends', hinv', hall⟩ := ih hinv
            (by
              have hmax := hextends.maxVar
              have hprop := hextends.propagated
              change _ = s.maxVar at hmax
              change s.propagated + 1 ≤ _ at hprop
              omega)
            hinv.trail.length_le hinv.trail.propagated_le (fun hor hnone => hor.elim
              (fun hsome => by rw [hnone] at hsome; cases hsome) id)
          refine ⟨s', hloop, ?_, hinv', hall⟩
          have hmove : s.Extends { s with propagated := s.propagated + 1 } :=
            ⟨rfl, rfl, fun _ => List.Perm.refl _, fun _ => rfl, fun _ => rfl, rfl, rfl, rfl,
              Nat.le_succ _, ⟨[], (List.append_nil _).symm, nofun⟩, fun _ _ => rfl,
              fun _ _ hs => ⟨hs.clauses, hs.root, hs.unsat⟩⟩
          exact (hmove.trans hextends).trans hextends'

/-- Propagation ends with a conflict or with the whole trail propagated. -/
theorem Inv.propagate (h : s.Inv chrono) :
  ∃ s', s.propagate chrono = some s' ∧ s.Extends s' ∧ s'.Inv chrono
    ∧ (s'.conflict = none → s'.propagated = s'.trail.length)
  := h.propagateLoop s.maxVar (Nat.sub_le _ _)

/-- When everything has been propagated, a clause has a true literal, or its watched literals
are not false. -/
theorem Inv.propagated (h : s.Inv chrono) (hconflict : s.conflict = none)
    (hall : s.propagated = s.trail.length) {c : Nat} (hc : c < s.numClauses)
    (hgarbage : (s.clauses c).garbage = false) :
  (∃ x ∈ s.lits c, x ∈ s.trail) ∨ ∀ k ∈ s.watched c, -k ∉ s.trail
  := by
  by_cases hfalse : ∃ k ∈ s.watched c, -k ∈ s.trail
  · obtain ⟨k, hk, hneg⟩ := hfalse
    obtain ⟨x, hx, htrail, -⟩ := h.settled hconflict c hc hgarbage k hk
      (by rwa [hall, List.take_length])
    exact Or.inl ⟨x, hx, htrail⟩
  · right
    intro k hk hneg
    exact hfalse ⟨k, hk, hneg⟩

end Cdcl

end Cadical
