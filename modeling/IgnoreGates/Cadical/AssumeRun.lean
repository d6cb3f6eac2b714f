import IgnoreGates.Cadical.Assume

/-!
# Runs under assumptions

The levels of the assumptions come first: on them only assumptions are decided, and the
assumption of a level that has been entered is true.  So the search is satisfied only by models
of the assumptions and the constraint, and a literal traced back to its decisions is traced
back to assumptions.
-/

namespace Cadical

open Logic

namespace Cdcl

variable {s : Cdcl} {o : Options} {e : External} {F : Set (Clause Lit)} {a : Assuming}

/-! ### Decisions -/

/-- The literal of a constraint that is true, or that is decided. -/
theorem decideConstraint_spec {chrono : Nat} {constraint : List Lit} {unassignedLit : Option Lit}
    {t : Cdcl} (hun : ∀ lit, unassignedLit = some lit → lit ∈ a.constraint ∧ s.val lit = 0)
    (hsub : constraint ⊆ a.constraint)
    (h : s.decideConstraint chrono constraint unassignedLit = .next t) :
  ∃ lit ∈ a.constraint, lit ∈ s.trail ∧ t = s.newLevel
    ∨ s.val lit = 0 ∧ t = s.searchAssumeDecision chrono lit
  := by
  induction constraint generalizing unassignedLit with
  | nil =>
      cases unassignedLit with
      | none => cases h
      | some lit =>
          cases h
          exact ⟨lit, (hun lit rfl).1, Or.inr ⟨(hun lit rfl).2, rfl⟩⟩
  | cons lit constraint ih =>
      have hlit := hsub List.mem_cons_self
      have hrest : constraint ⊆ a.constraint := fun k hk => hsub (List.mem_cons_of_mem lit hk)
      rw [decideConstraint] at h
      split at h
      · exact ih hun hrest h
      · split at h
        · next hpos =>
            cases h
            exact ⟨lit, hlit, Or.inl ⟨(s.val_pos_iff lit).mp hpos, rfl⟩⟩
        · apply ih _ hrest h
          intro k hk
          cases unassignedLit with
          | none =>
              cases hk
              exact ⟨hlit, by omega⟩
          | some k' =>
              cases hk
              exact hun k rfl

/-- The constraint is falsified only when all its literals are false. -/
theorem decideConstraint_failed {chrono : Nat} {constraint : List Lit}
    {unassignedLit : Option Lit} {unsatConstraint : Bool}
    (h : s.decideConstraint chrono constraint unassignedLit = .failed unsatConstraint) :
  unsatConstraint = true ∧ ∀ k ∈ constraint, -k ∈ s.trail
  := by
  induction constraint generalizing unassignedLit with
  | nil =>
      cases unassignedLit with
      | none =>
          cases h
          exact ⟨rfl, nofun⟩
      | some lit => cases h
  | cons lit constraint ih =>
      rw [decideConstraint] at h
      split at h
      · next hneg =>
          obtain ⟨htrue, hall⟩ := ih h
          exact ⟨htrue, List.forall_mem_cons.mpr ⟨((s.val_neg_iff lit).mp hneg).2, hall⟩⟩
      · split at h
        · cases h
        · exfalso
          have hsome {constraint : List Lit} {lit : Lit} :
              s.decideConstraint chrono constraint (some lit) ≠ .failed unsatConstraint := by
            induction constraint with
            | nil => nofun
            | cons k constraint ih' =>
                rw [decideConstraint]
                split
                · exact ih'
                · split
                  · nofun
                  · exact ih'
          cases unassignedLit with
          | none => exact hsome h
          | some k => exact hsome h

/-- The decisions: on the levels of the assumptions, on that of the constraint, and the others. -/
theorem decide_next {chrono : Nat} {decision : Lit} {t : Cdcl}
    (h : s.decide chrono a decision = .next t) :
  (∃ lit, a.assumptions[s.level]? = some lit ∧ (lit ∈ s.trail ∧ t = s.newLevel
      ∨ s.val lit = 0 ∧ t = s.searchAssumeDecision chrono lit))
    ∨ (s.level = a.assumptions.length ∧ ∃ lit ∈ a.constraint, lit ∈ s.trail ∧ t = s.newLevel
      ∨ s.val lit = 0 ∧ t = s.searchAssumeDecision chrono lit)
    ∨ a.assumptions.length + (if a.constraint = [] then 0 else 1) ≤ s.level
      ∧ t = s.searchAssumeDecision chrono decision
  := by
  rw [Cdcl.decide] at h
  split at h
  · next lit hlit =>
      refine Or.inl ⟨lit, hlit, ?_⟩
      split at h
      · cases h
      · split at h
        · next hpos =>
            cases h
            exact Or.inl ⟨(s.val_pos_iff lit).mp hpos, rfl⟩
        · cases h
          exact Or.inr ⟨by omega, rfl⟩
  · next hnone =>
      have hle := List.getElem?_eq_none_iff.mp hnone
      split at h
      · next hconstraint =>
          exact Or.inr (Or.inl ⟨hconstraint.1,
            decideConstraint_spec (fun _ hsome => absurd hsome.symm (Option.some_ne_none _))
              (List.Subset.refl a.constraint) h⟩)
      · next hconstraint =>
          cases h
          refine Or.inr (Or.inr ⟨?_, rfl⟩)
          split
          · exact hle
          · next hne =>
              exact Nat.lt_of_le_of_ne hle (fun heq => hconstraint ⟨heq.symm, hne⟩)

theorem decide_failed {chrono : Nat} {decision : Lit} {unsatConstraint : Bool}
    (h : s.decide chrono a decision = .failed unsatConstraint) :
  (unsatConstraint = false ∧ s.level < a.assumptions.length
      ∧ ∃ lit ∈ a.assumptions, lit ∉ s.trail ∧ -lit ∈ s.trail)
    ∨ unsatConstraint = true ∧ s.level = a.assumptions.length
      ∧ ∀ k ∈ a.constraint, -k ∈ s.trail
  := by
  rw [Cdcl.decide] at h
  split at h
  · next lit hlit =>
      split at h
      · next hneg =>
          cases h
          obtain ⟨hlt, heq⟩ := List.getElem?_eq_some_iff.mp hlit
          exact Or.inl ⟨rfl, hlt, lit, heq ▸ List.getElem_mem hlt, (s.val_neg_iff lit).mp hneg⟩
      · split at h
        · cases h
        · cases h
  · split at h
    · next hconstraint =>
        obtain ⟨htrue, hall⟩ := decideConstraint_failed h
        exact Or.inr ⟨htrue, hconstraint.1, hall⟩
    · cases h

/-! ### The levels of the assumptions -/

/-- The assumption of a level that has been entered is true since then, a decision on the levels
of the assumptions is one of them, and behind these levels the constraint is satisfied. -/
structure Assumed (s : Cdcl) (e : External) (a : Assuming) : Prop where
  vars : ∀ x ∈ a.assumptions ++ a.constraint, x.vidx ≤ s.maxVar ∧ e.isAux x = false
  entered : ∀ l < s.level, ∀ x, a.assumptions[l]? = some x →
    x ∈ s.trail ∧ (s.var x).level ≤ l + 1
  decision : ∀ x ∈ s.trail, (s.var x).reason = none → 0 < (s.var x).level →
    (s.var x).level ≤ a.assumptions.length → x ∈ a.assumptions
  constraint : a.assumptions.length < s.level → a.constraint ≠ [] →
    ∃ x ∈ a.constraint, x ∈ s.trail ∧ (s.var x).level ≤ a.assumptions.length + 1

theorem Assumed.keeps {t : Cdcl} (h : s.Assumed e a) (hk : s.Keeps t) :
  t.Assumed e a
  where
    vars := by
      rw [hk.maxVar]
      exact h.vars
    entered := by
      intro l hl x hx
      obtain ⟨hmem, hlevel⟩ := h.entered l (hl.trans_le hk.level_le) x hx
      obtain ⟨hmem', hvar⟩ := hk.stays x hmem (hlevel.trans hl)
      exact ⟨hmem', hvar ▸ hlevel⟩
    decision := by
      intro x hx hnone hpos hle
      obtain ⟨hmem, hvar⟩ | hnew := hk.new x hx
      · rw [hvar] at hnone hpos hle
        exact h.decision x hmem hnone hpos hle
      · exact absurd hnone (hnew hpos)
    constraint := by
      intro hlt hne
      obtain ⟨x, hx, hmem, hlevel⟩ := h.constraint (hlt.trans_le hk.level_le) hne
      obtain ⟨hmem', hvar⟩ := hk.stays x hmem (hlevel.trans hlt)
      exact ⟨x, hx, hmem', hvar ▸ hlevel⟩

/-- A level is entered whose assumption is true. -/
theorem Assumed.newLevel (h : s.Assumed e a)
    (hentered : ∀ x, a.assumptions[s.level]? = some x → x ∈ s.trail ∧ (s.var x).level ≤ s.level + 1)
    (hconstraint : s.level = a.assumptions.length → a.constraint ≠ [] →
      ∃ x ∈ a.constraint, x ∈ s.trail ∧ (s.var x).level ≤ a.assumptions.length + 1) :
  s.newLevel.Assumed e a
  where
    vars := h.vars
    entered := by
      intro l hl x hx
      obtain hlt | rfl := Nat.lt_or_eq_of_le (Nat.le_of_lt_succ hl)
      · exact h.entered l hlt x hx
      · exact hentered x hx
    decision := h.decision
    constraint := by
      intro hlt hne
      obtain hlt | heq := Nat.lt_or_eq_of_le (Nat.le_of_lt_succ hlt)
      · exact h.constraint hlt hne
      · exact hconstraint heq.symm hne

/-- A level is entered, and its assumption is decided. -/
theorem Assumed.searchAssumeDecision (h : s.Assumed e a) (chrono : Nat) {lit : Lit}
    (hval : s.val lit = 0) (hentered : ∀ x, a.assumptions[s.level]? = some x → x = lit)
    (hconstraint : s.level = a.assumptions.length → a.constraint ≠ [] → lit ∈ a.constraint) :
  (s.searchAssumeDecision chrono lit).Assumed e a
  := by
  have hself : (s.searchAssumeDecision chrono lit).var lit = ⟨s.level + 1, none⟩ :=
    searchAssign_var_self (s := s.newLevel) lit .decision
  have hmem : lit ∈ (s.searchAssumeDecision chrono lit).trail :=
    List.mem_append_right _ (List.mem_singleton_self lit)
  have hold {x : Lit} (hx : x ∈ s.trail) :
      x ∈ (s.searchAssumeDecision chrono lit).trail
        ∧ (s.searchAssumeDecision chrono lit).var x = s.var x :=
    ⟨List.mem_append_left _ hx, searchAssign_var_of_mem (s := s.newLevel) hval .decision hx⟩
  refine ⟨h.vars, ?_, ?_, ?_⟩
  · intro l hl x hx
    obtain hlt | rfl := Nat.lt_or_eq_of_le (Nat.le_of_lt_succ hl)
    · obtain ⟨hxmem, hlevel⟩ := h.entered l hlt x hx
      exact ⟨(hold hxmem).1, (hold hxmem).2 ▸ hlevel⟩
    · rw [hentered x hx, hself]
      exact ⟨hmem, le_rfl⟩
  · intro x hx hnone hpos hle
    obtain hx | hx := List.mem_append.mp hx
    · rw [(hold hx).2] at hnone hpos hle
      exact h.decision x hx hnone hpos hle
    · rw [List.mem_singleton.mp hx] at hle ⊢
      rw [hself] at hle
      have hx := hentered _ (List.getElem?_eq_getElem hle)
      exact hx ▸ List.getElem_mem hle
  · intro hlt hne
    obtain hlt | heq := Nat.lt_or_eq_of_le (Nat.le_of_lt_succ hlt)
    · obtain ⟨x, hx, hxmem, hlevel⟩ := h.constraint hlt hne
      exact ⟨x, hx, (hold hxmem).1, (hold hxmem).2 ▸ hlevel⟩
    · refine ⟨lit, hconstraint heq.symm hne, hmem, ?_⟩
      rw [hself, heq]

/-! ### Runs -/

/-- The states that a call of `solve` reaches, which starts on root level.  The assumptions and the
literals of the constraint are not auxiliary, nor are the variables decided on behind them. -/
inductive Solving (e : External) (o : Options) (F : Set (Clause Lit)) (a : Assuming) : Cdcl → Prop
  | start {s : Cdcl} (h : Reachable e o F s) (hunsat : s.unsat = false)
      (hvars : ∀ x ∈ a.assumptions ++ a.constraint, x.vidx ≤ s.maxVar ∧ e.isAux x = false) :
      Solving e o F a (s.backtrack 0)
  | search {s t : Cdcl} (h : Solving e o F a s) (hunsat : s.unsat = false)
      (heuristics : Heuristics) (ht : s.propagateAndAnalyze e o heuristics = some t) :
      Solving e o F a t
  | decide {s t : Cdcl} {decision : Lit} (h : Solving e o F a s) (hunsat : s.unsat = false)
      (hall : s.propagated = s.trail.length)
      (hdecision : a.assumptions.length + (if a.constraint = [] then 0 else 1) ≤ s.level →
        s.val decision = 0 ∧ decision.vidx ≤ s.maxVar ∧ e.isAux decision = false)
      (ht : s.decide o.chrono a decision = .next t) :
      Solving e o F a t
  | restart {s : Cdcl} {n : Nat} (h : Solving e o F a s) (hunsat : s.unsat = false)
      (hn : n ≤ s.level) :
      Solving e o F a (s.backtrack n)
  | markGarbage {s : Cdcl} {c : Nat} (h : Solving e o F a s) (hunsat : s.unsat = false)
      (hc : s.Useless c) :
      Solving e o F a (s.markGarbage c)

/-- What is decided is an assumption, a literal of the constraint, or the literal chosen. -/
theorem Assumed.decide {t : Cdcl} (h : s.Assumed e a) (hreach : Reachable e o F s)
    (hunsat : s.unsat = false) (hall : s.propagated = s.trail.length) {decision : Lit}
    (hdecision : a.assumptions.length + (if a.constraint = [] then 0 else 1) ≤ s.level →
      s.val decision = 0 ∧ decision.vidx ≤ s.maxVar ∧ e.isAux decision = false)
    (ht : s.decide o.chrono a decision = .next t) :
  Reachable e o F t ∧ t.Assumed e a
  := by
  have hle {x : Lit} (hx : x ∈ s.trail) : (s.var x).level ≤ s.level :=
    hreach.ok.inv.trail.search.level_le x hx
  have hdecide {x : Lit} (hx : x ∈ a.assumptions ++ a.constraint) (hxval : s.val x = 0) :
      Reachable e o F (s.searchAssumeDecision o.chrono x) :=
    hreach.decide hunsat hall hxval (h.vars x hx).1 (h.vars x hx).2
  obtain ⟨lit, hlit, hcases⟩ | ⟨hlevel, lit, hlit, hcases⟩ | ⟨hlen, rfl⟩ := decide_next ht
  · have hmem := List.mem_of_getElem? hlit
    have hlt := (List.getElem?_eq_some_iff.mp hlit).1
    obtain ⟨htrue, rfl⟩ | ⟨hlitval, rfl⟩ := hcases
    · refine ⟨hreach.pseudo hunsat hall, h.newLevel ?_ ?_⟩
      · intro x hx
        rw [hlit] at hx
        cases hx
        exact ⟨htrue, (hle htrue).trans (Nat.le_succ _)⟩
      · exact fun heq => absurd heq hlt.ne
    · refine ⟨hdecide (List.mem_append_left _ hmem) hlitval,
        h.searchAssumeDecision o.chrono hlitval ?_ (fun heq => absurd heq hlt.ne)⟩
      intro x hx
      rw [hlit] at hx
      exact (Option.some.inj hx).symm
  · have hnone : ∀ x, a.assumptions[s.level]? ≠ some x := by
      rw [hlevel, List.getElem?_length]
      nofun
    obtain ⟨htrue, rfl⟩ | ⟨hlitval, rfl⟩ := hcases
    · refine ⟨hreach.pseudo hunsat hall, h.newLevel (fun x hx => absurd hx (hnone x)) ?_⟩
      intro _ _
      exact ⟨lit, hlit, htrue, (hle htrue).trans (hlevel.le.trans (Nat.le_succ _))⟩
    · exact ⟨hdecide (List.mem_append_right _ hlit) hlitval,
        h.searchAssumeDecision o.chrono hlitval (fun x hx => absurd hx (hnone x))
          (fun _ _ => hlit)⟩
  · obtain ⟨hval, hvar, haux⟩ := hdecision hlen
    refine ⟨hreach.decide hunsat hall hval hvar haux,
      h.searchAssumeDecision o.chrono hval ?_ ?_⟩
    · intro x hx
      have hlt := (List.getElem?_eq_some_iff.mp hx).1
      omega
    · intro heq hne
      rw [if_neg hne] at hlen
      omega

theorem Solving.assumed (h : Solving e o F a s) :
  Reachable e o F s ∧ s.Assumed e a
  := by
  induction h with
  | @start s h hunsat hvars =>
      refine ⟨h.restart hunsat (Nat.zero_le _), ?_, ?_, ?_, ?_⟩
      · rw [(s.backtrack_frame 0).1]
        exact hvars
      · intro l hl
        rw [backtrack_level] at hl
        exact absurd hl (Nat.not_lt_zero l)
      · intro x hx _ hpos
        rw [h.ok.inv.trail.mem_backtrack (Nat.zero_le _)] at hx
        rw [backtrack_var] at hpos
        omega
      · intro hlt
        rw [backtrack_level] at hlt
        exact absurd hlt (Nat.not_lt_zero _)
  | search h hunsat heuristics ht ih =>
      obtain ⟨hreach, hassumed⟩ := ih
      obtain ⟨t, ht', -, hkeeps⟩ := hreach.ok.propagateAndAnalyze hunsat heuristics
      obtain rfl := Option.some.inj (ht.symm.trans ht')
      exact ⟨hreach.search hunsat heuristics ht, hassumed.keeps hkeeps⟩
  | decide h hunsat hall hdecision ht ih => exact ih.2.decide ih.1 hunsat hall hdecision ht
  | restart h hunsat hn ih =>
      exact ⟨ih.1.restart hunsat hn, ih.2.keeps (keeps_backtrack ih.1.ok.inv.trail hn)⟩
  | markGarbage h hunsat hc ih =>
      exact ⟨ih.1.markGarbage hunsat hc, ih.2.keeps (marks_markGarbage hc).keeps⟩

end Cdcl

end Cadical
