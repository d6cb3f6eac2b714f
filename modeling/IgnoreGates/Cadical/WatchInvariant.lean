import IgnoreGates.Cadical.WatchTable

/-!
# The invariant of the watches

A watched literal that became false and has been propagated sits in a clause with a true
literal.  This holds for the literals propagated so far, and for each level for those on the
trail before the next one, where the true literal is not assigned on a higher level, so that it
stays true when the search backtracks to this level.
-/

namespace Cadical

open Logic

namespace Search

variable {s s' : Search}

/-- The same trail and levels, and reasons with the same literals. -/
structure Alike (s s' : Search) : Prop where
  trail : s'.trail = s.trail
  level : s'.level = s.level
  var_level : ∀ x, (s'.var x).level = (s.var x).level
  reason : ∀ x ∈ s.trail, ∀ r', (s'.var x).reason = some r' →
    ∃ r, (s.var x).reason = some r ∧ ∀ k, k ∈ r' ↔ k ∈ r
  reason_none : ∀ x ∈ s.trail, (s'.var x).reason = none → (s.var x).reason = none

theorem Inv.alike (h : s.Inv) (ha : s.Alike s') :
  s'.Inv
  where
    nodup := by
      rw [ha.trail]
      exact h.nodup
    level_le := by
      intro x hx
      rw [ha.trail] at hx
      rw [ha.var_level, ha.level]
      exact h.level_le x hx
    level_pos := by
      intro x hx r' hr'
      rw [ha.trail] at hx
      obtain ⟨r, hr, -⟩ := ha.reason x hx r' hr'
      rw [ha.var_level]
      exact h.level_pos x hx r hr
    reason_mem := by
      intro x hx r' hr'
      rw [ha.trail] at hx
      obtain ⟨r, hr, hiff⟩ := ha.reason x hx r' hr'
      exact (hiff x).mpr (h.reason_mem x hx r hr)
    before := by
      intro pre x post r' hsplit hr' k hk hne
      rw [ha.trail] at hsplit
      have hx : x ∈ s.trail := hsplit ▸ List.mem_append_right _ List.mem_cons_self
      obtain ⟨r, hr, hiff⟩ := ha.reason x hx r' hr'
      rw [ha.var_level, ha.var_level]
      exact h.before pre x post r hsplit hr k ((hiff k).mp hk) hne
    same_level := by
      intro x hx r' hr'
      rw [ha.trail] at hx
      obtain ⟨r, hr, hiff⟩ := ha.reason x hx r' hr'
      obtain ⟨k, hk, hne, heq⟩ := h.same_level x hx r hr
      refine ⟨k, (hiff k).mpr hk, hne, ?_⟩
      rw [ha.var_level, ha.var_level, heq]
    first := by
      intro pre x post hsplit hr hpos y hy
      rw [ha.trail] at hsplit
      have hx : x ∈ s.trail := hsplit ▸ List.mem_append_right _ List.mem_cons_self
      rw [ha.var_level] at hpos ⊢
      rw [ha.var_level]
      exact h.first pre x post hsplit (ha.reason_none x hx hr) hpos y hy

/-- A true literal is not false. -/
theorem Inv.neg_not_mem (h : s.Inv) {x : Lit} (hx : x ∈ s.trail) :
  -x ∉ s.trail
  := by
  intro hneg
  exact Lit.neg_ne x (h.eq_of_vidx hneg hx x.vidx_neg)

theorem unassigned_iff (s : Search) (lit : Lit) :
  s.Unassigned lit ↔ lit ∉ s.trail ∧ -lit ∉ s.trail
  := by
  constructor
  · intro h
    exact ⟨fun hmem => h lit hmem rfl, fun hmem => h (-lit) hmem lit.vidx_neg⟩
  · rintro ⟨hpos, hneg⟩ x hx hvidx
    obtain rfl | rfl := Lit.eq_or_eq_neg hvidx
    · exact hpos hx
    · exact hneg hx

end Search

namespace Cdcl

variable {s : Cdcl} {chrono : Nat}

/-! ### Values -/

theorem val_pos_iff (s : Cdcl) (lit : Lit) :
  0 < s.val lit ↔ lit ∈ s.trail
  := vals_pos_iff s.trail lit

theorem val_neg_iff (s : Cdcl) (lit : Lit) :
  s.val lit < 0 ↔ lit ∉ s.trail ∧ -lit ∈ s.trail
  := vals_neg_iff s.trail lit

theorem val_eq_zero_iff (s : Cdcl) (lit : Lit) :
  s.val lit = 0 ↔ lit ∉ s.trail ∧ -lit ∉ s.trail
  := vals_eq_zero_iff s.trail lit

/-! ### What the solver has derived -/

/-- The clauses are in `P`, and so are the literals of root level as unit clauses and the empty
clause when it has been derived. -/
structure Holds (s : Cdcl) (P : Set (Clause Lit)) : Prop where
  clauses : ∀ c < s.numClauses, s.lits c ∈ P
  root : ∀ x ∈ s.trail, (s.var x).level = 0 → [x] ∈ P
  unsat : s.unsat = true → [] ∈ P

/-! ### The invariant -/

/-- The clauses have two literals at least, and no duplicates. -/
structure WfClauses (s : Cdcl) : Prop where
  length : ∀ c < s.numClauses, 2 ≤ (s.lits c).length
  nodup : ∀ c < s.numClauses, (s.lits c).Nodup
  pos : ∀ c < s.numClauses, 2 ≤ (s.clauses c).pos
  vidx_le : ∀ c < s.numClauses, ∀ k ∈ s.lits c, k.vidx ≤ s.maxVar

/-- The trail is that of a search, its levels start one after the other, and what has been
assigned before a level is not above it; without `opts.chrono` what has been assigned since is
not below it. -/
structure WfTrail (s : Cdcl) (chrono : Nat) : Prop where
  search : s.toSearch.Inv
  vidx_le : ∀ x ∈ s.trail, x.vidx ≤ s.maxVar
  reason : ∀ x ∈ s.trail, ∀ c, (s.var x).reason = some c → c < s.numClauses
  control : s.control.length = s.level + 1
  start_mono : ∀ l < s.level, s.start l ≤ s.start (l + 1)
  start_le : s.start s.level ≤ s.propagated
  propagated_le : s.propagated ≤ s.trail.length
  level_le : ∀ l < s.level, ∀ x ∈ s.trail.take (s.start (l + 1)), (s.var x).level ≤ l
  le_level : chrono = 0 → ∀ l ≤ s.level, ∀ x ∈ s.trail.drop (s.start l), l ≤ (s.var x).level

/-- The literals of a clause that are watched. -/
def watched (s : Cdcl) (c : Nat) : List Lit :=
  (s.lits c).take 2

/-- Every clause that is not garbage is watched. -/
abbrev WfWatches (s : Cdcl) (wtab : Lit → List Watch) : Prop :=
  WatchTable s.lits (· < s.numClauses)
    (fun c => c < s.numClauses ∧ (s.clauses c).garbage = false) wtab

/-- The clause has a true literal with the given property. -/
def HasTrue (s : Cdcl) (c : Nat) (ok : Lit → Prop) : Prop :=
  ∃ x ∈ s.lits c, x ∈ s.trail ∧ ok x

/-- If a watched literal of the clause became false among the first `n`, then the clause has a
true literal. -/
def SettledAt (s : Cdcl) (c : Nat) (n : Nat) (ok : Lit → Prop) : Prop :=
  (s.clauses c).garbage = false → ∀ k ∈ s.watched c, -k ∈ s.trail.take n → s.HasTrue c ok

def Settled (s : Cdcl) (n : Nat) (ok : Lit → Prop) : Prop :=
  ∀ c < s.numClauses, s.SettledAt c n ok

/-- The clauses stay settled when the search backtracks to a lower level. -/
def LevelsSettled (s : Cdcl) : Prop :=
  ∀ l < s.level, s.Settled (s.start (l + 1)) (fun x => (s.var x).level ≤ l)

/-- The literals of the conflict are false, and without `opts.chrono` one of them on the
current level. -/
structure WfConflict (s : Cdcl) (chrono : Nat) (c : Nat) : Prop where
  lt : c < s.numClauses
  false_ : ∀ k ∈ s.lits c, -k ∈ s.trail
  level : chrono = 0 → ∃ k ∈ s.lits c, (s.var k).level = s.level

/-- The invariant of the solver. -/
structure Inv (s : Cdcl) (chrono : Nat) : Prop where
  clauses : s.WfClauses
  trail : s.WfTrail chrono
  watches : s.WfWatches s.wtab
  levels : s.LevelsSettled
  settled : s.conflict = none → s.Settled s.propagated (fun _ => True)
  conflict : ∀ c, s.conflict = some c → s.WfConflict chrono c

/-- The invariant while the watches of `lit` are visited: `pre` are the watches that stay, and
the clauses of the watches `post` may be unsettled. -/
structure Visiting (s : Cdcl) (chrono : Nat) (lit : Lit) (pre post : List Watch) : Prop where
  clauses : s.WfClauses
  trail : s.WfTrail chrono
  lit_false : -lit ∈ s.trail.drop (s.start s.level)
  watches : s.WfWatches (Function.update s.wtab lit (pre ++ post))
  levels : s.LevelsSettled
  settled : s.conflict = none → ∀ c < s.numClauses, (s.clauses c).garbage = false →
    ∀ k ∈ s.watched c, -k ∈ s.trail.take s.propagated →
      s.HasTrue c (fun _ => True) ∨ k = lit ∧ c ∈ post.map Watch.clause
  conflict : ∀ c, s.conflict = some c → s.WfConflict chrono c

end Cdcl

end Cadical
