import IgnoreGates.Cadical.CheckerTable

/-!
# Propagation of the checker

The trail starts with the `r` literals of root level.  A stored clause with a watched literal
that became false on root level has a literal that is true on root level; this holds whatever is
propagated afterwards, so that the trail can be cut back to root level at any time.  A stored
clause with a watched literal that became false and has been propagated has a true literal,
unless there is a conflict.
-/

namespace Cadical

open Logic

namespace Checker

variable {s : Checker} {r : Nat} {lit x : Lit}

/-! ### The invariant -/

/-- The clauses that have not been deleted from memory. -/
def Allocated (s : Checker) (c : Nat) : Prop :=
  c ∈ s.clauses.flatten ++ s.garbage

/-- Every clause of the table is watched, and only clauses that have not been deleted are. -/
abbrev WfWatches (s : Checker) (watchers : Lit → List CheckerWatch) : Prop :=
  WatchTable s.lits s.Allocated s.Stored watchers

structure WfTrail (s : Checker) : Prop where
  nodup : s.trail.Nodup
  neg_not_mem : ∀ x ∈ s.trail, -x ∉ s.trail
  vidx_lt : ∀ x ∈ s.trail, x.vidx < s.sizeVars
  next_le : s.nextToPropagate ≤ s.trail.length

/-- If a watched literal of a clause became false among the first `n` literals, then a literal
of the clause is among the first `m`. -/
def Settled (s : Checker) (n m : Nat) : Prop :=
  ∀ c, s.Stored c → ∀ k ∈ (s.lits c).take 2, -k ∈ s.trail.take n →
    ∃ x ∈ s.lits c, x ∈ s.trail.take m

/-- The assignment satisfies the clauses in memory and the literals of the trail. -/
structure Holds (s : Checker) (σ : Assignment Nat) : Prop where
  clauses : ∀ c, s.Allocated c → Clause.Sat σ (s.lits c)
  trail : ∀ x ∈ s.trail, σ.value x = true

/-- What the loops keep; `watchers` are the watches. -/
structure Propagating (s : Checker) (r : Nat) (watchers : Lit → List CheckerWatch) : Prop where
  table : s.WfTable
  trail : s.WfTrail
  root_le : r ≤ s.nextToPropagate
  watches : s.WfWatches watchers
  root : s.Settled r r

/-- The literals in front of `next_to_propagate` have been propagated. -/
structure Ready (s : Checker) (r : Nat) : Prop extends s.Propagating r s.watchers where
  settled : s.Settled s.nextToPropagate s.trail.length

/-- The invariant while the watches of `lit` are visited: `pre` are the watches that stay, and
the clauses of the watches `post` may be unsettled. -/
structure Visiting (s : Checker) (r : Nat) (lit : Lit) (pre post : List CheckerWatch) : Prop
    extends s.Propagating r (Function.update s.watchers lit (pre ++ post)) where
  lit_false : -lit ∈ s.trail
  settled : ∀ c, s.Stored c → ∀ k ∈ (s.lits c).take 2, -k ∈ s.trail.take s.nextToPropagate →
    (∃ x ∈ s.lits c, x ∈ s.trail) ∨ k = lit ∧ c ∈ post.map Watch.clause

/-- The trail has become longer, and nothing that does not follow has been put on it. -/
structure Extends (s s' : Checker) : Prop where
  reorders : s.Reorders s'
  trail : s.trail <+: s'.trail
  holds : ∀ σ, s.Holds σ → s'.Holds σ

theorem Extends.refl (s : Checker) :
  s.Extends s
  := ⟨Reorders.refl s, List.prefix_refl _, fun _ => id⟩

theorem Extends.trans {s' s'' : Checker} (h : s.Extends s') (h' : s'.Extends s'') :
  s.Extends s''
  := ⟨h.reorders.trans h'.reorders, h.trail.trans h'.trail, fun σ hσ => h'.holds σ (h.holds σ hσ)⟩

/-- Watches and trail do not matter for the table. -/
theorem reorders_with (s : Checker) (watchers : Lit → List CheckerWatch) (trail : List Lit)
    (next : Nat) :
  s.Reorders { s with watchers := watchers, trail := trail, nextToPropagate := next }
  := ⟨rfl, rfl, rfl, rfl, rfl, rfl, rfl, fun _ => List.Perm.refl _, fun _ => rfl, fun _ => rfl⟩

theorem Reorders.allocated {s' : Checker} (h : s.Reorders s') (c : Nat) :
  s'.Allocated c ↔ s.Allocated c
  := by
  rw [Allocated, Allocated, h.clauses, h.garbage]

/-- The trail has at most one literal for each variable. -/
theorem WfTrail.length_le (h : s.WfTrail) :
  s.trail.length ≤ s.sizeVars
  := by
  have hnodup : (s.trail.map Lit.vidx).Nodup := by
    apply h.nodup.map_on
    intro x hx y hy heq
    obtain rfl | rfl := Lit.eq_or_eq_neg heq
    · rfl
    · exact absurd hx (h.neg_not_mem y hy)
  have hsub : s.trail.map Lit.vidx ⊆ List.range s.sizeVars := by
    intro v hv
    obtain ⟨x, hx, rfl⟩ := List.mem_map.mp hv
    exact List.mem_range.mpr (h.vidx_lt x hx)
  have hlength := (hnodup.subperm hsub).length_le
  rwa [List.length_map, List.length_range] at hlength

/-- Literals that are put on the trail do not change its beginning. -/
theorem WfTrail.take_append (h : s.WfTrail) {n : Nat} (hn : n ≤ s.nextToPropagate)
    (l : List Lit) :
  (s.trail ++ l).take n = s.trail.take n
  := List.take_append_of_le_length (hn.trans h.next_le)

/-! ### Assigning a literal -/

/-- The literal can be assigned. -/
structure Assignable (s : Checker) (x : Lit) : Prop where
  val : s.val x = 0
  vidx_lt : x.vidx < s.sizeVars

/-- Assigning a literal that may be assigned keeps the trail well formed. -/
theorem WfTrail.assign (h : s.WfTrail) (hx : s.Assignable x) :
  (s.assign x).WfTrail
  where
    nodup := by
      have hmem := ((vals_eq_zero_iff _ _).mp hx.val).1
      apply h.nodup.append (List.nodup_singleton x)
      rw [List.disjoint_singleton]
      exact hmem
    neg_not_mem := by
      obtain ⟨hpos, hneg⟩ := (vals_eq_zero_iff _ _).mp hx.val
      intro y hy hmem
      obtain hy | hy := List.mem_append.mp hy
      · obtain hmem | hmem := List.mem_append.mp hmem
        · exact h.neg_not_mem y hy hmem
        · rw [← List.mem_singleton.mp hmem, Lit.neg_neg] at hneg
          exact hneg hy
      · rw [List.mem_singleton.mp hy] at hmem
        obtain hmem | hmem := List.mem_append.mp hmem
        · exact hneg hmem
        · exact x.neg_ne (List.mem_singleton.mp hmem)
    vidx_lt := by
      intro y hy
      obtain hy | hy := List.mem_append.mp hy
      · exact h.vidx_lt y hy
      · rw [List.mem_singleton.mp hy]
        exact hx.vidx_lt
    next_le := by
      change s.nextToPropagate ≤ (s.trail ++ [x]).length
      rw [List.length_append]
      exact h.next_le.trans (Nat.le_add_right _ _)

/-- What is settled stays so when a literal is assigned. -/
theorem Settled.assign {n m : Nat} (h : s.Settled n m) (hs : s.WfTrail)
    (hn : n ≤ s.nextToPropagate) (hm : m ≤ s.trail.length) (x : Lit) :
  (s.assign x).Settled n m
  := by
  intro c hc k hk hneg
  change -k ∈ (s.trail ++ [x]).take n at hneg
  rw [hs.take_append hn] at hneg
  obtain ⟨y, hy, hmem⟩ := h c hc k hk hneg
  refine ⟨y, hy, ?_⟩
  change y ∈ (s.trail ++ [x]).take m
  rwa [List.take_append_of_le_length hm]

/-- Assigning a literal keeps what the loops keep. -/
theorem Propagating.assign {watchers : Lit → List CheckerWatch} (h : s.Propagating r watchers)
    (hx : s.Assignable x) :
  (s.assign x).Propagating r watchers
  where
    table := (s.reorders_with s.watchers (s.trail ++ [x]) s.nextToPropagate).wfTable h.table
    trail := h.trail.assign hx
    root_le := h.root_le
    watches := h.watches
    root := h.root.assign h.trail h.root_le (h.root_le.trans h.trail.next_le) x

/-- Assigning a literal that follows extends the checker. -/
theorem extends_assign (hx : ∀ σ, s.Holds σ → σ.value x = true) :
  s.Extends (s.assign x)
  where
    reorders := s.reorders_with s.watchers (s.trail ++ [x]) s.nextToPropagate
    trail := List.prefix_append _ _
    holds := by
      intro σ hσ
      refine ⟨hσ.clauses, ?_⟩
      intro y hy
      obtain hy | hy := List.mem_append.mp hy
      · exact hσ.trail y hy
      · rw [List.mem_singleton.mp hy]
        exact hx σ hσ

/-- Assigning a literal keeps the invariant of the visits. -/
theorem Visiting.assign {pre post : List CheckerWatch} (h : s.Visiting r lit pre post)
    (hx : s.Assignable x) :
  (s.assign x).Visiting r lit pre post
  where
    toPropagating := h.toPropagating.assign hx
    lit_false := List.mem_append_left _ h.lit_false
    settled := by
      intro c hc k hk hneg
      change -k ∈ (s.trail ++ [x]).take s.nextToPropagate at hneg
      rw [h.trail.take_append le_rfl] at hneg
      refine (h.settled c hc k hk hneg).imp_left ?_
      rintro ⟨y, hy, hmem⟩
      exact ⟨y, hy, List.mem_append_left _ hmem⟩

/-! ### The literals of a clause in another order -/

variable {c : Nat} {new : List Lit}

theorem lits_setLits (s : Checker) (c : Nat) (new : List Lit) :
  (s.setLits c new).lits = Function.update s.lits c new
  := by
  funext c'
  rw [lits, setLits]
  by_cases hc : c' = c
  · subst hc
    simp only [Function.update_self]
  · simp only [Function.update_of_ne hc]
    rfl

/-- Reordering the literals of one clause permutes the literals of every clause. -/
theorem perm_setLits (hperm : new.Perm (s.lits c)) (c' : Nat) :
  ((s.setLits c new).lits c').Perm (s.lits c')
  := by
  rw [lits_setLits]
  by_cases hc : c' = c
  · subst hc
    rwa [Function.update_self]
  · rw [Function.update_of_ne hc]

/-- Reordering the literals of a clause reorders the checker. -/
theorem reorders_setLits (hperm : new.Perm (s.lits c)) :
  s.Reorders (s.setLits c new)
  where
    sizeVars := rfl
    numAllocated := rfl
    inconsistent := rfl
    numClauses := rfl
    numGarbage := rfl
    clauses := rfl
    garbage := rfl
    lits := perm_setLits hperm
    hash := by
      intro c'
      by_cases hc : c' = c
      · subst hc
        simp only [setLits, Function.update_self]
      · simp only [setLits, Function.update_of_ne hc]
    size := by
      intro c'
      by_cases hc : c' = c
      · subst hc
        simp only [setLits, Function.update_self]
      · simp only [setLits, Function.update_of_ne hc]

/-- Reordering the literals of a clause extends the checker. -/
theorem extends_setLits (hperm : new.Perm (s.lits c)) :
  s.Extends (s.setLits c new)
  where
    reorders := reorders_setLits hperm
    trail := List.prefix_refl _
    holds := by
      intro σ hσ
      refine ⟨?_, hσ.trail⟩
      intro c' hc'
      obtain ⟨k, hk, hval⟩ := hσ.clauses c' hc'
      exact ⟨k, (perm_setLits hperm c').symm.subset hk, hval⟩

/-- The literal is watched as before, or it belongs to the changed clause. -/
theorem mem_watched_setLits {c' : Nat} {k : Lit}
    (h : k ∈ ((s.setLits c new).lits c').take 2) :
  k ∈ (s.lits c').take 2 ∨ c' = c ∧ k ∈ new.take 2
  := by
  rw [lits_setLits] at h
  by_cases hc : c' = c
  · subst hc
    rw [Function.update_self] at h
    exact Or.inr ⟨rfl, h⟩
  · rw [Function.update_of_ne hc] at h
    exact Or.inl h

/-- The new watches of the clause are not false. -/
theorem Settled.setLits {n m : Nat} (h : s.Settled n m) (hperm : new.Perm (s.lits c))
    (hwatched : ∀ k ∈ new.take 2, k ∈ (s.lits c).take 2 ∨ -k ∉ s.trail) :
  (s.setLits c new).Settled n m
  := by
  intro c' hc' k hk hneg
  have hold : ∃ x ∈ s.lits c', x ∈ s.trail.take m := by
    obtain hold | ⟨rfl, hnew⟩ := mem_watched_setLits hk
    · exact h c' hc' k hold hneg
    · obtain hold | hnot := hwatched k hnew
      · exact h c' hc' k hold hneg
      · exact absurd (List.mem_of_mem_take hneg) hnot
  obtain ⟨y, hy, hmem⟩ := hold
  exact ⟨y, (perm_setLits hperm c').symm.subset hy, hmem⟩

/-- The same literals are watched. -/
theorem Propagating.setLits {watchers : Lit → List CheckerWatch} (h : s.Propagating r watchers)
    (hperm : new.Perm (s.lits c)) (hwatched : ∀ k, k ∈ new.take 2 ↔ k ∈ (s.lits c).take 2) :
  (s.setLits c new).Propagating r watchers
  where
    table := (reorders_setLits hperm).wfTable h.table
    trail := ⟨h.trail.nodup, h.trail.neg_not_mem, h.trail.vidx_lt, h.trail.next_le⟩
    root_le := h.root_le
    watches := by
      apply h.watches.reorder (fun c' _ => perm_setLits hperm c') _ (fun _ => id) (fun _ => id)
      intro c' _ k
      rw [lits_setLits]
      by_cases hc : c' = c
      · subst hc
        rw [Function.update_self]
        exact hwatched k
      · rw [Function.update_of_ne hc]
    root := h.root.setLits hperm (fun k hk => Or.inl ((hwatched k).mp hk))

/-- Reordering a clause without changing its watched literals keeps the invariant of the visits. -/
theorem Visiting.setLits {pre post : List CheckerWatch} (h : s.Visiting r lit pre post)
    (hperm : new.Perm (s.lits c)) (hwatched : ∀ k, k ∈ new.take 2 ↔ k ∈ (s.lits c).take 2) :
  (s.setLits c new).Visiting r lit pre post
  where
    toPropagating := h.toPropagating.setLits hperm hwatched
    lit_false := h.lit_false
    settled := by
      intro c' hc' k hk hneg
      have hold : k ∈ (s.lits c').take 2 := by
        obtain hold | ⟨rfl, hnew⟩ := mem_watched_setLits hk
        · exact hold
        · exact (hwatched k).mp hnew
      refine (h.settled c' hc' k hold hneg).imp_left ?_
      rintro ⟨y, hy, hmem⟩
      exact ⟨y, (perm_setLits hperm c').symm.subset hy, hmem⟩

/-! ### Visiting a watch -/

variable {pre post : List CheckerWatch} {w w' : CheckerWatch} {σ : Assignment Nat}

/-- The only literal of a clause that is not false is true. -/
theorem Holds.unit (h : s.Holds σ) (hc : s.Allocated c)
    (hfalse : ∀ k ∈ s.lits c, k ≠ x → -k ∈ s.trail) :
  σ.value x = true
  := by
  obtain ⟨k, hk, hval⟩ := h.clauses c hc
  by_cases hkx : k = x
  · rwa [← hkx]
  · have hneg := h.trail (-k) (hfalse k hk hkx)
    rw [show -k = Literal.neg k from rfl, Assignment.value_neg, hval] at hneg
    cases hneg

/-- When all literals of a clause are false, no assignment satisfies the clauses and the trail. -/
theorem not_holds_of_false (hc : s.Allocated c) (hfalse : ∀ k ∈ s.lits c, -k ∈ s.trail) :
  ¬ s.Holds σ
  := by
  intro h
  obtain ⟨k, hk, hval⟩ := h.clauses c hc
  have hneg := h.trail (-k) (hfalse k hk)
  rw [show -k = Literal.neg k from rfl, Assignment.value_neg, hval] at hneg
  cases hneg

theorem WfTable.allocated_lt (h : s.WfTable) (hc : s.Allocated c) :
  c < s.numAllocated
  := h.lt c hc

/-- What the watch that is visited says of its clause. -/
structure Head (s : Checker) (lit : Lit) (w : CheckerWatch) : Prop where
  allocated : s.Allocated w.clause
  size : w.size = (s.lits w.clause).length
  watched : lit ∈ (s.lits w.clause).take 2
  blit : w.blit ∈ s.lits w.clause ∧ w.blit ≠ lit
  length : 2 ≤ (s.lits w.clause).length
  nodup : (s.lits w.clause).Nodup
  vidx_lt : ∀ k ∈ s.lits w.clause, k.vidx < s.sizeVars

/-- The first watch that has not been visited belongs to a clause that watches the literal. -/
theorem Visiting.head (h : s.Visiting r lit pre (w :: post)) :
  s.Head lit w
  := by
  have hself : w ∈ Function.update s.watchers lit (pre ++ w :: post) lit := by
    rw [Function.update_self]
    exact List.mem_append_right _ List.mem_cons_self
  have hc := h.watches.clause lit w hself
  exact ⟨hc, h.watches.size lit w hself, h.watches.watched lit w hself, h.watches.blit lit w hself,
    h.table.length _ (h.table.lt _ hc), h.table.lits_nodup _ (h.table.lt _ hc),
    h.table.vidx_lt _ (h.table.lt _ hc)⟩

/-- A settled clause keeps its watch. -/
theorem Visiting.keep (h : s.Visiting r lit pre (w :: post)) (hclause : w'.clause = w.clause)
    (hsize : w'.size = w.size) (hblit : w'.blit ∈ s.lits w.clause ∧ w'.blit ≠ lit)
    (htrue : ∃ x ∈ s.lits w.clause, x ∈ s.trail) :
  s.Visiting r lit (pre ++ [w']) post
  where
    table := h.table
    trail := h.trail
    root_le := h.root_le
    watches := by
      rw [List.append_assoc]
      exact h.watches.keep hclause hsize hblit
    root := h.root
    lit_false := h.lit_false
    settled := by
      intro c hc k hk hneg
      obtain hsettled | ⟨rfl, hmem⟩ := h.settled c hc k hk hneg
      · exact Or.inl hsettled
      · rw [List.map_cons, List.mem_cons] at hmem
        obtain rfl | hmem := hmem
        · exact Or.inl htrue
        · exact Or.inr ⟨rfl, hmem⟩

/-- A garbage clause loses its watch. -/
theorem Visiting.drop (h : s.Visiting r lit pre (w :: post)) (hgarbage : ¬ s.Stored w.clause) :
  s.Visiting r lit pre post
  where
    table := h.table
    trail := h.trail
    root_le := h.root_le
    watches := h.watches.drop hgarbage
    root := h.root
    lit_false := h.lit_false
    settled := by
      intro c hc k hk hneg
      obtain hsettled | ⟨rfl, hmem⟩ := h.settled c hc k hk hneg
      · exact Or.inl hsettled
      · rw [List.map_cons, List.mem_cons] at hmem
        obtain rfl | hmem := hmem
        · exact absurd hc hgarbage
        · exact Or.inr ⟨rfl, hmem⟩

/-- The literals with `lit` at the second position. -/
theorem swapped_eq {literals : List Lit} {a b : Lit} {rest : List Lit} (other : Lit)
    (hlits : literals = a :: b :: rest) :
  (literals.set 0 other).set 1 lit = other :: lit :: rest
  := by
  rw [hlits]
  rfl

/-- Swapping the second literal with the replacement is what `replaceWatch` does. -/
theorem swap_eq_replaceWatch {literals : List Lit} (hlength : 2 ≤ literals.length) (other : Lit)
    {k : Nat} (hk : 2 + k < literals.length) :
  ((literals.set 0 other).set 1 lit).swap 1 (2 + k)
    = Cdcl.replaceWatch literals lit other (2 + k)
  := by
  obtain _ | ⟨a, _ | ⟨b, rest⟩⟩ := literals
  · exact absurd hlength (by decide)
  · exact absurd hlength (by simp)
  · have hlt : k < rest.length := by
      rw [List.length_cons, List.length_cons] at hk
      omega
    rw [Nat.add_comm 2 k]
    change other :: rest[k]?.getD lit :: rest.set k lit
      = other :: (rest.getD k lit) :: rest.set k lit
    rw [List.getD_eq_getElem?_getD]

/-- The literal at position `k` is watched instead of `lit`. -/
theorem Visiting.move (h : s.Visiting r lit pre (w :: post)) {k : Nat} (hk : 2 ≤ k)
    (hlt : k < (s.lits w.clause).length)
    (hval : -(s.lits w.clause).getD k lit ∉ s.trail) :
  ((s.setLits w.clause (Cdcl.replaceWatch (s.lits w.clause) lit
    (Cdcl.otherWatch (s.lits w.clause) lit) k)).watch ((s.lits w.clause).getD k lit) lit
      w.clause (s.lits w.clause).length).Visiting r lit pre post
  := by
  obtain ⟨hc, -, hlit, -, -, hnodup, -⟩ := h.head
  have hr := Cdcl.not_mem_watched_of_mem_drop hnodup (Cdcl.getD_mem_drop lit hk hlt)
  have hperm := Cdcl.replaceWatch_perm hlit hk hlt
  have hwatched := Cdcl.mem_take_replaceWatch hlit hk hlt hnodup
  generalize Cdcl.replaceWatch (s.lits w.clause) lit (Cdcl.otherWatch (s.lits w.clause) lit) k
    = new at hperm hwatched ⊢
  generalize (s.lits w.clause).getD k lit = y at hr hwatched hval ⊢
  have hne : y ≠ lit := fun heq => hr (heq ▸ hlit)
  have hupdate : Function.update s.watchers lit (pre ++ w :: post) y = s.watchers y :=
    Function.update_of_ne hne _ _
  have hwatches := h.watches.move lit y (pre ++ post)
    (by rw [Function.update_self]; exact h.watches.mem_others)
    (by
      have hnodup := h.watches.nodup lit
      rw [Function.update_self] at hnodup
      exact hnodup.sublist (((List.sublist_cons_self w post).append_left pre).map Watch.clause))
    hc hperm hwatched hr hne ⟨List.mem_of_mem_take hlit, hne.symm⟩
  rw [Function.update_idem, hupdate, Function.update_comm hne.symm, hperm.length_eq] at hwatches
  have hsettled {n m : Nat} (hs : s.Settled n m) : (s.setLits w.clause new).Settled n m := by
    apply hs.setLits hperm
    intro k hk
    obtain ⟨hk, -⟩ | rfl := (hwatched k).mp hk
    · exact Or.inl hk
    · exact Or.inr hval
  refine ⟨⟨?_, ⟨h.trail.nodup, h.trail.neg_not_mem, h.trail.vidx_lt, h.trail.next_le⟩, h.root_le,
    ?_, hsettled h.root⟩, h.lit_false, ?_⟩
  · exact ((reorders_setLits hperm).trans (reorders_with _ _ _ _)).wfTable h.table
  · exact hwatches.congr (fun c _ => congrFun (lits_setLits s w.clause new) c) (fun _ => id)
      (fun _ => id)
  · intro c hc x hx hneg
    have hold : x ∈ (s.lits c).take 2 → (c = w.clause → x ≠ lit) →
        (∃ y ∈ s.lits c, y ∈ s.trail) ∨ x = lit ∧ c ∈ post.map Watch.clause := by
      intro hxw hnot
      obtain htrue | ⟨rfl, hmem⟩ := h.settled c hc x hxw hneg
      · exact Or.inl htrue
      · rw [List.map_cons, List.mem_cons] at hmem
        obtain heq | hmem := hmem
        · exact absurd rfl (hnot heq)
        · exact Or.inr ⟨rfl, hmem⟩
    have htrue : (∃ y ∈ s.lits c, y ∈ s.trail) ∨ x = lit ∧ c ∈ post.map Watch.clause := by
      change x ∈ ((s.setLits w.clause new).lits c).take 2 at hx
      rw [lits_setLits] at hx
      by_cases heq : c = w.clause
      · subst heq
        rw [Function.update_self] at hx
        obtain ⟨hxw, hxlit⟩ | rfl := (hwatched x).mp hx
        · exact hold hxw (fun _ => hxlit)
        · exact absurd (List.mem_of_mem_take hneg) hval
      · rw [Function.update_of_ne heq] at hx
        exact hold hx (fun heq' => absurd heq' heq)
    refine htrue.imp_left ?_
    rintro ⟨y, hy, hmem⟩
    exact ⟨y, (perm_setLits hperm c).symm.subset hy, hmem⟩

/-- What a visit has to show. -/
structure Visited (s : Checker) (r : Nat) (lit : Lit) (pre post : List CheckerWatch) (v : Visit) :
    Prop where
  extends_ : s.Extends v.checker
  next : v.checker.nextToPropagate = s.nextToPropagate
  visiting : v.res = true → v.checker.Visiting r lit (pre ++ v.keep.toList) post
  stop : v.res = false → v.checker.Propagating r
    (Function.update v.checker.watchers lit (pre ++ (v.keep.toList ++ post)))
  conflict : v.res = false → ∀ σ, ¬ s.Holds σ

/-- A literal of the clause that is the only one which is not false is assigned. -/
theorem Visiting.unit (h : s.Visiting r lit pre (w :: post)) (hx : x ∈ s.lits w.clause)
    (hval : s.val x = 0) (hfalse : ∀ k ∈ s.lits w.clause, k ≠ x → -k ∈ s.trail) :
  s.Visited r lit pre post ⟨some w, true, s.assign x⟩
  where
    extends_ := extends_assign (fun _ hσ => hσ.unit h.head.allocated hfalse)
    next := rfl
    visiting := fun _ => (h.assign ⟨hval, h.head.vidx_lt x hx⟩).keep rfl rfl h.head.blit
      ⟨x, hx, List.mem_append_right _ (List.mem_singleton_self x)⟩
    stop := nofun
    conflict := nofun

/-- All literals of the clause are false. -/
theorem Visiting.conflict (h : s.Visiting r lit pre (w :: post))
    (hfalse : ∀ k ∈ s.lits w.clause, -k ∈ s.trail) :
  s.Visited r lit pre post ⟨some w, false, s⟩
  where
    extends_ := Extends.refl s
    next := rfl
    visiting := nofun
    stop := fun _ => h.toPropagating
    conflict := fun _ _ => not_holds_of_false h.head.allocated hfalse

/-- The visit goes on after the literals of the clause have been reordered. -/
theorem Visited.setLits {v : Visit} (hperm : new.Perm (s.lits c))
    (h : (s.setLits c new).Visited r lit pre post v) :
  s.Visited r lit pre post v
  where
    extends_ := (extends_setLits hperm).trans h.extends_
    next := h.next
    visiting := h.visiting
    stop := h.stop
    conflict := fun hres σ hσ => h.conflict hres σ ((extends_setLits hperm).holds σ hσ)

/-- `lit` and the other watch change places. -/
theorem perm_swapped {literals : List Lit} (hlit : lit ∈ literals.take 2)
    (hlength : 2 ≤ literals.length) :
  ((literals.set 0 (Cdcl.otherWatch literals lit)).set 1 lit).Perm literals
    ∧ (∀ k, k ∈ ((literals.set 0 (Cdcl.otherWatch literals lit)).set 1 lit).take 2
      ↔ k ∈ literals.take 2)
    ∧ ((literals.set 0 (Cdcl.otherWatch literals lit)).set 1 lit).drop 2 = literals.drop 2
  := by
  obtain ⟨rest, heq | heq⟩ := Cdcl.exists_watched hlit hlength
  · rw [swapped_eq _ heq]
    generalize Cdcl.otherWatch literals lit = other at heq ⊢
    subst heq
    exact ⟨List.Perm.swap _ _ _, fun k => by simp [or_comm], rfl⟩
  · rw [swapped_eq _ heq]
    generalize Cdcl.otherWatch literals lit = other at heq ⊢
    subst heq
    exact ⟨List.Perm.refl _, fun _ => Iff.rfl, rfl⟩

/-- Watching a clause derives nothing. -/
theorem extends_watch (s : Checker) (lit blit : Lit) (c size : Nat) :
  s.Extends (s.watch lit blit c size)
  := ⟨s.reorders_with _ s.trail s.nextToPropagate, List.prefix_refl _,
    fun _ hσ => ⟨hσ.clauses, hσ.trail⟩⟩

/-- Visiting the watch of a large clause. -/
theorem Visiting.visitLarge (h : s.Visiting r lit pre (w :: post))
    (hstored : s.Stored w.clause) :
  s.Visited r lit pre post (s.visitLarge lit w)
  := by
  obtain ⟨hc, -, hlit, hblit, hlength, hnodup, -⟩ := h.head
  have hmem := Cdcl.otherWatch_mem hlit hlength
  have hne := Cdcl.otherWatch_ne hlit hlength hnodup
  obtain ⟨hperm, hwatched, hdrop⟩ := perm_swapped hlit hlength
  rw [Checker.visitLarge]
  simp only
  split
  · next hval =>
      have hother := List.mem_of_mem_take hmem
      have htrue := (vals_pos_iff _ _).mp hval
      exact ⟨Extends.refl s, rfl, fun _ => h.keep rfl rfl ⟨hother, hne⟩ ⟨_, hother, htrue⟩, nofun,
        nofun⟩
  · next hval =>
      rw [hdrop]
      split
      · next k hk =>
          obtain ⟨hlt, hvalk⟩ := Cdcl.findIdx_drop hk lit
          have hnot : -(s.lits w.clause).getD (2 + k) lit ∉ s.trail := by
            have hle : 0 ≤ s.val ((s.lits w.clause).getD (2 + k) lit) := of_decide_eq_true hvalk
            obtain hpos | hzero := hle.lt_or_eq
            · exact h.trail.neg_not_mem _ ((vals_pos_iff _ _).mp hpos)
            · exact ((vals_eq_zero_iff _ _).mp hzero.symm).2
          rw [swap_eq_replaceWatch hlength _ hlt, h.table.size w.clause hstored]
          refine ⟨?_, rfl, fun _ => ?_, nofun, nofun⟩
          · apply (extends_setLits _).trans (extends_watch _ _ _ _ _)
            exact Cdcl.replaceWatch_perm hlit (Nat.le_add_right 2 k) hlt
          · rw [Option.toList_none, List.append_nil]
            exact h.move (Nat.le_add_right 2 k) hlt hnot
      · next hnone =>
          have hfalse : ∀ x ∈ (s.lits w.clause).drop 2, -x ∈ s.trail := by
            intro x hx
            have hvalx := List.findIdx?_eq_none_iff.mp hnone x hx
            rw [decide_eq_false_iff_not] at hvalx
            exact ((vals_neg_iff _ _).mp (not_le.mp hvalx)).2
          have hvisiting := h.setLits hperm hwatched
          have hself : (s.setLits w.clause (((s.lits w.clause).set 0
              (Cdcl.otherWatch (s.lits w.clause) lit)).set 1 lit)).lits w.clause
              = ((s.lits w.clause).set 0 (Cdcl.otherWatch (s.lits w.clause) lit)).set 1 lit := by
            rw [lits_setLits, Function.update_self]
          apply Visited.setLits hperm
          split
          · next hzero =>
              apply hvisiting.unit _ hzero
              · intro k hk hkne
                rw [hself, hperm.mem_iff] at hk
                obtain rfl | heq | hk := Cdcl.mem_watched_or_drop hlit hlength hk
                · exact h.lit_false
                · exact absurd heq hkne
                · exact hfalse k hk
              · rw [hself, hperm.mem_iff]
                exact List.mem_of_mem_take hmem
          · next hzero =>
              apply hvisiting.conflict
              intro k hk
              rw [hself, hperm.mem_iff] at hk
              obtain rfl | rfl | hk := Cdcl.mem_watched_or_drop hlit hlength hk
              · exact h.lit_false
              · exact ((vals_neg_iff _ _).mp (lt_of_le_of_ne (not_lt.mp hval) hzero)).2
              · exact hfalse k hk

/-- Visiting a watch. -/
theorem Visiting.visit (h : s.Visiting r lit pre (w :: post)) :
  s.Visited r lit pre post (s.visit lit w)
  := by
  obtain ⟨hc, hsize, hlit, hblit, hlength, -, -⟩ := h.head
  rw [Checker.visit]
  split
  · next hval =>
      have htrue := (vals_pos_iff _ _).mp hval
      exact ⟨Extends.refl s, rfl, fun _ => h.keep rfl rfl hblit ⟨_, hblit.1, htrue⟩, nofun, nofun⟩
  · next hval =>
      split
      · next htwo =>
          have hbinary {k : Lit} (hk : k ∈ s.lits w.clause) : k = lit ∨ k = w.blit :=
            Cdcl.eq_or_eq_of_binary hlit (hsize.symm.trans htwo) hblit.1 hblit.2 hk
          split
          · next hneg =>
              apply h.conflict
              intro k hk
              obtain rfl | rfl := hbinary hk
              · exact h.lit_false
              · exact ((vals_neg_iff _ _).mp hneg).2
          · next hneg =>
              apply h.unit hblit.1 (le_antisymm (not_lt.mp hval) (not_lt.mp hneg))
              intro k hk hkne
              rw [(hbinary hk).resolve_right hkne]
              exact h.lit_false
      · split
        · next hzero =>
            have hgarbage : ¬ s.Stored w.clause := by
              intro hstored
              rw [h.table.size w.clause hstored] at hzero
              omega
            refine ⟨Extends.refl s, rfl, fun _ => ?_, nofun, nofun⟩
            rw [Option.toList_none, List.append_nil]
            exact h.drop hgarbage
        · next hzero =>
            apply h.visitLarge
            obtain hstored | hgarbage := List.mem_append.mp hc
            · exact hstored
            · exact absurd (h.table.garbage w.clause hgarbage) hzero

/-! ### The loops -/

/-- What the loop over the watches `ws` of `lit` has to show. -/
structure Looped (s : Checker) (r : Nat) (lit : Lit) (pre kept : List CheckerWatch) (res : Bool)
    (s' : Checker) : Prop where
  extends_ : s.Extends s'
  next : s'.nextToPropagate = s.nextToPropagate
  visiting : res = true → s'.Visiting r lit (pre ++ kept) []
  stop : res = false → s'.Propagating r (Function.update s'.watchers lit (pre ++ kept))
  conflict : res = false → ∀ σ, ¬ s.Holds σ

/-- Visiting watches one after the other. -/
theorem Visiting.visits {ws : List CheckerWatch} (h : s.Visiting r lit pre ws) :
  s.Looped r lit pre (Checker.visits lit ws s).1 (Checker.visits lit ws s).2.1
    (Checker.visits lit ws s).2.2
  := by
  induction ws generalizing s pre with
  | nil =>
      rw [Checker.visits]
      refine ⟨Extends.refl s, rfl, fun _ => ?_, nofun, nofun⟩
      rwa [List.append_nil]
  | cons w ws ih =>
      have hvisited := h.visit
      rw [Checker.visits]
      generalize s.visit lit w = v at hvisited
      simp only
      split
      · next hres =>
          have hloop := ih (hvisited.visiting hres)
          refine ⟨hvisited.extends_.trans hloop.extends_, hloop.next.trans hvisited.next, ?_, ?_, ?_⟩
          · intro hrest
            rw [← List.append_assoc]
            exact hloop.visiting hrest
          · intro hrest
            rw [← List.append_assoc]
            exact hloop.stop hrest
          · intro hrest σ hσ
            exact hloop.conflict hrest σ (hvisited.extends_.holds σ hσ)
      · next hres =>
          have hfalse : v.res = false := Bool.eq_false_of_not_eq_true hres
          exact ⟨hvisited.extends_, hvisited.next, nofun, fun _ => hvisited.stop hfalse,
            fun _ => hvisited.conflict hfalse⟩

/-- The watches of the next literal of the trail are visited. -/
theorem Ready.visiting (h : s.Ready r) {y : Lit} (hy : s.trail[s.nextToPropagate]? = some y) :
  { s with nextToPropagate := s.nextToPropagate + 1 }.Visiting r (-y) [] (s.watchers (-y))
  := by
  obtain ⟨hlt, rfl⟩ := List.getElem?_eq_some_iff.mp hy
  refine ⟨⟨(s.reorders_with s.watchers s.trail (s.nextToPropagate + 1)).wfTable h.table,
    ⟨h.trail.nodup, h.trail.neg_not_mem, h.trail.vidx_lt, hlt⟩, Nat.le_succ_of_le h.root_le, ?_,
    h.root⟩, ?_, ?_⟩
  · rw [List.nil_append, Function.update_eq_self]
    exact h.watches
  · rw [Lit.neg_neg]
    exact List.getElem_mem hlt
  · intro c hc k hk hneg
    change -k ∈ s.trail.take (s.nextToPropagate + 1) at hneg
    rw [List.take_add_one, hy, Option.toList_some, List.mem_append, List.mem_singleton] at hneg
    obtain hneg | hneg := hneg
    · obtain ⟨x, hx, hmem⟩ := h.settled c hc k hk hneg
      exact Or.inl ⟨x, hx, List.mem_of_mem_take hmem⟩
    · rw [← hneg, Lit.neg_neg]
      exact Or.inr ⟨rfl, h.watches.exists_ c hc k hk⟩

/-- What propagation has to show: if there is no conflict, then everything on the trail has been
propagated, and a conflict means that some clause in memory is false. -/
structure Result (s : Checker) (r : Nat) (res : Bool) (s' : Checker) : Prop where
  extends_ : s.Extends s'
  propagating : s'.Propagating r s'.watchers
  settled : res = true → s'.nextToPropagate = s'.trail.length
    ∧ s'.Settled s'.trail.length s'.trail.length
  conflict : res = false → ∀ σ, ¬ s.Holds σ

/-- The literal has been propagated. -/
structure Stepped (s : Checker) (r : Nat) (res : Bool) (s' : Checker) : Prop where
  extends_ : s.Extends s'
  next : s'.nextToPropagate = s.nextToPropagate + 1
  propagating : s'.Propagating r s'.watchers
  ready : res = true → s'.Ready r
  conflict : res = false → ∀ σ, ¬ s.Holds σ

/-- The next literal of the trail is propagated. -/
theorem Ready.propagateLiteral (h : s.Ready r) {y : Lit}
    (hy : s.trail[s.nextToPropagate]? = some y) :
  s.Stepped r
    ({ s with nextToPropagate := s.nextToPropagate + 1 }.propagateLiteral (-y)).1
    ({ s with nextToPropagate := s.nextToPropagate + 1 }.propagateLiteral (-y)).2
  := by
  have hloop := (h.visiting hy).visits
  rw [Checker.propagateLiteral]
  generalize visits (-y) _ _ = result at hloop
  obtain ⟨ws, res, s'⟩ := result
  simp only at hloop ⊢
  have hextends : s.Extends { s' with watchers := Function.update s'.watchers (-y) ws } := by
    obtain ⟨hreorders, htrail, hholds⟩ := hloop.extends_
    exact ⟨((s.reorders_with s.watchers s.trail (s.nextToPropagate + 1)).trans
      hreorders).trans (reorders_with _ _ s'.trail s'.nextToPropagate), htrail,
      fun σ hσ => ⟨(hholds σ ⟨hσ.clauses, hσ.trail⟩).clauses,
        (hholds σ ⟨hσ.clauses, hσ.trail⟩).trail⟩⟩
  have hpropagating (hp : s'.Propagating r (Function.update s'.watchers (-y) ws)) :
      { s' with watchers := Function.update s'.watchers (-y) ws }.Propagating r
        (Function.update s'.watchers (-y) ws) :=
    ⟨(s'.reorders_with (Function.update s'.watchers (-y) ws) s'.trail
      s'.nextToPropagate).wfTable hp.table, ⟨hp.trail.nodup, hp.trail.neg_not_mem,
      hp.trail.vidx_lt, hp.trail.next_le⟩, hp.root_le, hp.watches, hp.root⟩
  have hvisited (hres : res = true) :
      s'.Propagating r (Function.update s'.watchers (-y) ws) := by
    have hp := (hloop.visiting hres).toPropagating
    rwa [List.append_nil] at hp
  refine ⟨hextends, hloop.next, ?_, ?_, fun hres σ hσ => hloop.conflict hres σ ⟨hσ.clauses, hσ.trail⟩⟩
  · cases res with
    | true => exact hpropagating (hvisited rfl)
    | false => exact hpropagating (hloop.stop rfl)
  · intro hres
    refine ⟨hpropagating (hvisited hres), ?_⟩
    intro c hc k hk hneg
    obtain ⟨x, hx, hmem⟩ | ⟨-, hmem⟩ := (hloop.visiting hres).settled c hc k hk hneg
    · refine ⟨x, hx, ?_⟩
      rwa [List.take_length]
    · cases hmem

/-- Propagation ends, since each round propagates another variable. -/
theorem Ready.propagateLoop {n : Nat} (h : s.Ready r) (hn : s.sizeVars ≤ s.nextToPropagate + n) :
  ∃ res s', Checker.propagateLoop n s = some (res, s') ∧ s.Result r res s'
  := by
  have hdone (hle : s.trail.length ≤ s.nextToPropagate) : s.Result r true s := by
    have heq : s.nextToPropagate = s.trail.length := le_antisymm h.trail.next_le hle
    refine ⟨Extends.refl s, h.toPropagating, fun _ => ⟨heq, ?_⟩, nofun⟩
    have hsettled := h.settled
    rwa [heq] at hsettled
  induction n generalizing s with
  | zero =>
      have hle : s.trail.length ≤ s.nextToPropagate := h.trail.length_le.trans hn
      refine ⟨true, s, ?_, hdone hle⟩
      rw [Checker.propagateLoop, if_neg (Nat.not_lt.mpr hle)]
  | succ n ih =>
      rw [Checker.propagateLoop]
      split
      · next hnone => exact ⟨true, s, rfl, hdone (List.getElem?_eq_none_iff.mp hnone)⟩
      · next y hy =>
          have hstep := h.propagateLiteral hy
          generalize { s with nextToPropagate := s.nextToPropagate + 1 }.propagateLiteral (-y)
            = result at hstep
          obtain ⟨res, s'⟩ := result
          simp only at hstep ⊢
          cases res with
          | false =>
              exact ⟨false, s', rfl, hstep.extends_, hstep.propagating, nofun, hstep.conflict⟩
          | true =>
              have hready := hstep.ready rfl
              obtain ⟨res, s'', hloop, hresult⟩ := ih hready (by
                rw [hstep.next, hstep.extends_.reorders.sizeVars]
                omega) (by
                intro hle
                have heq : s'.nextToPropagate = s'.trail.length :=
                  le_antisymm hready.trail.next_le hle
                refine ⟨Extends.refl s', hready.toPropagating, fun _ => ⟨heq, ?_⟩, nofun⟩
                have hsettled := hready.settled
                rwa [heq] at hsettled)
              refine ⟨res, s'', hloop, hstep.extends_.trans hresult.extends_, hresult.propagating,
                hresult.settled, ?_⟩
              intro hres σ hσ
              exact hresult.conflict hres σ (hstep.extends_.holds σ hσ)

/-- Propagation comes to an end. -/
theorem Ready.propagate (h : s.Ready r) :
  ∃ res s', s.propagate = some (res, s') ∧ s.Result r res s'
  := h.propagateLoop (Nat.le_add_left _ _)

end Checker

end Cadical
