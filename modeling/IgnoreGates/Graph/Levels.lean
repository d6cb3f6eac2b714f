import Mathlib.Order.Bounds.Basic

/-!
# Levels of a breadth-first search

The vertices of a graph are searched from start vertices on; only inner vertices are expanded
and get a level.  `Levelled` is the invariant of a search that goes from one frontier to the
next, for an arbitrary representation of the frontiers.  At the end the level of an inner
vertex is one plus its distance from the start vertices, and zero stands for a vertex that is
not reached or not inner.
-/

universe u

namespace Graph

variable {V : Type u} (start inner : V → Prop) (edge : V → V → Prop)

/-- The vertex is reached by a walk of the given length from a start vertex, through inner
vertices. -/
inductive Walk : Nat → V → Prop where
  | start {v : V} : start v → Walk 0 v
  | step {d : Nat} {u v : V} : Walk d u → inner u → edge u v → Walk (d + 1) v

/-- The level of each inner vertex that is reached is one plus its distance from the start
vertices, and the level of every other vertex is zero. -/
def Distances (level : V → Nat) : Prop :=
  ∀ v, (inner v → ∀ d, IsLeast {d | Walk start inner edge d v} d → level v = d + 1)
    ∧ ((¬ inner v ∨ ∀ d, ¬ Walk start inner edge d v) → level v = 0)

/-- The search has given levels up to `k`, and the vertices at distance `k` are in the frontier
or have a level already. -/
structure Levelled (k : Nat) (level : V → Nat) (frontier : V → Prop) : Prop where
  begin : ∀ v, start v → frontier v ∨ (inner v → level v ≠ 0)
  closed : ∀ u v, level u ≠ 0 → edge u v → frontier v ∨ (inner v → level v ≠ 0)
  sound : ∀ v, level v ≠ 0 → inner v ∧ level v ≤ k ∧ Walk start inner edge (level v - 1) v
  walk : ∀ v, frontier v → Walk start inner edge k v
  least : ∀ d v, Walk start inner edge d v → d < k → inner v → level v ≠ 0 ∧ level v ≤ d + 1

variable {start inner : V → Prop} {edge : V → V → Prop} {k : Nat} {level level' : V → Nat}
  {frontier frontier' : V → Prop}

/-- Before the search the start vertices are the frontier. -/
theorem Levelled.init :
  Levelled start inner edge 0 (fun _ => 0) start
  where
    begin := fun _ hv => Or.inl hv
    closed := fun _ _ hu => absurd rfl hu
    sound := fun _ hv => absurd rfl hv
    walk := fun _ hv => Walk.start hv
    least := fun _ _ _ hd => absurd hd (Nat.not_lt_zero _)

/-- The inner vertices of the frontier that have no level get the next one, and their
successors are the next frontier. -/
theorem Levelled.next (h : Levelled start inner edge k level frontier)
    (hold : ∀ v, level v ≠ 0 → level' v = level v)
    (hnew : ∀ v, level v = 0 → level' v ≠ 0 →
      level' v = k + 1 ∧ inner v ∧ frontier v ∧ ∀ w, edge v w → frontier' w)
    (hdone : ∀ v, frontier v → inner v → level' v ≠ 0)
    (hfrom : ∀ w, frontier' w → ∃ v, level v = 0 ∧ level' v ≠ 0 ∧ edge v w) :
  Levelled start inner edge (k + 1) level' frontier'
  := by
  have hkeep : ∀ v, frontier v ∨ (inner v → level v ≠ 0) → inner v → level' v ≠ 0 := by
    rintro v (hv | hv) hinner
    · exact hdone v hv hinner
    · rw [hold v (hv hinner)]
      exact hv hinner
  have hsound : ∀ v, level' v ≠ 0 →
      inner v ∧ level' v ≤ k + 1 ∧ Walk start inner edge (level' v - 1) v := by
    intro v hv
    by_cases hlevel : level v = 0
    · obtain ⟨heq, hinner, hfront, -⟩ := hnew v hlevel hv
      rw [heq]
      exact ⟨hinner, le_rfl, h.walk v hfront⟩
    · obtain ⟨hinner, hle, hwalk⟩ := h.sound v hlevel
      rw [hold v hlevel]
      exact ⟨hinner, hle.trans (Nat.le_succ k), hwalk⟩
  refine ⟨fun v hv => Or.inr (hkeep v (h.begin v hv)), ?_, hsound, ?_, ?_⟩
  · intro u v hu huv
    by_cases hlevel : level u = 0
    · left
      exact (hnew u hlevel hu).2.2.2 v huv
    · right
      exact hkeep v (h.closed u v hlevel huv)
  · intro w hw
    obtain ⟨v, hlevel, hv, hvw⟩ := hfrom w hw
    obtain ⟨-, hinner, hfront, -⟩ := hnew v hlevel hv
    exact Walk.step (h.walk v hfront) hinner hvw
  · intro d v hwalk hd hinner
    obtain hlt | rfl := Nat.lt_succ_iff_lt_or_eq.mp hd
    · obtain ⟨hne, hle⟩ := h.least d v hwalk hlt hinner
      rw [hold v hne]
      exact ⟨hne, hle⟩
    · have hne : level' v ≠ 0 := by
        cases hwalk with
        | start hv => exact hkeep v (h.begin v hv) hinner
        | step hu huinner huv =>
            have hlevel := (h.least _ _ hu (Nat.lt_succ_self _) huinner).1
            exact hkeep v (h.closed _ v hlevel huv) hinner
      exact ⟨hne, (hsound v hne).2.1⟩

/-- When the frontier is empty, every inner vertex that is reached has a level. -/
theorem Levelled.complete (h : Levelled start inner edge k level (fun _ => False)) {d : Nat} {v : V}
    (hwalk : Walk start inner edge d v) (hinner : inner v) :
  level v ≠ 0
  := by
  induction hwalk with
  | start hv => exact (h.begin _ hv).resolve_left id hinner
  | step hu huinner huv ih => exact (h.closed _ _ (ih huinner) huv).resolve_left id hinner

/-- When the frontier is empty, the levels are the distances. -/
theorem Levelled.distances (h : Levelled start inner edge k level (fun _ => False)) :
  Distances start inner edge level
  := by
  intro v
  constructor
  · rintro hinner d ⟨hwalk, hleast⟩
    have hne := h.complete hwalk hinner
    obtain ⟨-, hle, hwalk'⟩ := h.sound v hne
    have hd : d ≤ level v - 1 := hleast hwalk'
    have hpos := Nat.pos_of_ne_zero hne
    by_cases hk : d < k
    · have hle' := (h.least d v hwalk hk hinner).2
      omega
    · omega
  · intro hnot
    by_contra hne
    obtain ⟨hinner, -, hwalk⟩ := h.sound v hne
    obtain hout | hout := hnot
    · exact hout hinner
    · exact hout _ hwalk

end Graph
