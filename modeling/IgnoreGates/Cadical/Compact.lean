import Mathlib.Data.List.Range
import IgnoreGates.Cadical.QueueOrder
import IgnoreGates.Cadical.Scores

/-!
# Compacting

The internal variables that are no longer active are removed, by mapping the others down to
an interval of indices.  Of the fixed variables only the first one is kept.
-/

namespace Cadical

open DoublyLinked

/-- The status of a variable in `Flags`. -/
inductive Status where
  | unused
  | active
  | fixed
  | eliminated
  | substituted
  | pure
  deriving DecidableEq

/-- `Mapper`. -/
structure Mapper where
  newMaxVar : Nat
  table : Nat → Nat
  firstFixed : Nat

namespace Mapper

/-- What the constructor does with one variable. -/
def visit (status : Nat → Status) (m : Mapper) (src : Nat) : Mapper :=
  if status src = .active then
    { m with
      table := Function.update m.table src (m.newMaxVar + 1)
      newMaxVar := m.newMaxVar + 1 }
  else if status src = .fixed ∧ m.firstFixed = 0 then
    { table := Function.update m.table src (m.newMaxVar + 1)
      newMaxVar := m.newMaxVar + 1
      firstFixed := src }
  else m

/-- The constructor `Mapper`. -/
def make (status : Nat → Status) (maxVar : Nat) : Mapper :=
  (Evsids.vars maxVar).foldl (visit status) { newMaxVar := 0, table := fun _ => 0, firstFixed := 0 }

variable {α : Type} (m : Mapper)

/-- One assignment of `map_vector`. -/
def mapEntry (v : Nat → α) (src : Nat) : Nat → α :=
  if m.table src = 0 then v else Function.update v (m.table src) (v src)

/-- `map_vector`: the entries are moved in place, and the vector is cut off. -/
def mapVector (maxVar : Nat) (default : α) (v : Nat → α) (idx : Nat) : α :=
  if idx ≤ m.newMaxVar then (Evsids.vars maxVar).foldl m.mapEntry v idx else default

/-- The mapping of the values, into a new array. -/
def mapVals (maxVar : Nat) (assigned : Nat → Bool) : Nat → Bool :=
  Function.update ((Evsids.vars maxVar).foldl
    (fun newVals src => Function.update newVals (m.table src) (assigned src)) (fun _ => false))
    0 false

end Mapper

/-- A variable of the queue is linked behind `prev`, both by their new indices. -/
def Vmtf.flushLink (q : Vmtf) (dst idx prev mappedPrev : Nat) : Vmtf :=
  { q with
    links := setPrev (if prev = 0 then q.links else setNext q.links prev dst) idx mappedPrev
    queue := { q.queue with first := if prev = 0 then dst else q.queue.first } }

/-- The loop of `compact` that flushes the queue, for a bounded number of iterations. -/
def Vmtf.flushLoop (m : Mapper) : Nat → Vmtf → Nat → Nat → Nat → Vmtf
  | 0, q, _, _, _ => q
  | n + 1, q, idx, prev, mappedPrev =>
      if idx = 0 then
        { q with
          links := if prev = 0 then q.links else setNext q.links prev 0
          queue := { q.queue with
            first := if prev = 0 then 0 else q.queue.first
            unassigned := mappedPrev
            last := mappedPrev } }
      else
        let next := (q.links idx).next
        let dst := m.table idx
        if idx = m.firstFixed ∨ dst = 0 then flushLoop m n q next prev mappedPrev
        else flushLoop m n (q.flushLink dst idx prev mappedPrev) next idx dst

/-- What `compact` does with the queue. -/
def Vmtf.compact (m : Mapper) (maxVar : Nat) (q : Vmtf) : Vmtf :=
  let q := q.flushLoop m (maxVar + 1) q.queue.first 0 0
  { q with
    links := m.mapVector maxVar ⟨0, 0⟩ q.links
    btab := m.mapVector maxVar 0 q.btab }

/-- The variables of the heap that `compact` saves, mapped. -/
def Evsids.saved (m : Mapper) (e : Evsids) : List Nat :=
  ((e.scores.popAll e.less e.scores.size).filter
    (fun src => m.table src ≠ 0 ∧ src ≠ m.firstFixed)).map m.table

/-- What `compact` does with the scores. -/
def Evsids.compact (m : Mapper) (maxVar : Nat) (e : Evsids) : Evsids :=
  let stab := m.mapVector maxVar 0 e.stab
  { e with
    scores := (e.saved m).foldl (Heap.pushBack (scoreSmaller stab))
      (if e.scores.size = 0 then e.scores else Heap.empty)
    stab }

/-! ### The table -/

/-- The variables that are kept are mapped down, in their order, to all new variables. -/
structure Mapper.Spec (status : Nat → Status) (maxVar : Nat) (m : Mapper) : Prop where
  kept : ∀ src, m.table src ≠ 0 ↔
    (1 ≤ src ∧ src ≤ maxVar) ∧ (status src = .active ∨ src = m.firstFixed)
  mono : ∀ a b, a < b → m.table a ≠ 0 → m.table b ≠ 0 → m.table a < m.table b
  le_self : ∀ src, m.table src ≤ src
  le_new : ∀ src, m.table src ≤ m.newMaxVar
  onto : ∀ dst, 1 ≤ dst → dst ≤ m.newMaxVar → ∃ src, m.table src = dst
  fixed : m.firstFixed ≠ 0 → status m.firstFixed = .fixed ∧ m.firstFixed ≤ maxVar

namespace Mapper

variable {status : Nat → Status} {maxVar : Nat} {m : Mapper}

theorem vars_succ (n : Nat) :
  Evsids.vars (n + 1) = Evsids.vars n ++ [n + 1]
  := by
  rw [Evsids.vars, List.range'_1_concat, Nat.add_comm 1 n]
  rfl

/-- A variable that is kept gets the next index. -/
theorem Spec.keep {n : Nat} (h : m.Spec status n) {firstFixed : Nat}
    (hkept : ∀ src, (1 ≤ src ∧ src ≤ n + 1) ∧ (status src = .active ∨ src = firstFixed) ↔
      src = n + 1 ∨ (1 ≤ src ∧ src ≤ n) ∧ (status src = .active ∨ src = m.firstFixed))
    (hfixed : firstFixed ≠ 0 → status firstFixed = .fixed ∧ firstFixed ≤ n + 1) :
  Spec status (n + 1)
    { table := Function.update m.table (n + 1) (m.newMaxVar + 1)
      newMaxVar := m.newMaxVar + 1
      firstFixed }
  := by
  have hother : ∀ src, src ≠ n + 1 →
      Function.update m.table (n + 1) (m.newMaxVar + 1) src = m.table src :=
    fun src hne => Function.update_of_ne hne _ _
  have hself : Function.update m.table (n + 1) (m.newMaxVar + 1) (n + 1) = m.newMaxVar + 1 :=
    Function.update_self _ _ _
  -- The new variables are counted by old ones.
  have hcount : m.newMaxVar ≤ n := by
    obtain hzero | hpos := Nat.eq_zero_or_pos m.newMaxVar
    · omega
    · obtain ⟨src, hsrc⟩ := h.onto m.newMaxVar hpos le_rfl
      have hle := h.le_self src
      have hrange := ((h.kept src).mp (by omega)).1
      omega
  refine ⟨?_, ?_, ?_, ?_, ?_, hfixed⟩
  · intro src
    rw [hkept]
    change Function.update m.table (n + 1) (m.newMaxVar + 1) src ≠ 0 ↔ _
    by_cases heq : src = n + 1
    · subst heq
      rw [hself]
      simp
    · rw [hother src heq, h.kept]
      simp [heq]
  · intro a b hab ha hb
    change Function.update m.table (n + 1) (m.newMaxVar + 1) a
      < Function.update m.table (n + 1) (m.newMaxVar + 1) b
    change Function.update m.table (n + 1) (m.newMaxVar + 1) a ≠ 0 at ha
    change Function.update m.table (n + 1) (m.newMaxVar + 1) b ≠ 0 at hb
    have hle : b ≤ n + 1 := by
      by_cases heq : b = n + 1
      · omega
      · rw [hother b heq, h.kept] at hb
        omega
    rw [hother a (by omega)] at ha ⊢
    by_cases heq : b = n + 1
    · rw [heq, hself]
      exact Nat.lt_succ_of_le (h.le_new a)
    · rw [hother b heq] at hb ⊢
      exact h.mono a b hab ha hb
  · intro src
    change Function.update m.table (n + 1) (m.newMaxVar + 1) src ≤ src
    by_cases heq : src = n + 1
    · rw [heq, hself]
      omega
    · rw [hother src heq]
      exact h.le_self src
  · intro src
    change Function.update m.table (n + 1) (m.newMaxVar + 1) src
      ≤ m.newMaxVar + 1
    by_cases heq : src = n + 1
    · rw [heq, hself]
    · rw [hother src heq]
      exact (h.le_new src).trans (Nat.le_succ _)
  · intro dst hpos hle
    change dst ≤ m.newMaxVar + 1 at hle
    obtain hle | rfl := Nat.le_succ_iff.mp hle
    · obtain ⟨src, hsrc⟩ := h.onto dst hpos hle
      use src
      change Function.update m.table (n + 1) (m.newMaxVar + 1) src = dst
      rw [hother src]
      · exact hsrc
      · rintro rfl
        have hrange := ((h.kept (n + 1)).mp (by omega)).1
        omega
    · exact ⟨n + 1, hself⟩

/-- The constructor computes the table. -/
theorem make_spec (status : Nat → Status) (maxVar : Nat) :
  (make status maxVar).Spec status maxVar
  := by
  induction maxVar with
  | zero =>
      refine ⟨?_, ?_, fun _ => Nat.zero_le _, fun _ => Nat.zero_le _, ?_, fun hne => absurd rfl hne⟩
      · intro src
        simp [make, Evsids.vars]
        omega
      · intro a b _ ha _
        exact absurd rfl ha
      · intro dst hpos hle
        change dst ≤ 0 at hle
        omega
  | succ n ih =>
      have hstep : make status (n + 1) = visit status (make status n) (n + 1) := by
        rw [make, vars_succ, List.foldl_append]
        rfl
      rw [hstep]
      revert ih
      generalize make status n = m
      intro h
      have hnew : m.firstFixed ≠ n + 1 := by
        intro heq
        have hfixed := h.fixed (by omega)
        omega
      rw [visit]
      split
      · next hactive =>
          apply h.keep
          · intro src
            by_cases heq : src = n + 1
            · subst heq
              simp [hactive]
            · have hle : src ≤ n + 1 ↔ src ≤ n := by omega
              simp [heq, hle]
          · intro hne
            exact ⟨(h.fixed hne).1, (h.fixed hne).2.trans (Nat.le_succ n)⟩
      · next hactive =>
          split
          · next hfirst =>
              obtain ⟨hfixed, hzero⟩ := hfirst
              apply h.keep
              · intro src
                by_cases heq : src = n + 1
                · subst heq
                  simp
                · have hle : src ≤ n + 1 ↔ src ≤ n := by omega
                  have hsrc : src = m.firstFixed ↔ src = 0 := by rw [hzero]
                  simp only [heq, hle, hsrc, or_false, false_or]
                  constructor
                  · rintro ⟨hrange, hactive⟩
                    exact ⟨hrange, Or.inl hactive⟩
                  · rintro ⟨hrange, hactive | hzero⟩
                    · exact ⟨hrange, hactive⟩
                    · omega
              · intro _
                exact ⟨hfixed, le_rfl⟩
          · next hskip =>
              refine ⟨?_, h.mono, h.le_self, h.le_new, h.onto, ?_⟩
              · intro src
                rw [h.kept]
                by_cases heq : src = n + 1
                · subst heq
                  constructor
                  · rintro ⟨hrange, -⟩
                    omega
                  · rintro ⟨-, hactive' | hfirst⟩
                    · exact absurd hactive' hactive
                    · exact absurd hfirst.symm hnew
                · have hle : src ≤ n + 1 ↔ src ≤ n := by omega
                  rw [hle]
              · intro hne
                exact ⟨(h.fixed hne).1, (h.fixed hne).2.trans (Nat.le_succ n)⟩

/-- Different variables that are kept are mapped to different ones. -/
theorem Spec.inj (h : m.Spec status maxVar) {a b : Nat} (ha : m.table a ≠ 0)
    (heq : m.table a = m.table b) :
  a = b
  := by
  obtain hlt | heq' | hlt := Nat.lt_trichotomy a b
  · have hlt' := h.mono a b hlt ha (heq ▸ ha)
    omega
  · exact heq'
  · have hlt' := h.mono b a hlt (heq ▸ ha) ha
    omega

/-- The entry of a variable that is kept is found at its new index. -/
theorem Spec.mapVector (h : m.Spec status maxVar) {α : Type} (default : α) (v : Nat → α)
    {src : Nat} (hsrc : m.table src ≠ 0) :
  m.mapVector maxVar default v (m.table src) = v src
  := by
  have hfold : ∀ n, (∀ src, src ≤ n → m.table src ≠ 0 →
        (Evsids.vars n).foldl m.mapEntry v (m.table src) = v src)
      ∧ ∀ idx, n < idx → (Evsids.vars n).foldl m.mapEntry v idx = v idx := by
    intro n
    induction n with
    | zero =>
        refine ⟨?_, fun _ _ => rfl⟩
        intro src hle hsrc
        have hrange := ((h.kept src).mp hsrc).1
        omega
    | succ n ih =>
        obtain ⟨hmapped, hrest⟩ := ih
        rw [vars_succ, List.foldl_append, List.foldl_cons, List.foldl_nil, mapEntry]
        split
        · next hskip =>
            refine ⟨?_, fun idx hlt => hrest idx (by omega)⟩
            intro src hle hsrc
            apply hmapped src _ hsrc
            by_contra hgt
            rw [show src = n + 1 by omega] at hsrc
            exact hsrc hskip
        · next hkeep =>
            have hle := h.le_self (n + 1)
            constructor
            · intro src hsrcle hsrc
              by_cases heq : src = n + 1
              · rw [heq, Function.update_self]
                exact hrest (n + 1) (Nat.lt_succ_self n)
              · rw [Function.update_of_ne (fun heq' => heq (h.inj hsrc heq'))]
                exact hmapped src (by omega) hsrc
            · intro idx hlt
              rw [Function.update_of_ne (by omega)]
              exact hrest idx (by omega)
  rw [Mapper.mapVector, if_pos (h.le_new src)]
  exact (hfold maxVar).1 src ((h.kept src).mp hsrc).1.2 hsrc

/-- The entry at zero is not moved. -/
theorem mapVector_zero (m : Mapper) (maxVar : Nat) {α : Type} (default : α) (v : Nat → α) :
  m.mapVector maxVar default v 0 = v 0
  := by
  rw [Mapper.mapVector, if_pos (Nat.zero_le _)]
  have hfold : ∀ (srcs : List Nat) (v : Nat → α), srcs.foldl m.mapEntry v 0 = v 0 := by
    intro srcs
    induction srcs with
    | nil => exact fun _ => rfl
    | cons src srcs ih =>
        intro v
        rw [List.foldl_cons, ih, mapEntry]
        split
        · rfl
        · next hne => exact Function.update_of_ne (Ne.symm hne) _ _
  exact hfold _ v

/-- The value of a variable that is kept. -/
theorem Spec.mapVals (h : m.Spec status maxVar) (assigned : Nat → Bool) {src : Nat}
    (hsrc : m.table src ≠ 0) :
  m.mapVals maxVar assigned (m.table src) = assigned src
  := by
  have hfold : ∀ n, ∀ src, src ≤ n → m.table src ≠ 0 → (Evsids.vars n).foldl
      (fun newVals src => Function.update newVals (m.table src) (assigned src)) (fun _ => false)
      (m.table src) = assigned src := by
    intro n
    induction n with
    | zero =>
        intro src hle hsrc
        have hrange := ((h.kept src).mp hsrc).1
        omega
    | succ n ih =>
        intro src hle hsrc
        rw [vars_succ, List.foldl_append, List.foldl_cons, List.foldl_nil]
        by_cases heq : src = n + 1
        · rw [heq, Function.update_self]
        · rw [Function.update_of_ne (fun heq' => heq (h.inj hsrc heq'))]
          exact ih src (by omega) hsrc
  rw [Mapper.mapVals, Function.update_of_ne hsrc]
  exact hfold maxVar src ((h.kept src).mp hsrc).1.2 hsrc

/-- Only new variables have a value. -/
theorem Spec.mapVals_range (h : m.Spec status maxVar) (assigned : Nat → Bool) {idx : Nat}
    (hidx : m.mapVals maxVar assigned idx = true) :
  1 ≤ idx ∧ idx ≤ m.newMaxVar
  := by
  have hfold : ∀ n, (Evsids.vars n).foldl
      (fun newVals src => Function.update newVals (m.table src) (assigned src)) (fun _ => false)
      idx = true → ∃ src, m.table src = idx := by
    intro n
    induction n with
    | zero =>
        intro hval
        cases hval
    | succ n ih =>
        intro hval
        rw [vars_succ, List.foldl_append, List.foldl_cons, List.foldl_nil] at hval
        by_cases heq : idx = m.table (n + 1)
        · exact ⟨n + 1, heq.symm⟩
        · rw [Function.update_of_ne heq] at hval
          exact ih hval
  have hpos : idx ≠ 0 := by
    rintro rfl
    rw [Mapper.mapVals, Function.update_self] at hidx
    cases hidx
  rw [Mapper.mapVals, Function.update_of_ne hpos] at hidx
  obtain ⟨src, rfl⟩ := hfold maxVar hidx
  exact ⟨Nat.pos_of_ne_zero hpos, h.le_new src⟩

end Mapper

end Cadical
