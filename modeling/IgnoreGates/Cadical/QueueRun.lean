import Mathlib.Data.Finset.Insert
import IgnoreGates.Cadical.QueueSearch

/-!
# Runs on the decision queue

The queue of all variables, and beside it the queue that the version without `BRANCHAUX` keeps
for the variables that are not auxiliary.  Over every run, both have these variables in the
same order and make the same decisions.
-/

namespace Cadical

open DoublyLinked

namespace Vmtf

/-- The loop of `next_decision_variable_on_queue` without `BRANCHAUX`, for a bounded number of
iterations. -/
def plainLoop (assigned : Nat → Bool) : Nat → Vmtf → Nat → Bool → Option (Nat × Bool)
  | 0, _, _, _ => none
  | n + 1, q, res, searched =>
      if assigned res then plainLoop assigned n q (q.links res).prev true else some (res, searched)

/-- `next_decision_variable_on_queue` without `BRANCHAUX`. -/
def plainNextDecisionVariableOnQueue (q : Vmtf) (assigned : Nat → Bool) (n : Nat) :
    Option (Nat × Vmtf) :=
  match plainLoop assigned n q q.queue.unassigned false with
  | none => none
  | some (res, searched) => some (res, if searched then q.updateQueueUnassigned res else q)

/-- Where no variable is auxiliary, both versions do the same. -/
theorem plainLoop_eq (assigned : Nat → Bool) (n : Nat) (q : Vmtf) (res : Nat) (searched : Bool) :
  nextLoop assigned (fun _ => false) n q res searched
    = (plainLoop assigned n q res searched).map (fun r => (r.1, r.2, q))
  := by
  induction n generalizing res searched with
  | zero => rfl
  | succ n ih =>
      rw [nextLoop, plainLoop]
      by_cases hassigned : assigned res = true
      · rw [if_pos (Or.inl hassigned), if_pos hassigned]
        exact ih _ _
      · rw [if_neg (by simpa using hassigned), if_neg hassigned]
        rfl

theorem plainNextDecisionVariableOnQueue_eq (q : Vmtf) (assigned : Nat → Bool) (n : Nat) :
  q.plainNextDecisionVariableOnQueue assigned n
    = q.nextDecisionVariableOnQueue assigned (fun _ => false) n
  := by
  rw [plainNextDecisionVariableOnQueue, nextDecisionVariableOnQueue, plainLoop_eq]
  cases plainLoop assigned n q q.queue.unassigned false <;> rfl

end Vmtf

/-- The queue with all variables, the queue of the version without `BRANCHAUX` with those that
are not auxiliary, and the variables that have been enqueued. -/
structure QueueRun where
  vmtf : Vmtf
  plain : Vmtf
  enqueued : Finset Nat
  assigned : Nat → Bool
  fixed : Nat → Bool

namespace QueueRun

/-- The state without variables. -/
def init : QueueRun where
  vmtf := Vmtf.init
  plain := Vmtf.init
  enqueued := ∅
  assigned := fun _ => false
  fixed := fun _ => false

section Operations

variable (isAux : Nat → Bool) (reverse : Bool) (s : QueueRun)

/-- A variable is enqueued. -/
def enqueue (idx : Nat) : QueueRun :=
  { s with
    vmtf := s.vmtf.initEnqueue reverse idx
    plain := if isAux idx then s.plain else s.plain.initEnqueue reverse idx
    enqueued := insert idx s.enqueued }

/-- A variable is bumped. -/
def bump (idx : Nat) : QueueRun :=
  { s with
    vmtf := s.vmtf.bumpQueue s.assigned idx
    plain := s.plain.bumpQueue s.assigned idx }

/-- A variable is assigned, and it is fixed on root level. -/
def assign (root : Bool) (idx : Nat) : QueueRun :=
  { s with
    assigned := Function.update s.assigned idx true
    fixed := if root then Function.update s.fixed idx true else s.fixed }

def unassign (idx : Nat) : QueueRun :=
  { s with
    vmtf := s.vmtf.unassign idx
    plain := if isAux idx then s.plain else s.plain.unassign idx
    assigned := Function.update s.assigned idx false }

/-- Some variable is neither assigned nor auxiliary. -/
def HasDecision : Prop :=
  ∃ idx ∈ s.enqueued, s.assigned idx = false ∧ isAux idx = false

end Operations

/-- One step.  With `reverse`, variables are enqueued in front, on root level; fixed variables
are not bumped.  The search for the next decision is done on both queues. -/
inductive Step (isAux : Nat → Bool) (reverse : Bool) : QueueRun → QueueRun → Prop
  | enqueue (s : QueueRun) {idx : Nat} (hpos : idx ≠ 0) (hnew : idx ∉ s.enqueued)
      (hroot : reverse = true → ∀ x, s.fixed x = false → s.assigned x = false) :
      Step isAux reverse s (s.enqueue isAux reverse idx)
  | bump (s : QueueRun) {idx : Nat} (hidx : idx ∈ s.enqueued) (haux : isAux idx = false)
      (hfixed : reverse = true → s.fixed idx = false) : Step isAux reverse s (s.bump idx)
  | assign (s : QueueRun) (root : Bool) {idx : Nat} (hidx : idx ∈ s.enqueued)
      (hun : s.assigned idx = false) : Step isAux reverse s (s.assign root idx)
  | unassign (s : QueueRun) {idx : Nat} (hidx : idx ∈ s.enqueued) (h : s.assigned idx = true) :
      Step isAux reverse s (s.unassign isAux idx)
  | next (s : QueueRun) {m n x y : Nat} {vmtf plain : Vmtf} (hhas : s.HasDecision isAux)
      (hvmtf : s.vmtf.nextDecisionVariableOnQueue s.assigned isAux m = some (x, vmtf))
      (hplain : s.plain.plainNextDecisionVariableOnQueue s.assigned n = some (y, plain)) :
      Step isAux reverse s { s with vmtf, plain }

/-- The states of a run. -/
inductive Reachable (isAux : Nat → Bool) (reverse : Bool) : QueueRun → Prop
  | init : Reachable isAux reverse init
  | step {s s' : QueueRun} (h : Reachable isAux reverse s) (hstep : Step isAux reverse s s') :
      Reachable isAux reverse s'

/-! ### The invariant -/

/-- The fixed variables only matter with `reverse`. -/
def settled (reverse : Bool) (s : QueueRun) (idx : Nat) : Bool :=
  reverse && s.fixed idx

/-- Both queues have their variables in the same order. -/
def Inv (isAux : Nat → Bool) (reverse : Bool) (s : QueueRun) (l : List Nat) : Prop :=
  s.vmtf.Inv s.assigned (s.settled reverse) l
    ∧ s.plain.Inv s.assigned (s.settled reverse) (l.filter (fun x => !isAux x))
    ∧ ∀ x, x ∈ l ↔ x ∈ s.enqueued

namespace Inv

variable {isAux : Nat → Bool} {reverse : Bool} {s : QueueRun} {l : List Nat} {idx : Nat}

theorem init (isAux : Nat → Bool) (reverse : Bool) :
  Inv isAux reverse QueueRun.init []
  := ⟨Vmtf.Inv.init _ _, Vmtf.Inv.init _ _, fun _ => by simp [QueueRun.init]⟩

theorem enqueue (h : Inv isAux reverse s l) (hpos : idx ≠ 0) (hnew : idx ∉ s.enqueued)
    (hroot : reverse = true → ∀ x, s.fixed x = false → s.assigned x = false) :
  Inv isAux reverse (s.enqueue isAux reverse idx) (if reverse then idx :: l else l ++ [idx])
  := by
  obtain ⟨hvmtf, hplain, hmem⟩ := h
  have hidx : idx ∉ l := fun hin => hnew ((hmem idx).mp hin)
  have hroot' : reverse = true → ∀ x, s.settled reverse x = false → s.assigned x = false := by
    rintro rfl x hx
    exact hroot rfl x hx
  refine ⟨hvmtf.initEnqueue hidx hpos reverse (fun hrev x _ => hroot' hrev x), ?_, ?_⟩
  · change (if isAux idx then s.plain else s.plain.initEnqueue reverse idx).Inv s.assigned
      (s.settled reverse) _
    cases haux : isAux idx with
    | true =>
        have hsame : (if reverse then idx :: l else l ++ [idx]).filter (fun x => !isAux x)
            = l.filter (fun x => !isAux x) := by
          cases reverse <;> simp [haux]
        rw [hsame]
        exact hplain
    | false =>
        have hfilter : (if reverse then idx :: l else l ++ [idx]).filter (fun x => !isAux x)
            = if reverse then idx :: l.filter (fun x => !isAux x)
              else l.filter (fun x => !isAux x) ++ [idx] := by
          cases reverse <;> simp [haux]
        rw [hfilter]
        apply hplain.initEnqueue _ hpos reverse (fun hrev x _ => hroot' hrev x)
        exact fun hin => hidx (List.mem_of_mem_filter hin)
  · intro x
    rw [Vmtf.mem_initEnqueue, hmem]
    exact Finset.mem_insert.symm

theorem bump (h : Inv isAux reverse s l) (hidx : idx ∈ s.enqueued) (haux : isAux idx = false)
    (hfixed : reverse = true → s.fixed idx = false) :
  ∃ l', Inv isAux reverse (s.bump idx) l'
  := by
  obtain ⟨hvmtf, hplain, hmem⟩ := h
  obtain ⟨l₁, l₂, rfl⟩ := List.append_of_mem ((hmem idx).mpr hidx)
  have hsettled : s.settled reverse idx = false := by
    cases reverse with
    | false => rfl
    | true => exact hfixed rfl
  refine ⟨_, hvmtf.bumpQueue hsettled, ?_, ?_⟩
  · rw [List.filter_append, List.filter_cons, if_pos (by simp [haux])] at hplain
    have hfilter : (l₁ ++ l₂ ++ [idx]).filter (fun x => !isAux x)
        = l₁.filter (fun x => !isAux x) ++ l₂.filter (fun x => !isAux x) ++ [idx] := by
      simp [haux]
    rw [hfilter]
    exact hplain.bumpQueue hsettled
  · intro x
    have hperm : (l₁ ++ l₂ ++ [idx]).Perm (l₁ ++ idx :: l₂) :=
      (List.perm_append_singleton idx (l₁ ++ l₂)).trans List.perm_middle.symm
    rw [hperm.mem_iff]
    exact hmem x

theorem assign (h : Inv isAux reverse s l) (root : Bool) (hun : s.assigned idx = false) :
  Inv isAux reverse (s.assign root idx) l
  := by
  obtain ⟨hvmtf, hplain, hmem⟩ := h
  have hassigned : ∀ x, (s.assign root idx).assigned x = false → s.assigned x = false := by
    intro x hx
    change Function.update s.assigned idx true x = false at hx
    by_cases heq : x = idx
    · rw [heq]
      exact hun
    · rwa [Function.update_of_ne heq] at hx
  have hfixed : ∀ x, (s.assign root idx).settled reverse x = true →
      s.settled reverse x = true ∨ s.assigned x = false := by
    intro x hx
    by_cases heq : x = idx
    · rw [heq]
      exact Or.inr hun
    · left
      cases root with
      | false => exact hx
      | true =>
          change (reverse && Function.update s.fixed idx true x) = true at hx
          rwa [Function.update_of_ne heq] at hx
  exact ⟨hvmtf.mono (fun x _ => hassigned x) (fun x _ => hfixed x),
    hplain.mono (fun x _ => hassigned x) (fun x _ => hfixed x), hmem⟩

theorem unassign (h : Inv isAux reverse s l) (hidx : idx ∈ s.enqueued) :
  Inv isAux reverse (s.unassign isAux idx) l
  := by
  obtain ⟨hvmtf, hplain, hmem⟩ := h
  refine ⟨hvmtf.unassign ((hmem idx).mpr hidx), ?_, hmem⟩
  change (if isAux idx then s.plain else s.plain.unassign idx).Inv
    (Function.update s.assigned idx false) (s.settled reverse) _
  cases haux : isAux idx with
  | true =>
      apply hplain.mono
      · intro x hx hun
        have hne : x ≠ idx := by
          rintro rfl
          simp [haux] at hx
        rwa [Function.update_of_ne hne] at hun
      · exact fun x _ hx => Or.inl hx
  | false =>
      apply hplain.unassign
      rw [List.mem_filter]
      exact ⟨(hmem idx).mpr hidx, by simp [haux]⟩

/-- Both searches find the last variable that is neither assigned nor auxiliary. -/
theorem next (h : Inv isAux reverse s l) (hhas : s.HasDecision isAux) :
  ∃ n x vmtf plain l',
    s.vmtf.nextDecisionVariableOnQueue s.assigned isAux n = some (x, vmtf)
    ∧ s.plain.plainNextDecisionVariableOnQueue s.assigned n = some (x, plain)
    ∧ (s.assigned x = false ∧ isAux x = false)
    ∧ (∃ F E, l = F ++ x :: E ∧ ∀ y ∈ E, ¬ (s.assigned y = false ∧ isAux y = false))
    ∧ Inv isAux reverse { s with vmtf, plain } l' ∧ l'.Perm l
    ∧ l'.filter (fun y => !isAux y) = l.filter (fun y => !isAux y)
  := by
  obtain ⟨hvmtf, hplain, hmem⟩ := h
  obtain ⟨w, hw, hwun, hwaux⟩ := hhas
  have hwl : w ∈ l := (hmem w).mpr hw
  obtain ⟨x, vmtf, l', hnext, hx, ⟨F, E, hsplit, hE⟩, hvmtf', hperm, hfilter⟩ :=
    hvmtf.nextDecisionVariableOnQueue ⟨w, hwl, hwun, hwaux⟩ (Nat.lt_succ_self l.length)
  have hlength : (l.filter (fun y => !isAux y)).length < l.length + 1 :=
    Nat.lt_succ_of_le (List.length_filter_le _ l)
  obtain ⟨y, plain, l'', hnext', ⟨hyun, -⟩, ⟨F', E', hsplit', hE'⟩, hplain', -, hfilter'⟩ :=
    @Vmtf.Inv.nextDecisionVariableOnQueue _ _ (fun _ => false) _ _ hplain
      ⟨w, List.mem_filter.mpr ⟨hwl, by simp [hwaux]⟩, hwun, rfl⟩ _ hlength
  have hxy : x = y := by
    have hboth := congrArg (List.filter (fun y => !isAux y)) hsplit
    rw [hsplit', List.filter_append, List.filter_cons, if_pos (by simp [hx.2])] at hboth
    refine (Vmtf.last_split_unique (p := fun z => s.assigned z = false) hboth hyun hx.1 ?_ ?_).symm
    · intro z hz hzun
      exact hE' z hz ⟨hzun, rfl⟩
    · intro z hz hzun
      rw [List.mem_filter] at hz
      exact hE z hz.1 ⟨hzun, by simpa using hz.2⟩
  have hsame : l'' = l.filter (fun y => !isAux y) := by simpa using hfilter'
  rw [hsame, ← hfilter] at hplain'
  refine ⟨l.length + 1, x, vmtf, plain, l', hnext, ?_, hx, ⟨F, E, hsplit, hE⟩,
    ⟨hvmtf', hplain', ?_⟩, hperm, hfilter⟩
  · rw [Vmtf.plainNextDecisionVariableOnQueue_eq, hnext', hxy]
  · intro z
    rw [hperm.mem_iff]
    exact hmem z

/-- Every step keeps the invariant. -/
theorem step {s' : QueueRun} (h : Inv isAux reverse s l) (hstep : Step isAux reverse s s') :
  ∃ l', Inv isAux reverse s' l'
  := by
  cases hstep with
  | enqueue hpos hnew hroot => exact ⟨_, h.enqueue hpos hnew hroot⟩
  | bump hidx haux hfixed => exact h.bump hidx haux hfixed
  | assign root hidx hun => exact ⟨l, h.assign root hun⟩
  | unassign hidx _ => exact ⟨l, h.unassign hidx⟩
  | next hhas hvmtf hplain =>
      obtain ⟨k, z, vmtf', plain', l', hvmtf', hplain', -, -, hinv, -⟩ := h.next hhas
      have hvmtf := Vmtf.nextDecisionVariableOnQueue_mono (Nat.le_max_left _ k) hvmtf
      rw [Vmtf.nextDecisionVariableOnQueue_mono (Nat.le_max_right _ k) hvmtf'] at hvmtf
      rw [Vmtf.plainNextDecisionVariableOnQueue_eq] at hplain hplain'
      have hplain := Vmtf.nextDecisionVariableOnQueue_mono (Nat.le_max_left _ k) hplain
      rw [Vmtf.nextDecisionVariableOnQueue_mono (Nat.le_max_right _ k) hplain'] at hplain
      obtain ⟨-, rfl⟩ := Prod.mk.inj (Option.some.inj hvmtf)
      obtain ⟨-, rfl⟩ := Prod.mk.inj (Option.some.inj hplain)
      exact ⟨l', hinv⟩

end Inv

/-- The invariant holds in every state of a run. -/
theorem Reachable.inv {isAux : Nat → Bool} {reverse : Bool} {s : QueueRun}
    (h : Reachable isAux reverse s) :
  ∃ l, Inv isAux reverse s l
  := by
  induction h with
  | init => exact ⟨[], Inv.init isAux reverse⟩
  | step _ hstep ih =>
      obtain ⟨l, hl⟩ := ih
      exact hl.step hstep

/-- In every state of a run, the queue is a list of all variables in the order of their time
stamps, with the unassigned variables that are not auxiliary up to the pointer.  If there is
one, the search finds the one with the largest stamp, as the version without `BRANCHAUX` does on
the queue of the variables that are not auxiliary, and their order does not change. -/
theorem decides_as_plain {isAux : Nat → Bool} {reverse : Bool} {s : QueueRun}
    (h : Reachable isAux reverse s) :
  ∃ l, s.vmtf.Linked l ∧ (∀ x, x ∈ l ↔ x ∈ s.enqueued)
    ∧ l.Pairwise (fun x y => s.vmtf.btab x < s.vmtf.btab y)
    ∧ (∀ x ∈ s.enqueued, s.assigned x = false → isAux x = false →
      ∃ l₁ l₂, l = l₁ ++ s.vmtf.queue.unassigned :: l₂ ∧ x ∈ l₁ ++ [s.vmtf.queue.unassigned])
    ∧ s.plain.Linked (l.filter (fun x => !isAux x))
    ∧ (s.HasDecision isAux → ∃ n x vmtf plain l',
      (∀ m, n ≤ m → s.vmtf.nextDecisionVariableOnQueue s.assigned isAux m = some (x, vmtf))
      ∧ x ∈ s.enqueued ∧ s.assigned x = false ∧ isAux x = false
      ∧ (∀ y ∈ s.enqueued, s.assigned y = false → isAux y = false →
        s.vmtf.btab y ≤ s.vmtf.btab x)
      ∧ vmtf.Linked l' ∧ l'.Perm l
      ∧ l'.filter (fun y => !isAux y) = l.filter (fun y => !isAux y)
      ∧ s.plain.plainNextDecisionVariableOnQueue s.assigned n = some (x, plain))
  := by
  obtain ⟨l, hl⟩ := h.inv
  obtain ⟨hvmtf, hplain, hmem⟩ := hl
  refine ⟨l, hvmtf.toLinked, hmem, hvmtf.sorted, ?_, hplain.toLinked, ?_⟩
  · intro x hx hun _
    have hxl := (hmem x).mpr hx
    have hne : l ≠ [] := by
      rintro rfl
      cases hxl
    obtain ⟨l₁, l₂, hsplit⟩ := List.append_of_mem (hvmtf.unassigned_mem hne)
    exact ⟨l₁, l₂, hsplit, hvmtf.unassigned_before hsplit hxl hun⟩
  · intro hhas
    obtain ⟨n, x, vmtf, plain, l', hnext, hnext', hx, ⟨F, E, hsplit, hE⟩, hinv, hperm, hfilter⟩ :=
      Inv.next ⟨hvmtf, hplain, hmem⟩ hhas
    refine ⟨n, x, vmtf, plain, l', ?_, ?_, hx.1, hx.2, ?_, hinv.1.toLinked, hperm, hfilter, hnext'⟩
    · intro m hle
      exact Vmtf.nextDecisionVariableOnQueue_mono hle hnext
    · rw [← hmem, hsplit]
      exact List.mem_append_right F List.mem_cons_self
    · intro y hy hyun hyaux
      have hyl := (hmem y).mpr hy
      have hsorted := hvmtf.sorted
      rw [hsplit] at hyl hsorted
      obtain hy | hy := List.mem_append.mp hyl
      · exact le_of_lt (Vmtf.lt_of_sorted hsorted hy)
      · obtain rfl | hy := List.mem_cons.mp hy
        · exact le_rfl
        · exact absurd ⟨hyun, hyaux⟩ (hE y hy)

/-- The state after the variables `1` and `2` have been enqueued. -/
def twoEnqueued : QueueRun :=
  (init.enqueue (fun x => x == 2) false 1).enqueue (fun x => x == 2) false 2

theorem reachable_twoEnqueued :
  Reachable (fun x => x == 2) false twoEnqueued
  := by
  have hempty : Reachable (fun x => x == 2) false init := Reachable.init
  have hone := hempty.step (Step.enqueue init Nat.one_ne_zero (by simp [init]) (by simp))
  exact hone.step (Step.enqueue _ (by decide) (by simp [enqueue, init]) (by simp))

/-- The auxiliary variable `2` is moved to the front of the queue, and `1` is decided, as on the
queue without `2`. -/
theorem decides_as_plain_twoEnqueued :
  ∃ l, twoEnqueued.vmtf.Linked l ∧ (∀ x, x ∈ l ↔ x ∈ twoEnqueued.enqueued)
    ∧ twoEnqueued.plain.Linked (l.filter (fun x => !(x == 2)))
    ∧ ∃ n vmtf plain l',
      (∀ m, n ≤ m → twoEnqueued.vmtf.nextDecisionVariableOnQueue twoEnqueued.assigned
        (fun x => x == 2) m = some (1, vmtf))
      ∧ vmtf.Linked l' ∧ l'.Perm l
      ∧ l'.filter (fun y => !(y == 2)) = l.filter (fun y => !(y == 2))
      ∧ twoEnqueued.plain.plainNextDecisionVariableOnQueue twoEnqueued.assigned n
        = some (1, plain)
  := by
  obtain ⟨l, hlinked, hmem, -, -, hplain, hdecides⟩ := decides_as_plain reachable_twoEnqueued
  obtain ⟨n, x, vmtf, plain, l', hnext, hx, -, haux, -, hlinked', hperm, hfilter, hnext'⟩ :=
    hdecides ⟨1, by decide, rfl, rfl⟩
  have hx : x = 1 := by
    obtain rfl | rfl : x = 1 ∨ x = 2 := by
      change x ∈ insert 2 (insert 1 ∅) at hx
      simpa [or_comm] using hx
    · rfl
    · cases haux
  subst hx
  exact ⟨l, hlinked, hmem, hplain, n, vmtf, plain, l', hnext, hlinked', hperm, hfilter, hnext'⟩

end QueueRun

end Cadical
