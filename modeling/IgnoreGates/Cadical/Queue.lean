import IgnoreGates.Lists.DoublyLinked

/-!
# The decision queue

The queue of the variables in the order of their time stamps `btab`, with the pointer
`unassigned` behind which all variables are assigned.  With `BRANCHAUX`, the search for the
next decision moves the auxiliary variables that it passes to the front of the queue.
-/

namespace Cadical

open DoublyLinked

/-- `Queue`. -/
structure Queue where
  first : Nat
  last : Nat
  unassigned : Nat
  bumped : Int

/-- The queue with its links, the time stamps and the counter `stats.bumped`. -/
structure Vmtf where
  links : Nat → Link Nat
  queue : Queue
  btab : Nat → Int
  bumped : Int

namespace Vmtf

/-- The queue without variables. -/
def init : Vmtf where
  links := fun _ => ⟨0, 0⟩
  queue := { first := 0, last := 0, unassigned := 0, bumped := 0 }
  btab := fun _ => 0
  bumped := 0

section Operations

variable (q : Vmtf)

def updateQueueUnassigned (idx : Nat) : Vmtf :=
  { q with queue := { q.queue with unassigned := idx, bumped := q.btab idx } }

def dequeue (idx : Nat) : Vmtf :=
  let l := q.links idx
  { q with
    links := unlink 0 q.links idx
    queue := { q.queue with
      first := if l.prev = 0 then l.next else q.queue.first
      last := if l.next = 0 then l.prev else q.queue.last } }

def enqueue (idx : Nat) : Vmtf :=
  { q with
    links := linkLast 0 q.links q.queue.last idx
    queue := { q.queue with
      first := if q.queue.last = 0 then idx else q.queue.first
      last := idx } }

/-- What is done with an auxiliary variable that is passed. -/
def moveToFront (temp : Nat) : Vmtf :=
  let q := q.dequeue temp
  let links := linkFirst 0 q.links q.queue.first temp
  { q with
    links
    queue := { q.queue with first := temp }
    btab := Function.update q.btab temp (q.btab (links temp).next - 1) }

/-- The loop of `next_decision_variable_on_queue`, for a bounded number of iterations: the
variable, whether it has been searched for, and the queue. -/
def nextLoop (assigned isAux : Nat → Bool) : Nat → Vmtf → Nat → Bool → Option (Nat × Bool × Vmtf)
  | 0, _, _, _ => none
  | n + 1, q, res, searched =>
      if assigned res ∨ isAux res then
        let prev := (q.links res).prev
        nextLoop assigned isAux n (if isAux res then q.moveToFront res else q) prev true
      else
        some (res, searched, q)

def nextDecisionVariableOnQueue (assigned isAux : Nat → Bool) (n : Nat) : Option (Nat × Vmtf) :=
  match nextLoop assigned isAux n q q.queue.unassigned false with
  | none => none
  | some (res, searched, q) =>
      some (res, if searched then q.updateQueueUnassigned res else q)

def bumpQueue (assigned : Nat → Bool) (idx : Nat) : Vmtf :=
  if (q.links idx).next = 0 then q
  else
    let q := (q.dequeue idx).enqueue idx
    let q := { q with
      btab := Function.update q.btab idx (q.bumped + 1)
      bumped := q.bumped + 1 }
    if assigned idx then q else q.updateQueueUnassigned idx

/-- The part of `unassign` about the queue. -/
def unassign (idx : Nat) : Vmtf :=
  if q.queue.bumped < q.btab idx then q.updateQueueUnassigned idx else q

/-- `init_enqueue`, where `reverse` is the option of this name. -/
def initEnqueue (reverse : Bool) (idx : Nat) : Vmtf :=
  if reverse then
    let first := q.queue.first
    let q := { q with
      links := setNext (setPrev (if first = 0 then q.links else setPrev q.links first idx) idx 0)
        idx first
      btab := Function.update q.btab idx (if first = 0 then 0 else q.btab first - 1)
      queue := { q.queue with
        first := idx
        last := if first = 0 then idx else q.queue.last } }
    if q.queue.unassigned = 0 then q.updateQueueUnassigned q.queue.last else q
  else
    let q := { q.enqueue idx with
      btab := Function.update q.btab idx (q.bumped + 1)
      bumped := q.bumped + 1 }
    q.updateQueueUnassigned idx

/-- `init_queue` for the variables behind `old_max_var`. -/
def initQueue (reverse : Bool) (oldMaxVar newMaxVar : Nat) : Vmtf :=
  (List.range' (oldMaxVar + 1) (newMaxVar - oldMaxVar)).foldl (fun q idx => q.initEnqueue reverse idx) q

/-- The variables from `idx` back to the first one, at most `n`. -/
def walkBack : Nat → Nat → List Nat
  | 0, _ => []
  | n + 1, idx => if idx = 0 then [] else idx :: walkBack n (q.links idx).prev

/-- The loop of `shuffle_queue` that assigns new time stamps. -/
def restamp : List Nat → Int → (Nat → Int) → Nat → Int
  | [], _, btab => btab
  | idx :: idxs, bumped, btab => restamp idxs (bumped - 1) (Function.update btab idx bumped)

/-- `shuffle_queue`, where `shuffle` is the order in which the variables are enqueued. -/
def shuffleQueue (shuffle : List Nat) : Vmtf :=
  let q := shuffle.foldl enqueue { q with queue := { q.queue with first := 0, last := 0 } }
  { q with
    btab := restamp (q.walkBack (shuffle.length + 1) q.queue.last) q.queue.bumped q.btab
    queue := { q.queue with unassigned := q.queue.last } }

end Operations

/-! ### The list of the queue -/

/-- The variables of the list are linked in its order, from the first to the last one. -/
structure Linked (q : Vmtf) (l : List Nat) : Prop where
  seg : Seg q.links 0 l 0
  nodup : l.Nodup
  zero_notMem : 0 ∉ l
  first : q.queue.first = l.headD 0
  last : q.queue.last = l.getLastD 0

namespace Linked

variable {q : Vmtf} {l l₁ l₂ : List Nat} {idx : Nat}

theorem getLastD_eq_zero (h : 0 ∉ l) :
  l.getLastD 0 = 0 ↔ l = []
  := by
  constructor
  · intro heq
    by_contra hne
    exact h (heq ▸ getLastD_mem hne 0)
  · rintro rfl
    rfl

theorem headD_eq_zero (h : 0 ∉ l) :
  l.headD 0 = 0 ↔ l = []
  := by
  constructor
  · intro heq
    by_contra hne
    exact h (heq ▸ headD_mem hne 0)
  · rintro rfl
    rfl

/-- The time stamps and the pointer do not matter. -/
theorem congr (h : q.Linked l) {q' : Vmtf} (hlinks : q'.links = q.links)
    (hfirst : q'.queue.first = q.queue.first) (hlast : q'.queue.last = q.queue.last) :
  q'.Linked l
  := by
  refine ⟨?_, h.nodup, h.zero_notMem, hfirst.trans h.first, hlast.trans h.last⟩
  rw [hlinks]
  exact h.seg

theorem init :
  Vmtf.init.Linked []
  := ⟨trivial, List.nodup_nil, List.not_mem_nil, rfl, rfl⟩

/-- Removing a variable from the list. -/
theorem dequeue (h : q.Linked (l₁ ++ idx :: l₂)) :
  (q.dequeue idx).Linked (l₁ ++ l₂)
  := by
  have hsub : (l₁ ++ l₂).Sublist (l₁ ++ idx :: l₂) :=
    (List.sublist_cons_self idx l₂).append_left l₁
  have hzero : 0 ∉ l₁ ++ l₂ := fun hmem => h.zero_notMem (hsub.subset hmem)
  have hzero₁ : 0 ∉ l₁ := fun hmem => hzero (List.mem_append_left l₂ hmem)
  have hzero₂ : 0 ∉ l₂ := fun hmem => hzero (List.mem_append_right l₁ hmem)
  have hlink := h.seg.link
  refine ⟨h.seg.unlink h.nodup h.zero_notMem, hsub.nodup h.nodup, hzero, ?_, ?_⟩
  · change (if (q.links idx).prev = 0 then (q.links idx).next else q.queue.first) = _
    rw [hlink, h.first, headD_append, headD_append]
    simp only [getLastD_eq_zero hzero₁]
    cases l₁ with
    | nil => rfl
    | cons a l => rfl
  · change (if (q.links idx).next = 0 then (q.links idx).prev else q.queue.last) = _
    rw [hlink, h.last]
    simp only [headD_eq_zero hzero₂]
    cases l₂ with
    | nil => rw [if_pos rfl, List.append_nil]
    | cons a l =>
        rw [if_neg (List.cons_ne_nil a l), getLastD_append, getLastD_append]
        rfl

/-- Adding a variable behind the last one. -/
theorem enqueue (h : q.Linked l) (hidx : idx ∉ l) (hpos : idx ≠ 0) :
  (q.enqueue idx).Linked (l ++ [idx])
  := by
  refine ⟨?_, ?_, ?_, ?_, ?_⟩
  · change Seg (linkLast 0 q.links q.queue.last idx) 0 (l ++ [idx]) 0
    rw [h.last]
    exact h.seg.linkLast h.nodup h.zero_notMem hidx
  · apply List.nodup_append'.mpr
    refine ⟨h.nodup, List.nodup_singleton idx, ?_⟩
    rw [List.disjoint_singleton]
    exact hidx
  · rw [List.mem_append, List.mem_singleton]
    rintro (hmem | heq)
    · exact h.zero_notMem hmem
    · exact hpos heq.symm
  · change (if q.queue.last = 0 then idx else q.queue.first) = _
    rw [h.last, h.first]
    simp only [getLastD_eq_zero h.zero_notMem]
    cases l with
    | nil => rfl
    | cons a l => rfl
  · rw [List.getLastD_concat]
    rfl

end Linked

end Vmtf

end Cadical
