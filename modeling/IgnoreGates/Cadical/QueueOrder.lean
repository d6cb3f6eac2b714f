import Mathlib.Data.List.Pairwise
import Mathlib.Data.Int.Order.Basic
import IgnoreGates.Cadical.Queue

/-!
# The order of the decision queue

The time stamps increase along the queue, and the variables behind the pointer `unassigned`
are assigned.  The invariant of the pointer speaks about the time stamp `queue.bumped` with
which it was set, since this is what `unassign` compares.
-/

namespace Cadical

open DoublyLinked

namespace Vmtf

/-- The variables of the list are linked in its order, and their time stamps increase. -/
structure Ordered (q : Vmtf) (l : List Nat) : Prop extends q.Linked l where
  sorted : l.Pairwise (fun x y => q.btab x < q.btab y)
  stamp_le : ∀ x ∈ l, q.btab x ≤ q.bumped
  bumped_nonneg : 0 ≤ q.bumped

/-- The pointer `unassigned` is in the list, and all variables with a larger time stamp are
assigned.  The first variable has been reached by the pointer, unless all are fixed. -/
structure Inv (assigned fixed : Nat → Bool) (q : Vmtf) (l : List Nat) : Prop
    extends q.Ordered l where
  unassigned_nil : l = [] → q.queue.unassigned = 0
  unassigned_mem : l ≠ [] → q.queue.unassigned ∈ l
  queue_bumped_le : q.queue.bumped ≤ q.bumped
  unassigned_le : ∀ x ∈ l, assigned x = false → q.btab x ≤ q.queue.bumped
  le_unassigned : ∀ x ∈ l, q.btab x ≤ q.queue.bumped → q.btab x ≤ q.btab q.queue.unassigned
  reached : l ≠ [] → ∃ x ∈ l, fixed x = false ∨ q.btab x ≤ q.queue.bumped

section Stamps

variable {btab : Nat → Int} {l l₁ l₂ : List Nat} {x y : Nat}

/-- The stamp of a variable outside the list does not matter. -/
theorem sorted_update (h : l.Pairwise (fun x y => btab x < btab y)) (hx : x ∉ l) (b : Int) :
  l.Pairwise (fun y z => Function.update btab x b y < Function.update btab x b z)
  := by
  apply h.imp_of_mem
  intro y z hy hz hlt
  rw [Function.update_of_ne (ne_of_mem_of_not_mem hy hx),
    Function.update_of_ne (ne_of_mem_of_not_mem hz hx)]
  exact hlt

/-- A variable with a smaller stamp comes before. -/
theorem mem_or_le_of_sorted (h : (l₁ ++ x :: l₂).Pairwise (fun x y => btab x < btab y))
    (hy : y ∈ l₁ ++ x :: l₂) (hle : btab y ≤ btab x) :
  y ∈ l₁ ∨ y = x
  := by
  obtain hy | hy := List.mem_append.mp hy
  · exact Or.inl hy
  · obtain rfl | hy := List.mem_cons.mp hy
    · exact Or.inr rfl
    · have hlt := List.rel_of_pairwise_cons (List.pairwise_append.mp h).2.1 hy
      exact absurd hle (not_le.mpr hlt)

/-- A variable that comes before has a smaller stamp. -/
theorem lt_of_sorted (h : (l₁ ++ x :: l₂).Pairwise (fun x y => btab x < btab y))
    (hy : y ∈ l₁) :
  btab y < btab x
  := (List.pairwise_append.mp h).2.2 y hy x List.mem_cons_self

/-- The last variable has the largest stamp. -/
theorem le_getLastD_of_sorted (h : l.Pairwise (fun x y => btab x < btab y)) (hx : x ∈ l) :
  btab x ≤ btab (l.getLastD 0)
  := by
  obtain rfl | ⟨l, a, rfl⟩ := List.eq_nil_or_concat' l
  · exact absurd hx List.not_mem_nil
  · rw [List.getLastD_concat]
    obtain hx | hx := List.mem_append.mp hx
    · exact le_of_lt (lt_of_sorted h hx)
    · rw [List.mem_singleton.mp hx]

end Stamps

variable {assigned fixed : Nat → Bool} {q : Vmtf} {l l₁ l₂ : List Nat} {idx : Nat}

theorem Ordered.init :
  Vmtf.init.Ordered []
  := ⟨Linked.init, List.Pairwise.nil, fun _ hx => absurd hx List.not_mem_nil, le_rfl⟩

theorem Inv.init (assigned fixed : Nat → Bool) :
  Vmtf.init.Inv assigned fixed []
  where
    toOrdered := Ordered.init
    unassigned_nil := fun _ => rfl
    unassigned_mem := fun hne => absurd rfl hne
    queue_bumped_le := le_rfl
    unassigned_le := fun _ hx => absurd hx List.not_mem_nil
    le_unassigned := fun _ hx => absurd hx List.not_mem_nil
    reached := fun hne => absurd rfl hne

/-! ### Moving variables -/

theorem Ordered.dequeue (h : q.Ordered (l₁ ++ idx :: l₂)) :
  (q.dequeue idx).Ordered (l₁ ++ l₂)
  := by
  have hsub : (l₁ ++ l₂).Sublist (l₁ ++ idx :: l₂) :=
    (List.sublist_cons_self idx l₂).append_left l₁
  exact ⟨h.toLinked.dequeue, h.sorted.sublist hsub, fun x hx => h.stamp_le x (hsub.subset hx),
    h.bumped_nonneg⟩

/-- A variable that gets the largest stamp is enqueued. -/
theorem Ordered.enqueue (h : q.Ordered l) (hidx : idx ∉ l) (hpos : idx ≠ 0) :
  Ordered { q.enqueue idx with
    btab := Function.update q.btab idx (q.bumped + 1)
    bumped := q.bumped + 1 } (l ++ [idx])
  := by
  have hstamp : ∀ x ∈ l, Function.update q.btab idx (q.bumped + 1) x ≤ q.bumped := by
    intro x hx
    rw [Function.update_of_ne (ne_of_mem_of_not_mem hx hidx)]
    exact h.stamp_le x hx
  refine ⟨(h.toLinked.enqueue hidx hpos).congr rfl rfl rfl, ?_, ?_, ?_⟩
  · apply List.pairwise_append.mpr
    refine ⟨sorted_update h.sorted hidx _, List.pairwise_singleton _ _, ?_⟩
    intro x hx y hy
    change _ < Function.update q.btab idx (q.bumped + 1) y
    rw [List.mem_singleton.mp hy, Function.update_self]
    exact Int.lt_add_one_of_le (hstamp x hx)
  · intro x hx
    change Function.update q.btab idx (q.bumped + 1) x ≤ q.bumped + 1
    obtain hx | hx := List.mem_append.mp hx
    · exact le_trans (hstamp x hx) (Int.le_add_one le_rfl)
    · rw [List.mem_singleton.mp hx, Function.update_self]
  · exact Int.le_add_one h.bumped_nonneg

/-- A variable that gets the smallest stamp is linked in front. -/
theorem Ordered.pushFront (h : q.Ordered l) (hne : l ≠ []) (hidx : idx ∉ l) (hpos : idx ≠ 0)
    {q' : Vmtf} (hseg : Seg q'.links 0 (idx :: l) 0) (hfirst : q'.queue.first = idx)
    (hlast : q'.queue.last = q.queue.last)
    (hbtab : q'.btab = Function.update q.btab idx (q.btab (l.headD 0) - 1))
    (hbumped : q'.bumped = q.bumped) :
  q'.Ordered (idx :: l)
  := by
  obtain ⟨a, l, rfl⟩ := List.exists_cons_of_ne_nil hne
  have hfront : ∀ x ∈ a :: l, q.btab a - 1 < q.btab x := by
    intro x hx
    obtain rfl | hx := List.mem_cons.mp hx
    · exact Int.sub_one_lt_of_le le_rfl
    · exact lt_trans (Int.sub_one_lt_of_le le_rfl) (List.rel_of_pairwise_cons h.sorted hx)
  have hstamp : ∀ x ∈ a :: l, q'.btab x = q.btab x := by
    intro x hx
    rw [hbtab, Function.update_of_ne (ne_of_mem_of_not_mem hx hidx)]
  have hself : q'.btab idx = q.btab a - 1 := by
    rw [hbtab, Function.update_self]
    rfl
  refine ⟨⟨hseg, List.nodup_cons.mpr ⟨hidx, h.nodup⟩, ?_, hfirst, ?_⟩, ?_, ?_, ?_⟩
  · rw [List.mem_cons]
    rintro (heq | hmem)
    · exact hpos heq.symm
    · exact h.zero_notMem hmem
  · rw [hlast, h.last, List.getLastD_cons, List.getLastD_cons, List.getLastD_cons]
  · apply List.pairwise_cons.mpr
    constructor
    · intro x hx
      rw [hself, hstamp x hx]
      exact hfront x hx
    · rw [hbtab]
      exact sorted_update h.sorted hidx _
  · intro x hx
    rw [hbumped]
    obtain rfl | hx := List.mem_cons.mp hx
    · rw [hself]
      exact le_trans (le_of_lt (Int.sub_one_lt_of_le le_rfl)) (h.stamp_le a List.mem_cons_self)
    · rw [hstamp x hx]
      exact h.stamp_le x hx
  · rw [hbumped]
    exact h.bumped_nonneg

/-- What is done with an auxiliary variable moves it to the front. -/
theorem Ordered.moveToFront (h : q.Ordered (l₁ ++ idx :: l₂)) (hne : l₁ ++ l₂ ≠ []) :
  (q.moveToFront idx).Ordered (idx :: (l₁ ++ l₂))
  := by
  have hidx : idx ∉ l₁ ++ l₂ := (List.nodup_cons.mp (List.nodup_middle.mp h.nodup)).1
  have hpos : idx ≠ 0 := by
    rintro rfl
    exact h.zero_notMem (List.mem_append_right l₁ List.mem_cons_self)
  have hdequeue := h.dequeue
  have hfirst := hdequeue.first
  apply hdequeue.pushFront hne hidx hpos
  · change Seg (linkFirst 0 (q.dequeue idx).links (q.dequeue idx).queue.first idx) 0 _ 0
    rw [hfirst]
    exact hdequeue.seg.linkFirst hdequeue.nodup hidx hne
  · rfl
  · rfl
  · change Function.update q.btab idx (q.btab (linkFirst 0 (q.dequeue idx).links
      (q.dequeue idx).queue.first idx idx).next - 1) = _
    rw [linkFirst_next, hfirst]
    · rfl
    · rw [hfirst]
      exact (ne_of_mem_of_not_mem (headD_mem hne 0) hidx).symm
  · rfl

/-! ### The pointer -/

/-- The pointer may be set to a variable behind which all are assigned. -/
theorem Ordered.updateQueueUnassigned (h : q.Ordered l) (hidx : idx ∈ l)
    (hle : ∀ x ∈ l, assigned x = false → q.btab x ≤ q.btab idx) :
  (q.updateQueueUnassigned idx).Inv assigned fixed l
  where
    toLinked := h.toLinked.congr rfl rfl rfl
    sorted := h.sorted
    stamp_le := h.stamp_le
    bumped_nonneg := h.bumped_nonneg
    unassigned_nil := fun hnil => absurd (hnil ▸ hidx) List.not_mem_nil
    unassigned_mem := fun _ => hidx
    queue_bumped_le := h.stamp_le idx hidx
    unassigned_le := hle
    le_unassigned := fun _ _ hx => hx
    reached := fun _ => ⟨idx, hidx, Or.inr le_rfl⟩

/-- Variables may become assigned, and those that were unassigned may become fixed. -/
theorem Inv.mono (h : q.Inv assigned fixed l) {assigned' fixed' : Nat → Bool}
    (hassigned : ∀ x ∈ l, assigned' x = false → assigned x = false)
    (hfixed : ∀ x ∈ l, fixed' x = true → fixed x = true ∨ assigned x = false) :
  q.Inv assigned' fixed' l
  := by
  refine { h with
    unassigned_le := fun x hx hx' => h.unassigned_le x hx (hassigned x hx hx')
    reached := ?_ }
  intro hne
  obtain ⟨x, hx, hreached⟩ := h.reached hne
  use x, hx
  obtain hx' | hle := hreached
  · cases hfix : fixed' x with
    | false => exact Or.inl rfl
    | true =>
        obtain hfix | hun := hfixed x hx hfix
        · rw [hx'] at hfix
          cases hfix
        · exact Or.inr (h.unassigned_le x hx hun)
  · exact Or.inr hle

/-- `unassign` keeps the invariant. -/
theorem Inv.unassign (h : q.Inv assigned fixed l) (hidx : idx ∈ l) :
  (q.unassign idx).Inv (Function.update assigned idx false) fixed l
  := by
  have hother : ∀ x ∈ l, Function.update assigned idx false x = false →
      x = idx ∨ q.btab x ≤ q.queue.bumped := by
    intro x hx hun
    by_cases heq : x = idx
    · exact Or.inl heq
    · rw [Function.update_of_ne heq] at hun
      exact Or.inr (h.unassigned_le x hx hun)
  rw [Vmtf.unassign]
  split
  · next hlt =>
      apply h.toOrdered.updateQueueUnassigned hidx
      intro x hx hun
      obtain rfl | hle := hother x hx hun
      · exact le_rfl
      · exact le_trans hle (le_of_lt hlt)
  · next hge =>
      refine { h with unassigned_le := ?_ }
      intro x hx hun
      obtain rfl | hle := hother x hx hun
      · exact not_lt.mp hge
      · exact hle

/-- No unassigned variable comes behind the pointer. -/
theorem Inv.unassigned_before (h : q.Inv assigned fixed l) (hl : l = l₁ ++ q.queue.unassigned :: l₂)
    {x : Nat} (hx : x ∈ l) (hun : assigned x = false) :
  x ∈ l₁ ++ [q.queue.unassigned]
  := by
  have hle := h.le_unassigned x hx (h.unassigned_le x hx hun)
  have hsorted := h.sorted
  rw [hl] at hx hsorted
  rw [List.mem_append, List.mem_singleton]
  exact mem_or_le_of_sorted hsorted hx hle

/-! ### Bumping -/

/-- `bump_queue` moves the variable to the end. -/
theorem Inv.bumpQueue (h : q.Inv assigned fixed (l₁ ++ idx :: l₂)) (hfixed : fixed idx = false) :
  (q.bumpQueue assigned idx).Inv assigned fixed (l₁ ++ l₂ ++ [idx])
  := by
  have hperm : (l₁ ++ l₂ ++ [idx]).Perm (l₁ ++ idx :: l₂) :=
    (List.perm_append_singleton idx (l₁ ++ l₂)).trans List.perm_middle.symm
  have hmem : idx ∈ l₁ ++ l₂ ++ [idx] := List.mem_append_right _ (List.mem_singleton_self idx)
  have hidx : idx ∉ l₁ ++ l₂ := (List.nodup_cons.mp (List.nodup_middle.mp h.nodup)).1
  have hpos : idx ≠ 0 := by
    rintro rfl
    exact h.zero_notMem (List.mem_append_right l₁ List.mem_cons_self)
  have hordered := h.toOrdered.dequeue.enqueue hidx hpos
  rw [Vmtf.bumpQueue]
  split
  · next hlast =>
      have hzero : 0 ∉ l₂ := fun hmem =>
        h.zero_notMem (List.mem_append_right l₁ (List.mem_cons_of_mem idx hmem))
      rw [h.seg.link, Linked.headD_eq_zero hzero] at hlast
      rw [hlast] at h ⊢
      rw [List.append_nil]
      exact h
  · simp only
    split
    · next hassigned =>
        refine { hordered with
          unassigned_nil := fun hnil => absurd (hnil ▸ hmem) List.not_mem_nil
          unassigned_mem := fun _ => hperm.mem_iff.mpr (h.unassigned_mem (by simp))
          queue_bumped_le := le_trans h.queue_bumped_le (Int.le_add_one le_rfl)
          unassigned_le := ?_
          le_unassigned := ?_
          reached := fun _ => ⟨idx, hmem, Or.inl hfixed⟩ }
        · intro x hx hun
          have hne : x ≠ idx := by
            rintro rfl
            rw [hassigned] at hun
            cases hun
          change Function.update q.btab idx (q.bumped + 1) x ≤ q.queue.bumped
          rw [Function.update_of_ne hne]
          exact h.unassigned_le x (hperm.mem_iff.mp hx) hun
        · intro x hx hle
          change Function.update q.btab idx (q.bumped + 1) x ≤ q.queue.bumped at hle
          change Function.update q.btab idx (q.bumped + 1) x
            ≤ Function.update q.btab idx (q.bumped + 1) q.queue.unassigned
          by_cases hunidx : q.queue.unassigned = idx
          · rw [hunidx, Function.update_self]
            exact le_trans hle (le_trans h.queue_bumped_le (Int.le_add_one le_rfl))
          · have hne : x ≠ idx := by
              rintro rfl
              rw [Function.update_self] at hle
              exact absurd (le_trans hle h.queue_bumped_le) (by omega)
            rw [Function.update_of_ne hne] at hle ⊢
            rw [Function.update_of_ne hunidx]
            exact h.le_unassigned x (hperm.mem_iff.mp hx) hle
    · apply hordered.updateQueueUnassigned hmem
      intro x hx _
      change _ ≤ Function.update q.btab idx (q.bumped + 1) idx
      rw [Function.update_self]
      exact hordered.stamp_le x hx

/-! ### New variables -/

/-- The links of `init_enqueue` with `reverse`. -/
theorem Linked.initEnqueue_reverse (h : q.Linked l) (hidx : idx ∉ l) :
  Seg (q.initEnqueue true idx).links 0 (idx :: l) 0
  := by
  have hlinks : (q.initEnqueue true idx).links = setNext (setPrev (if q.queue.first = 0 then
      q.links else setPrev q.links q.queue.first idx) idx 0) idx q.queue.first := by
    rw [Vmtf.initEnqueue, if_pos rfl]
    simp only
    split <;> rfl
  rw [hlinks]
  by_cases hne : l = []
  · subst hne
    rw [h.first, if_pos (by rfl)]
    refine ⟨?_, trivial⟩
    rw [setNext, Function.update_self, setPrev, Function.update_self]
  · have hfirst : q.queue.first ≠ 0 := by
      rw [h.first, ne_eq, Linked.headD_eq_zero h.zero_notMem]
      exact hne
    have hfirstidx : q.queue.first ≠ idx := by
      rw [h.first]
      exact ne_of_mem_of_not_mem (headD_mem hne 0) hidx
    have hseg := h.seg.linkFirst h.nodup hidx hne
    rw [if_neg hfirst]
    convert hseg using 1
    rw [linkFirst, ← h.first]
    funext x
    simp only [setNext, setPrev, Function.update_apply]
    by_cases hx : x = idx
    · subst hx
      simp [hfirstidx.symm]
    · by_cases hxfirst : x = q.queue.first
      · simp [hxfirst, hfirstidx]
      · simp [hx, hxfirst]

/-- `init_enqueue` adds the variable at the end or, with `reverse`, on root level in front. -/
theorem Inv.initEnqueue (h : q.Inv assigned fixed l) (hidx : idx ∉ l) (hpos : idx ≠ 0)
    (reverse : Bool) (hroot : reverse = true → ∀ x ∈ l, fixed x = false → assigned x = false) :
  (q.initEnqueue reverse idx).Inv assigned fixed (if reverse then idx :: l else l ++ [idx])
  := by
  cases reverse with
  | false =>
      have hordered := h.toOrdered.enqueue hidx hpos
      apply hordered.updateQueueUnassigned (List.mem_append_right l (List.mem_singleton_self idx))
      intro x hx _
      change _ ≤ Function.update q.btab idx (q.bumped + 1) idx
      rw [Function.update_self]
      exact hordered.stamp_le x hx
  | true =>
      rw [if_pos rfl]
      have hseg := h.toLinked.initEnqueue_reverse hidx
      have hfirst := h.first
      revert hseg
      rw [Vmtf.initEnqueue, if_pos rfl]
      simp only
      by_cases hne : l = []
      · subst hne
        rw [hfirst, if_pos (h.unassigned_nil rfl)]
        intro hseg
        apply Ordered.updateQueueUnassigned
        · refine ⟨⟨hseg, List.nodup_singleton idx, ?_, rfl, rfl⟩, List.pairwise_singleton _ _, ?_,
            h.bumped_nonneg⟩
          · rw [List.mem_singleton]
            exact hpos.symm
          · intro x hx
            rw [List.mem_singleton.mp hx]
            change Function.update q.btab idx 0 idx ≤ q.bumped
            rw [Function.update_self]
            exact h.bumped_nonneg
        · exact List.mem_singleton_self idx
        · intro x hx _
          rw [List.mem_singleton.mp hx]
          exact le_rfl
      · have hunmem := h.unassigned_mem hne
        have hun0 : q.queue.unassigned ≠ 0 := ne_of_mem_of_not_mem hunmem h.zero_notMem
        have hfirst0 : q.queue.first ≠ 0 := by
          rw [hfirst, ne_eq, Linked.headD_eq_zero h.zero_notMem]
          exact hne
        rw [if_neg hun0]
        simp only [if_neg hfirst0]
        intro hseg
        have hordered : Ordered { q with
            links := setNext (setPrev (setPrev q.links q.queue.first idx) idx 0) idx q.queue.first
            btab := Function.update q.btab idx (q.btab q.queue.first - 1)
            queue := { q.queue with first := idx, last := q.queue.last } } (idx :: l) :=
          h.toOrdered.pushFront hne hidx hpos hseg rfl rfl (by rw [hfirst]) rfl
        have hlt : ∀ x ∈ l, Function.update q.btab idx (q.btab q.queue.first - 1) idx < q.btab x := by
          intro x hx
          have hlt := List.rel_of_pairwise_cons hordered.sorted hx
          change _ < Function.update q.btab idx _ x at hlt
          rwa [Function.update_of_ne (ne_of_mem_of_not_mem hx hidx)] at hlt
        refine { hordered with
          unassigned_nil := fun hnil => absurd hnil (List.cons_ne_nil idx l)
          unassigned_mem := fun _ => List.mem_cons_of_mem idx hunmem
          queue_bumped_le := h.queue_bumped_le
          unassigned_le := ?_
          le_unassigned := ?_
          reached := ?_ }
        · intro x hx hun
          change Function.update q.btab idx _ x ≤ q.queue.bumped
          obtain rfl | hx := List.mem_cons.mp hx
          · obtain ⟨w, hw, hreached⟩ := h.reached hne
            have hle : q.btab w ≤ q.queue.bumped := by
              obtain hfixed | hle := hreached
              · exact h.unassigned_le w hw (hroot rfl w hw hfixed)
              · exact hle
            exact le_trans (le_of_lt (hlt w hw)) hle
          · rw [Function.update_of_ne (ne_of_mem_of_not_mem hx hidx)]
            exact h.unassigned_le x hx hun
        · intro x hx hle
          change Function.update q.btab idx _ x ≤ q.queue.bumped at hle
          change Function.update q.btab idx _ x ≤ Function.update q.btab idx _ q.queue.unassigned
          rw [Function.update_of_ne (ne_of_mem_of_not_mem hunmem hidx)]
          obtain rfl | hx := List.mem_cons.mp hx
          · exact le_of_lt (hlt _ hunmem)
          · rw [Function.update_of_ne (ne_of_mem_of_not_mem hx hidx)] at hle ⊢
            exact h.le_unassigned x hx hle
        · intro _
          obtain ⟨w, hw, hreached⟩ := h.reached hne
          use w, List.mem_cons_of_mem idx hw
          change fixed w = false ∨ Function.update q.btab idx _ w ≤ q.queue.bumped
          rw [Function.update_of_ne (ne_of_mem_of_not_mem hw hidx)]
          exact hreached

theorem mem_initEnqueue {reverse : Bool} {x : Nat} :
  x ∈ (if reverse then idx :: l else l ++ [idx]) ↔ x = idx ∨ x ∈ l
  := by
  cases reverse with
  | false => simp [or_comm]
  | true => simp

/-- The variables of `init_queue` are added. -/
theorem Inv.initQueue (h : q.Inv assigned fixed l)
    (hroot : ∀ x, fixed x = false → assigned x = false) (reverse : Bool)
    {oldMaxVar : Nat} (hl : ∀ x, x ∈ l → x ≤ oldMaxVar) (newMaxVar : Nat) :
  ∃ l', (q.initQueue reverse oldMaxVar newMaxVar).Inv assigned fixed l'
    ∧ ∀ x, x ∈ l' ↔ x ∈ l ∨ oldMaxVar < x ∧ x ≤ newMaxVar
  := by
  have hfold : ∀ (idxs : List Nat) (q : Vmtf) (l : List Nat), q.Inv assigned fixed l →
      idxs.Nodup → (∀ x ∈ idxs, x ≠ 0 ∧ x ∉ l) →
      ∃ l', (idxs.foldl (fun q idx => q.initEnqueue reverse idx) q).Inv assigned fixed l'
        ∧ ∀ x, x ∈ l' ↔ x ∈ l ∨ x ∈ idxs := by
    intro idxs
    induction idxs with
    | nil =>
        intro q l h _ _
        exact ⟨l, h, fun x => by simp⟩
    | cons a idxs ih =>
        intro q l h hnodup hnew
        obtain ⟨ha, hnodup⟩ := List.nodup_cons.mp hnodup
        obtain ⟨hpos, hal⟩ := hnew a List.mem_cons_self
        have h₁ := h.initEnqueue hal hpos reverse (fun _ x _ => hroot x)
        obtain ⟨l', h', hmem⟩ := ih _ _ h₁ hnodup (by
          intro x hx
          obtain ⟨hpos, hxl⟩ := hnew x (List.mem_cons_of_mem a hx)
          refine ⟨hpos, ?_⟩
          rw [mem_initEnqueue]
          rintro (rfl | hxl')
          · exact ha hx
          · exact hxl hxl')
        refine ⟨l', h', ?_⟩
        intro x
        rw [hmem, mem_initEnqueue, List.mem_cons, or_assoc, or_left_comm]
  have hrange : ∀ x, x ∈ List.range' (oldMaxVar + 1) (newMaxVar - oldMaxVar)
      ↔ oldMaxVar < x ∧ x ≤ newMaxVar := by
    intro x
    rw [List.mem_range'_1]
    omega
  obtain ⟨l', h', hmem⟩ := hfold _ q l h List.nodup_range' (by
    intro x hx
    have hlt := (hrange x).mp hx
    refine ⟨by omega, ?_⟩
    intro hxl
    have hle := hl x hxl
    omega)
  refine ⟨l', h', ?_⟩
  intro x
  rw [hmem, hrange]

/-! ### Shuffling -/

/-- The variables before the end of the list, from the last one to the first one. -/
theorem walkBack_eq {links : Nat → Link Nat} (hlinks : q.links = links)
    (h : Seg links 0 l 0) (hzero : 0 ∉ l) {n : Nat} (hn : l.length ≤ n) :
  q.walkBack n (l.getLastD 0) = l.reverse
  := by
  subst hlinks
  have hwalk : ∀ (n : Nat) (l₁ l₂ : List Nat), Seg q.links 0 (l₁ ++ l₂) 0 → 0 ∉ l₁ →
      l₁.length ≤ n → q.walkBack n (l₁.getLastD 0) = l₁.reverse := by
    intro n
    induction n with
    | zero =>
        intro l₁ l₂ _ _ hn
        rw [List.length_eq_zero_iff.mp (Nat.le_zero.mp hn)]
        rfl
    | succ n ih =>
        intro l₁ l₂ hseg hzero hn
        obtain rfl | ⟨l₁, a, rfl⟩ := List.eq_nil_or_concat' l₁
        · rfl
        · have ha : a ≠ 0 := by
            rintro rfl
            exact hzero (List.mem_append_right l₁ (List.mem_singleton_self 0))
          rw [List.append_assoc, List.singleton_append] at hseg
          rw [List.getLastD_concat, walkBack, if_neg ha, hseg.link, List.reverse_append]
          rw [ih l₁ (a :: l₂) hseg (fun hmem => hzero (List.mem_append_left _ hmem)) (by
            rw [List.length_append, List.length_singleton] at hn
            omega)]
          rfl
  exact hwalk n l [] (by rwa [List.append_nil]) hzero hn

/-- The new time stamps decrease. -/
theorem restamp_spec (idxs : List Nat) (hnodup : idxs.Nodup) (bumped : Int) (btab : Nat → Int) :
  (idxs.Pairwise fun x y => restamp idxs bumped btab y < restamp idxs bumped btab x)
    ∧ (∀ x ∈ idxs, restamp idxs bumped btab x ≤ bumped)
    ∧ ∀ x, x ∉ idxs → restamp idxs bumped btab x = btab x
  := by
  induction idxs generalizing bumped btab with
  | nil => exact ⟨List.Pairwise.nil, fun _ hx => absurd hx List.not_mem_nil, fun _ _ => rfl⟩
  | cons a idxs ih =>
      obtain ⟨ha, hnodup⟩ := List.nodup_cons.mp hnodup
      obtain ⟨hsorted, hle, hother⟩ := ih hnodup (bumped - 1) (Function.update btab a bumped)
      have hself : restamp (a :: idxs) bumped btab a = bumped := by
        rw [restamp, hother a ha, Function.update_self]
      refine ⟨List.pairwise_cons.mpr ⟨?_, hsorted⟩, ?_, ?_⟩
      · intro x hx
        rw [hself]
        exact Int.lt_of_le_sub_one (hle x hx)
      · intro x hx
        obtain rfl | hx := List.mem_cons.mp hx
        · exact le_of_eq hself
        · exact le_trans (hle x hx) (le_of_lt (Int.sub_one_lt_of_le le_rfl))
      · intro x hx
        rw [List.mem_cons, not_or] at hx
        rw [restamp, hother x hx.2, Function.update_of_ne hx.1]

/-- The variables that are enqueued are linked in their order. -/
theorem Linked.foldl_enqueue (h : q.Linked l) (idxs : List Nat) (hnodup : idxs.Nodup)
    (hnew : ∀ x ∈ idxs, x ≠ 0 ∧ x ∉ l) :
  (idxs.foldl Vmtf.enqueue q).Linked (l ++ idxs)
  := by
  induction idxs generalizing q l with
  | nil => rwa [List.append_nil]
  | cons a idxs ih =>
      obtain ⟨ha, hnodup⟩ := List.nodup_cons.mp hnodup
      obtain ⟨hpos, hal⟩ := hnew a List.mem_cons_self
      have hrest := ih (h.enqueue hal hpos) hnodup (by
        intro x hx
        obtain ⟨hpos, hxl⟩ := hnew x (List.mem_cons_of_mem a hx)
        refine ⟨hpos, ?_⟩
        rw [List.mem_append, List.mem_singleton, not_or]
        refine ⟨hxl, ?_⟩
        rintro rfl
        exact ha hx)
      rwa [List.append_assoc, List.singleton_append] at hrest

theorem foldl_enqueue_frame (idxs : List Nat) (q : Vmtf) :
  (idxs.foldl enqueue q).btab = q.btab ∧ (idxs.foldl enqueue q).bumped = q.bumped
    ∧ (idxs.foldl enqueue q).queue.bumped = q.queue.bumped
  := by
  induction idxs generalizing q with
  | nil => exact ⟨rfl, rfl, rfl⟩
  | cons a idxs ih => exact ih (q.enqueue a)

/-- After `shuffle_queue`, the queue has the variables in the given order. -/
theorem Inv.shuffleQueue (h : q.Inv assigned fixed l) (shuffle : List Nat)
    (hnodup : shuffle.Nodup) (hzero : 0 ∉ shuffle) :
  (q.shuffleQueue shuffle).Inv assigned fixed shuffle
  := by
  obtain ⟨hbtab, hbumped, hqueue⟩ := foldl_enqueue_frame shuffle
    { q with queue := { q.queue with first := 0, last := 0 } }
  have hlinked : (shuffle.foldl enqueue
      { q with queue := { q.queue with first := 0, last := 0 } }).Linked ([] ++ shuffle) :=
    Linked.foldl_enqueue (l := []) ⟨trivial, List.nodup_nil, List.not_mem_nil, rfl, rfl⟩ shuffle
      hnodup (fun x hx => ⟨ne_of_mem_of_not_mem hx hzero, List.not_mem_nil⟩)
  rw [List.nil_append] at hlinked
  rw [Vmtf.shuffleQueue]
  revert hbtab hbumped hqueue hlinked
  generalize shuffle.foldl enqueue { q with queue := { q.queue with first := 0, last := 0 } } = q'
  intro hbtab hbumped hqueue hlinked
  have hwalk := walkBack_eq (q := q') rfl hlinked.seg hzero (Nat.le_succ shuffle.length)
  rw [← hlinked.last] at hwalk
  simp only [hwalk]
  obtain ⟨hsorted, hle, -⟩ := restamp_spec shuffle.reverse (List.nodup_reverse.mpr hnodup)
    q'.queue.bumped q'.btab
  rw [List.pairwise_reverse] at hsorted
  have hstamp : ∀ x ∈ shuffle, restamp shuffle.reverse q'.queue.bumped q'.btab x
      ≤ q'.queue.bumped := fun x hx => hle x (List.mem_reverse.mpr hx)
  have hbumped_le : q'.queue.bumped ≤ q'.bumped := by
    rw [hqueue, hbumped]
    exact h.queue_bumped_le
  refine {
    toLinked := hlinked.congr rfl rfl rfl
    sorted := hsorted
    stamp_le := fun x hx => le_trans (hstamp x hx) hbumped_le
    bumped_nonneg := ?_
    unassigned_nil := ?_
    unassigned_mem := ?_
    queue_bumped_le := hbumped_le
    unassigned_le := fun x hx _ => hstamp x hx
    le_unassigned := ?_
    reached := ?_ }
  · change 0 ≤ q'.bumped
    rw [hbumped]
    exact h.bumped_nonneg
  · rintro rfl
    exact hlinked.last
  · intro hne
    change q'.queue.last ∈ shuffle
    rw [hlinked.last]
    exact getLastD_mem hne 0
  · intro x hx _
    change restamp shuffle.reverse q'.queue.bumped q'.btab x
      ≤ restamp shuffle.reverse q'.queue.bumped q'.btab q'.queue.last
    rw [hlinked.last]
    exact le_getLastD_of_sorted hsorted hx
  · intro hne
    have hmem := headD_mem hne 0
    exact ⟨_, hmem, Or.inr (hstamp _ hmem)⟩

end Vmtf

end Cadical
