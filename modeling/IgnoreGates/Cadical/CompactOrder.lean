import IgnoreGates.Cadical.Compact

/-!
# Compacting the decision queue and the scores

After compacting on root level, the queue consists of the active variables in their old
order, and the heap contains all of them.
-/

namespace Cadical

open DoublyLinked

namespace Vmtf

/-! ### The queue -/

/-- Nodes that are linked by the images of their neighbours. -/
def MapSeg (links : Nat → Link Nat) (f : Nat → Nat) : Nat → List Nat → Nat → Prop
  | _, [], _ => True
  | p, a :: l, n => links a = ⟨p, (l.map f).headD n⟩ ∧ MapSeg links f (f a) l n

theorem MapSeg.congr {links links' : Nat → Link Nat} {f : Nat → Nat} {p n : Nat} {l : List Nat}
    (h : MapSeg links f p l n) (heq : ∀ a ∈ l, links' a = links a) :
  MapSeg links' f p l n
  := by
  induction l generalizing p with
  | nil => exact trivial
  | cons a l ih =>
      refine ⟨?_, ih h.2 (fun b hb => heq b (List.mem_cons_of_mem a hb))⟩
      rw [heq a List.mem_cons_self]
      exact h.1

theorem mapSeg_concat {links : Nat → Link Nat} {f : Nat → Nat} {p n : Nat} {l : List Nat}
    {a : Nat} :
  MapSeg links f p (l ++ [a]) n
    ↔ MapSeg links f p l (f a) ∧ links a = ⟨(l.map f).getLastD p, n⟩
  := by
  induction l generalizing p with
  | nil => simp [MapSeg]
  | cons b l ih =>
      rw [List.cons_append, MapSeg, MapSeg, ih, List.map_append, headD_append, List.map_cons,
        List.map_nil, List.headD_cons, List.map_cons, List.getLastD_cons, and_assoc]

/-- Moving the nodes to their images. -/
theorem MapSeg.map {links links' : Nat → Link Nat} {f : Nat → Nat} {p n : Nat} {l : List Nat}
    (h : MapSeg links f p l n) (heq : ∀ a ∈ l, links' (f a) = links a) :
  Seg links' p (l.map f) n
  := by
  induction l generalizing p with
  | nil => exact trivial
  | cons a l ih =>
      refine ⟨?_, ih h.2 (fun b hb => heq b (List.mem_cons_of_mem a hb))⟩
      rw [heq a List.mem_cons_self]
      exact h.1

/-- The list that the loop has built so far, whatever is linked behind it. -/
structure Flushed (m : Mapper) (q : Vmtf) (l : List Nat) : Prop where
  seg : ∀ n, MapSeg (if l.getLastD 0 = 0 then q.links else setNext q.links (l.getLastD 0) n)
    m.table 0 l n
  first : l ≠ [] → q.queue.first = (l.map m.table).headD 0

theorem links_flushLink (q : Vmtf) (dst idx prev mappedPrev : Nat) :
  (q.flushLink dst idx prev mappedPrev).links
    = setPrev (if prev = 0 then q.links else setNext q.links prev dst) idx mappedPrev
  := rfl

theorem flushLink_links (q : Vmtf) (dst mappedPrev : Nat) {idx prev b : Nat} (hidx : b ≠ idx)
    (hprev : b ≠ prev) :
  (q.flushLink dst idx prev mappedPrev).links b = q.links b
  := by
  rw [links_flushLink, setPrev_of_ne _ _ hidx]
  split
  · rfl
  · exact setNext_of_ne _ _ hprev

/-- A variable that is kept is added to the list. -/
theorem Flushed.flushLink {m : Mapper} {q : Vmtf} {l : List Nat} {a : Nat} (h : Flushed m q l)
    (hzero : 0 ∉ l) (ha : a ∉ l) (hazero : a ≠ 0) :
  Flushed m (q.flushLink (m.table a) a (l.getLastD 0) ((l.map m.table).getLastD 0)) (l ++ [a])
  := by
  constructor
  · intro n
    rw [List.getLastD_concat, if_neg hazero]
    apply mapSeg_concat.mpr
    constructor
    · apply (h.seg (m.table a)).congr
      intro b hb
      have hba : b ≠ a := ne_of_mem_of_not_mem hb ha
      rw [setNext_of_ne _ _ hba, links_flushLink, setPrev_of_ne _ _ hba]
    · rw [setNext, Function.update_self, links_flushLink, setPrev, Function.update_self]
  · intro _
    change (if l.getLastD 0 = 0 then m.table a else q.queue.first) = _
    simp only [Linked.getLastD_eq_zero hzero]
    split
    · next hnil =>
        rw [hnil]
        rfl
    · next hne =>
        rw [List.map_append, headD_append, h.first hne]
        obtain ⟨b, l, rfl⟩ := List.exists_cons_of_ne_nil hne
        rfl

/-- The variables of the queue that are kept. -/
def keptOf (m : Mapper) (l : List Nat) : List Nat :=
  l.filter (fun idx => idx ≠ m.firstFixed ∧ m.table idx ≠ 0)

/-- The loop keeps the variables in their order. -/
theorem flushLoop_spec {m : Mapper} (l : List Nat) {n : Nat} (hn : l.length < n) {q : Vmtf}
    {done : List Nat} {p : Nat} (hseg : Seg q.links p l 0) (hl : l.Nodup) (hzero : 0 ∉ done ++ l)
    (hdone : Flushed m q done) (hdisjoint : ∀ a ∈ done, a ∉ l) :
  ∃ q', q.flushLoop m n (l.headD 0) (done.getLastD 0) ((done.map m.table).getLastD 0) = q'
    ∧ MapSeg q'.links m.table 0 (done ++ keptOf m l) 0
    ∧ q'.queue.first = ((done ++ keptOf m l).map m.table).headD 0
    ∧ q'.queue.last = ((done ++ keptOf m l).map m.table).getLastD 0
    ∧ q'.queue.unassigned = q'.queue.last ∧ q'.queue.bumped = q.queue.bumped
    ∧ q'.btab = q.btab ∧ q'.bumped = q.bumped
  := by
  induction l generalizing n q done p with
  | nil =>
      obtain ⟨n, rfl⟩ : ∃ m, n = m + 1 := ⟨n - 1, by omega⟩
      refine ⟨_, rfl, ?_⟩
      rw [List.headD_nil, flushLoop, if_pos rfl, keptOf, List.filter_nil, List.append_nil]
      refine ⟨hdone.seg 0, ?_, rfl, rfl, rfl, rfl, rfl⟩
      have hdonezero : 0 ∉ done := fun hmem => hzero (List.mem_append_left [] hmem)
      simp only [Linked.getLastD_eq_zero hdonezero]
      split
      · next hnil =>
          rw [hnil]
          rfl
      · next hne => exact hdone.first hne
  | cons a l ih =>
      obtain ⟨n, rfl⟩ : ∃ m, n = m + 1 := ⟨n - 1, by omega⟩
      obtain ⟨hlink, hrest⟩ := hseg
      obtain ⟨ha, hl⟩ := List.nodup_cons.mp hl
      have hazero : a ≠ 0 := by
        rintro rfl
        exact hzero (List.mem_append_right done List.mem_cons_self)
      have hlength : l.length < n := by
        rw [List.length_cons] at hn
        omega
      have hzerol : 0 ∉ done ++ l := by
        intro hmem
        apply hzero
        obtain hmem | hmem := List.mem_append.mp hmem
        · exact List.mem_append_left _ hmem
        · exact List.mem_append_right _ (List.mem_cons_of_mem a hmem)
      have hdisjointl : ∀ b ∈ done, b ∉ l :=
        fun b hb hbl => hdisjoint b hb (List.mem_cons_of_mem a hbl)
      have hadone : a ∉ done := fun hmem => hdisjoint a hmem List.mem_cons_self
      have hdonezero : 0 ∉ done := fun hmem => hzerol (List.mem_append_left l hmem)
      rw [List.headD_cons, flushLoop, if_neg hazero, hlink]
      simp only
      split
      · next hskip =>
          have hkept : keptOf m (a :: l) = keptOf m l := by
            rw [keptOf, List.filter_cons_of_neg]
            · rfl
            · simp only [decide_eq_true_eq, not_and_or, not_not]
              exact hskip
          rw [hkept]
          exact ih hlength hrest hl hzerol hdone hdisjointl
      · next hkeep =>
          rw [not_or] at hkeep
          have hkept : keptOf m (a :: l) = a :: keptOf m l := by
            rw [keptOf, List.filter_cons_of_pos]
            · rfl
            · simpa using hkeep
          have hstep := hdone.flushLink hdonezero hadone hazero
          have hprev : ∀ b ∈ l, b ≠ done.getLastD 0 := by
            intro b hb heq
            by_cases hnil : done = []
            · rw [heq, hnil] at hb
              exact hzerol (List.mem_append_right done hb)
            · exact hdisjointl _ (getLastD_mem hnil 0) (heq ▸ hb)
          have hsegl := hrest.congr (fun b hb => flushLink_links q (m.table a)
            ((done.map m.table).getLastD 0) (ne_of_mem_of_not_mem hb ha) (hprev b hb))
          have hdisjoint' : ∀ b ∈ done ++ [a], b ∉ l := by
            intro b hb
            obtain hb | hb := List.mem_append.mp hb
            · exact hdisjointl b hb
            · rw [List.mem_singleton.mp hb]
              exact ha
          have hzero' : 0 ∉ done ++ [a] ++ l := by
            rw [List.append_assoc, List.singleton_append]
            exact hzero
          have hnext := ih hlength hsegl hl hzero' hstep hdisjoint'
          rw [List.getLastD_concat, List.map_append, List.map_cons, List.map_nil,
            List.getLastD_concat, List.append_assoc, List.singleton_append] at hnext
          rw [hkept]
          exact hnext

variable {status : Nat → Status} {maxVar : Nat} {m : Mapper}

theorem flushed_nil (m : Mapper) (q : Vmtf) :
  Flushed m q []
  := ⟨fun _ => trivial, fun hne => absurd rfl hne⟩

theorem mem_keptOf {l : List Nat} {x : Nat} :
  x ∈ keptOf m l ↔ x ∈ l ∧ x ≠ m.firstFixed ∧ m.table x ≠ 0
  := by
  rw [keptOf, List.mem_filter, decide_eq_true_eq]

/-- A list of different variables up to `max_var` is not longer than that. -/
theorem length_le_maxVar {l : List Nat} (hnodup : l.Nodup)
    (hrange : ∀ x ∈ l, 1 ≤ x ∧ x ≤ maxVar) :
  l.length ≤ maxVar
  := by
  have hsub : l ⊆ Evsids.vars maxVar := by
    intro x hx
    rw [Evsids.vars, List.mem_range'_1]
    have hx := hrange x hx
    omega
  have hle := (hnodup.subperm hsub).length_le
  rwa [Evsids.vars, List.length_range'] at hle

/-- On root level, `compact` keeps the invariant, for the active variables of the queue. -/
theorem Inv.compact {q : Vmtf} {l : List Nat} {assigned fixed assigned' fixed' : Nat → Bool}
    (h : q.Inv assigned fixed l) (hm : m.Spec status maxVar)
    (hrange : ∀ x ∈ l, 1 ≤ x ∧ x ≤ maxVar)
    (hkept : ∀ x ∈ keptOf m l, assigned x = false ∧ fixed' (m.table x) = false) :
  (q.compact m maxVar).Inv assigned' fixed' ((keptOf m l).map m.table)
  := by
  obtain ⟨q', hq', hseg, hfirst, hlast, hunassigned, hqueue, hbtab, hbumped⟩ :=
    flushLoop_spec l (Nat.lt_succ_of_le (length_le_maxVar h.nodup hrange)) h.seg h.nodup
      h.zero_notMem (flushed_nil m q) (fun _ ha => absurd ha List.not_mem_nil)
  rw [List.nil_append] at hseg hfirst hlast
  rw [← h.first] at hq'
  change q.flushLoop m (maxVar + 1) q.queue.first 0 0 = q' at hq'
  rw [Vmtf.compact, hq']
  have htable : ∀ x ∈ keptOf m l, m.table x ≠ 0 := fun x hx => (mem_keptOf.mp hx).2.2
  have hmem : ∀ x ∈ keptOf m l, x ∈ l := fun x hx => (mem_keptOf.mp hx).1
  have hstamp : ∀ x ∈ keptOf m l, m.mapVector maxVar 0 q'.btab (m.table x) = q.btab x := by
    intro x hx
    rw [hm.mapVector 0 q'.btab (htable x hx), hbtab]
  have hsorted : ((keptOf m l).map m.table).Pairwise
      (fun x y => m.mapVector maxVar 0 q'.btab x < m.mapVector maxVar 0 q'.btab y) := by
    rw [List.pairwise_map]
    apply (h.sorted.filter _).imp_of_mem
    intro x y hx hy hlt
    rw [hstamp x hx, hstamp y hy]
    exact hlt
  have hzero : 0 ∉ (keptOf m l).map m.table := by
    intro hmem
    obtain ⟨x, hx, heq⟩ := List.mem_map.mp hmem
    exact htable x hx heq
  have hle : ∀ y ∈ (keptOf m l).map m.table,
      m.mapVector maxVar 0 q'.btab y ≤ q.queue.bumped := by
    intro y hy
    obtain ⟨x, hx, rfl⟩ := List.mem_map.mp hy
    rw [hstamp x hx]
    exact h.unassigned_le x (hmem x hx) (hkept x hx).1
  refine {
    seg := ?_
    nodup := ?_
    zero_notMem := hzero
    first := hfirst
    last := hlast
    sorted := hsorted
    stamp_le := ?_
    bumped_nonneg := ?_
    unassigned_nil := ?_
    unassigned_mem := ?_
    queue_bumped_le := ?_
    unassigned_le := ?_
    le_unassigned := ?_
    reached := ?_ }
  · exact hseg.map (fun x hx => hm.mapVector ⟨0, 0⟩ q'.links (htable x hx))
  · have hnodup : (keptOf m l).Nodup := h.nodup.filter _
    rw [List.nodup_map_iff_inj_on hnodup]
    intro x hx y _ heq
    exact hm.inj (htable x hx) heq
  · intro y hy
    change _ ≤ q'.bumped
    rw [hbumped]
    exact le_trans (hle y hy) h.queue_bumped_le
  · change 0 ≤ q'.bumped
    rw [hbumped]
    exact h.bumped_nonneg
  · intro hnil
    change q'.queue.unassigned = 0
    rw [hunassigned, hlast, hnil]
    rfl
  · intro hne
    change q'.queue.unassigned ∈ _
    rw [hunassigned, hlast]
    exact getLastD_mem hne 0
  · change q'.queue.bumped ≤ q'.bumped
    rw [hqueue, hbumped]
    exact h.queue_bumped_le
  · intro y hy _
    change _ ≤ q'.queue.bumped
    rw [hqueue]
    exact hle y hy
  · intro y hy _
    change m.mapVector maxVar 0 q'.btab y ≤ m.mapVector maxVar 0 q'.btab q'.queue.unassigned
    rw [hunassigned, hlast]
    exact le_getLastD_of_sorted hsorted hy
  · intro hne
    obtain ⟨x, hx, heq⟩ := List.mem_map.mp (headD_mem hne 0)
    refine ⟨_, headD_mem hne 0, Or.inl ?_⟩
    rw [← heq]
    exact (hkept x hx).2

end Vmtf

/-! ### The scores -/

namespace Evsids

variable {status : Nat → Status} {maxVar : Nat} {m : Mapper} {assigned isAux : Nat → Bool}
    {e : Evsids}

/-- `compact` keeps the invariant of the scores. -/
theorem Inv.compact (h : e.Inv assigned isAux maxVar) (hm : m.Spec status maxVar)
    {assigned' isAux' : Nat → Bool}
    (hassigned : ∀ x, m.table x ≠ 0 → assigned' (m.table x) = false →
      assigned x = false ∧ x ≠ m.firstFixed)
    (haux : ∀ x, m.table x ≠ 0 → isAux' (m.table x) = isAux x) :
  (e.compact m maxVar).Inv assigned' isAux' m.newMaxVar
  := by
  obtain ⟨hnodup, hmem⟩ := Heap.popAll_spec (compares e.stab) e.scores.size h.wf h.ordered le_rfl
  have hsaved : ∀ y, y ∈ e.saved m ↔ ∃ x, m.table x = y ∧ e.scores.contains x = true
      ∧ m.table x ≠ 0 ∧ x ≠ m.firstFixed := by
    intro y
    rw [saved, List.mem_map]
    apply exists_congr
    intro x
    rw [List.mem_filter, less, hmem x, decide_eq_true_eq]
    tauto
  have hnodup' : (e.saved m).Nodup := by
    rw [saved, less, List.nodup_map_iff_inj_on (hnodup.filter _)]
    intro x hx y _ heq
    rw [List.mem_filter, decide_eq_true_eq] at hx
    exact hm.inj hx.2.1 heq
  have hwf₀ : (if e.scores.size = 0 then e.scores else Heap.empty).Wf := by
    split
    · exact h.wf
    · exact Heap.wf_empty
  have hsize₀ : (if e.scores.size = 0 then e.scores else Heap.empty).size = 0 := by
    split
    · assumption
    · rfl
  have hcontains₀ : ∀ x, (if e.scores.size = 0 then e.scores else Heap.empty).contains x = false := by
    intro x
    rw [← Bool.not_eq_true, hwf₀.contains_iff, hsize₀]
    rintro ⟨i, hi, -⟩
    exact absurd hi (Nat.not_lt_zero i)
  have hordered₀ : Heap.Ordered (Above (m.mapVector maxVar 0 e.stab))
      (if e.scores.size = 0 then e.scores else Heap.empty) := by
    intro k _ hk
    rw [hsize₀] at hk
    exact absurd hk (Nat.not_lt_zero k)
  obtain ⟨hwf, hcontains, hordered⟩ := Heap.foldl_pushBack_spec
    (compares (m.mapVector maxVar 0 e.stab)) (e.saved m) hwf₀ hordered₀ hnodup'
    (fun x _ => hcontains₀ x)
  have hin : ∀ y, (e.compact m maxVar).scores.contains y = true ↔ y ∈ e.saved m := by
    intro y
    rw [Evsids.compact, hcontains, hcontains₀]
    simp
  refine ⟨hwf, hordered, ?_, ?_, ?_, ?_, h.scoreInc_nonneg⟩
  · intro y hy
    obtain ⟨x, rfl, -, hne, -⟩ := (hsaved y).mp ((hin y).mp hy)
    exact ⟨Nat.pos_of_ne_zero hne, hm.le_new x⟩
  · intro y hpos hle hun
    obtain ⟨x, rfl⟩ := hm.onto y hpos hle
    have hne : m.table x ≠ 0 := Nat.ne_zero_of_lt hpos
    obtain ⟨hxun, hfirst⟩ := hassigned x hne hun
    obtain ⟨hxpos, hxle⟩ := ((hm.kept x).mp hne).1
    exact (hin _).mpr ((hsaved _).mpr ⟨x, rfl, h.cover x hxpos hxle hxun, hne, hfirst⟩)
  · intro y hpos hle hnot
    obtain ⟨x, rfl⟩ := hm.onto y hpos hle
    have hne : m.table x ≠ 0 := Nat.ne_zero_of_lt hpos
    obtain ⟨hxpos, hxle⟩ := ((hm.kept x).mp hne).1
    change 0 ≤ m.mapVector maxVar 0 e.stab (m.table x)
    rw [hm.mapVector 0 e.stab hne]
    exact h.nonneg x hxpos hxle ((haux x hne).symm.trans hnot)
  · intro y hy
    change m.mapVector maxVar 0 e.stab y = 0
    rw [Mapper.mapVector, if_neg (by omega)]

end Evsids

end Cadical
