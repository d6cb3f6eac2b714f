import Mathlib.Data.List.Induction
import IgnoreGates.Cadical.QueueOrder

/-!
# The next decision variable on the queue

The search goes back from the pointer to the last variable that is neither assigned nor
auxiliary.  The auxiliary variables on its way end up in front of the queue, in their order.
-/

namespace Cadical

open DoublyLinked

namespace Vmtf

variable {assigned fixed isAux : Nat → Bool} {q : Vmtf} {l : List Nat}

/-- More iterations do not change the result. -/
theorem nextLoop_mono {m n : Nat} (hle : m ≤ n) {res : Nat} {searched : Bool}
    {r : Nat × Bool × Vmtf} (h : nextLoop assigned isAux m q res searched = some r) :
  nextLoop assigned isAux n q res searched = some r
  := by
  induction m generalizing n q res searched with
  | zero => cases h
  | succ m ih =>
      obtain ⟨n, rfl⟩ : ∃ k, n = k + 1 := ⟨n - 1, by omega⟩
      rw [nextLoop] at h ⊢
      split at h
      · next hgo =>
          rw [if_pos hgo]
          exact ih (Nat.le_of_succ_le_succ hle) h
      · next hstop =>
          rw [if_neg hstop]
          exact h

theorem nextDecisionVariableOnQueue_mono {m n : Nat} (hle : m ≤ n) {r : Nat × Vmtf}
    (h : q.nextDecisionVariableOnQueue assigned isAux m = some r) :
  q.nextDecisionVariableOnQueue assigned isAux n = some r
  := by
  rw [nextDecisionVariableOnQueue] at h ⊢
  split at h
  · cases h
  · next hloop =>
      rw [nextLoop_mono hle hloop]
      exact h

/-- The loop passes the variables behind `x`, which are assigned or auxiliary. -/
theorem nextLoop_spec {x : Nat} (hx : assigned x = false ∧ isAux x = false) (D : List Nat)
    (hD : ∀ d ∈ D, assigned d = true ∨ isAux d = true) {q : Vmtf} {F E : List Nat}
    (h : q.Ordered (F ++ x :: (D ++ E))) {n : Nat} (hn : D.length < n) (searched : Bool) :
  ∃ q', nextLoop assigned isAux n q (D.getLastD x) searched
      = some (x, searched || !D.isEmpty, q')
    ∧ q'.Ordered (D.filter isAux ++ (F ++ x :: (D.filter (fun d => !isAux d) ++ E)))
    ∧ (D = [] → q' = q)
  := by
  induction D using List.reverseRecOn generalizing q F E n searched with
  | nil =>
      obtain ⟨n, rfl⟩ := Nat.exists_eq_add_of_lt hn
      refine ⟨q, ?_, h, fun _ => rfl⟩
      rw [nextLoop, List.getLastD_nil, if_neg (by simp [hx])]
      simp
  | append_singleton D d ih =>
      obtain ⟨n, rfl⟩ : ∃ m, n = m + 1 := ⟨n - 1, by omega⟩
      have hd := hD d (List.mem_append_right D (List.mem_singleton_self d))
      have hD' : ∀ d ∈ D, assigned d = true ∨ isAux d = true :=
        fun d hd => hD d (List.mem_append_left _ hd)
      have hlength : D.length < n := by
        rw [List.length_append, List.length_singleton] at hn
        omega
      have hsplit : F ++ x :: (D ++ [d] ++ E) = F ++ x :: D ++ d :: E := by simp
      rw [hsplit] at h
      have hprev : (q.links d).prev = D.getLastD x := by
        rw [h.seg.link, getLastD_append, List.getLastD_cons]
      have hloop : nextLoop assigned isAux (n + 1) q ((D ++ [d]).getLastD x) searched
          = nextLoop assigned isAux n (if isAux d then q.moveToFront d else q) (D.getLastD x)
            true := by
        rw [List.getLastD_concat, nextLoop, if_pos hd, hprev]
      rw [hloop]
      have hsearched : (searched || !(D ++ [d]).isEmpty) = (true || !D.isEmpty) := by simp
      rw [hsearched]
      cases haux : isAux d with
      | true =>
          have hmove := h.moveToFront (by simp)
          rw [List.append_assoc, List.cons_append, ← List.cons_append] at hmove
          obtain ⟨q', hq', hordered, -⟩ := ih hD' hmove hlength true
          refine ⟨q', hq', ?_, fun hnil => absurd hnil (by simp)⟩
          rw [List.filter_append, List.filter_append]
          simpa [haux] using hordered
      | false =>
          rw [List.append_assoc, List.cons_append] at h
          obtain ⟨q', hq', hordered, -⟩ := ih hD' h hlength true
          refine ⟨q', hq', ?_, fun hnil => absurd hnil (by simp)⟩
          rw [List.filter_append, List.filter_append]
          simpa [haux] using hordered

/-- The last element with a property. -/
theorem exists_last_split {p : Nat → Prop} (l : List Nat) (hex : ∃ x ∈ l, p x) :
  ∃ F x D, l = F ++ x :: D ∧ p x ∧ ∀ d ∈ D, ¬ p d
  := by
  induction l using List.reverseRecOn with
  | nil =>
      obtain ⟨x, hx, -⟩ := hex
      cases hx
  | append_singleton l a ih =>
      by_cases ha : p a
      · exact ⟨l, a, [], rfl, ha, fun _ hd => absurd hd List.not_mem_nil⟩
      · obtain ⟨x, hx, hpx⟩ := hex
        have hxl : x ∈ l := by
          obtain hx | hx := List.mem_append.mp hx
          · exact hx
          · rw [List.mem_singleton.mp hx] at hpx
            exact absurd hpx ha
        obtain ⟨F, y, D, rfl, hpy, hD⟩ := ih ⟨x, hxl, hpx⟩
        refine ⟨F, y, D ++ [a], by simp, hpy, ?_⟩
        intro d hd
        obtain hd | hd := List.mem_append.mp hd
        · exact hD d hd
        · rw [List.mem_singleton.mp hd]
          exact ha

/-- The last element with a property is unique. -/
theorem last_split_unique {p : Nat → Prop} {F F' D D' : List Nat} {x x' : Nat}
    (heq : F ++ x :: D = F' ++ x' :: D') (hx : p x) (hx' : p x') (hD : ∀ d ∈ D, ¬ p d)
    (hD' : ∀ d ∈ D', ¬ p d) :
  x = x'
  := by
  obtain ⟨a, rfl, ha⟩ | ⟨a, rfl, ha⟩ := List.append_eq_append_iff.mp heq
  · cases a with
    | nil => exact (List.cons.inj ha).1
    | cons b a =>
        obtain ⟨-, rfl⟩ := List.cons.inj ha
        exact absurd hx' (hD x' (List.mem_append_right a List.mem_cons_self))
  · cases a with
    | nil => exact (List.cons.inj ha).1.symm
    | cons b a =>
        obtain ⟨-, rfl⟩ := List.cons.inj ha
        exact absurd hx (hD' x (List.mem_append_right a List.mem_cons_self))

/-- If some variable of the queue is neither assigned nor auxiliary, the last such variable is
found.  The queue has the same variables as before, and those that are not auxiliary are in
the same order. -/
theorem Inv.nextDecisionVariableOnQueue (h : q.Inv assigned fixed l)
    (hex : ∃ x ∈ l, assigned x = false ∧ isAux x = false) {n : Nat} (hn : l.length < n) :
  ∃ x q' l', q.nextDecisionVariableOnQueue assigned isAux n = some (x, q')
    ∧ (assigned x = false ∧ isAux x = false)
    ∧ (∃ F E, l = F ++ x :: E ∧ ∀ y ∈ E, ¬ (assigned y = false ∧ isAux y = false))
    ∧ q'.Inv assigned fixed l' ∧ l'.Perm l
    ∧ l'.filter (fun y => !isAux y) = l.filter (fun y => !isAux y)
  := by
  have hne : l ≠ [] := by
    rintro rfl
    obtain ⟨x, hx, -⟩ := hex
    cases hx
  obtain ⟨A, B, hAB⟩ := List.append_of_mem (h.unassigned_mem hne)
  have hbefore {x : Nat} (hx : x ∈ l) (hun : assigned x = false) :=
    h.unassigned_before hAB hx hun
  obtain ⟨F, x, D, hsplit, ⟨hun, haux⟩, hD⟩ := exists_last_split
    (p := fun x => assigned x = false ∧ isAux x = false) (A ++ [q.queue.unassigned]) (by
      obtain ⟨x, hx, hun, haux⟩ := hex
      exact ⟨x, hbefore hx hun, hun, haux⟩)
  have hD' : ∀ d ∈ D, assigned d = true ∨ isAux d = true := by
    intro d hd
    have hstop : ¬ (assigned d = false ∧ isAux d = false) := hD d hd
    rwa [not_and_or, Bool.not_eq_false, Bool.not_eq_false] at hstop
  have hl : l = F ++ x :: (D ++ B) := by
    rw [hAB, ← List.singleton_append, ← List.append_assoc, hsplit, List.append_assoc,
      List.cons_append]
  have hpointer : q.queue.unassigned = D.getLastD x := by
    have hlast : (A ++ [q.queue.unassigned]).getLastD 0 = (F ++ x :: D).getLastD 0 := by
      rw [hsplit]
    rwa [List.getLastD_concat, getLastD_append, List.getLastD_cons] at hlast
  have hB : ∀ y ∈ B, assigned y = true := by
    intro y hy
    by_contra hy'
    have hyl : y ∈ l := by
      rw [hl]
      simp [hy]
    have hbefore := hbefore hyl (by simpa using hy')
    have hnodup := h.nodup
    rw [hAB, ← List.singleton_append, ← List.append_assoc] at hnodup
    exact (List.nodup_append'.mp hnodup).2.2 hbefore hy
  have hlast : ∃ F E, l = F ++ x :: E ∧ ∀ y ∈ E, ¬ (assigned y = false ∧ isAux y = false) := by
    refine ⟨F, D ++ B, hl, ?_⟩
    intro y hy
    obtain hy | hy := List.mem_append.mp hy
    · exact hD y hy
    · rw [hB y hy]
      rintro ⟨hyun, -⟩
      cases hyun
  have hordered := h.toOrdered
  rw [hl] at hordered
  obtain ⟨q', hq', hordered', hsame⟩ := nextLoop_spec ⟨hun, haux⟩ D hD' hordered
    (n := n) (by
      rw [hl] at hn
      simp only [List.length_append, List.length_cons] at hn
      omega) false
  rw [Vmtf.nextDecisionVariableOnQueue, hpointer, hq']
  by_cases hnil : D = []
  · refine ⟨x, q, l, ?_, ⟨hun, haux⟩, hlast, h, List.Perm.refl l, rfl⟩
    rw [hsame hnil, hnil]
    rfl
  · have hsearched : (false || !D.isEmpty) = true := by simpa using hnil
    rw [hsearched]
    refine ⟨x, _, _, rfl, ⟨hun, haux⟩, hlast, hordered'.updateQueueUnassigned (by simp) ?_, ?_, ?_⟩
    · intro y hy hyun
      rw [← List.append_assoc] at hy
      have hsorted := hordered'.sorted
      rw [← List.append_assoc] at hsorted
      obtain hy | hy := List.mem_append.mp hy
      · exact le_of_lt (lt_of_sorted hsorted hy)
      · obtain rfl | hy := List.mem_cons.mp hy
        · exact le_rfl
        · exfalso
          obtain hy | hy := List.mem_append.mp hy
          · rw [List.mem_filter] at hy
            obtain hassigned | hyaux := hD' y hy.1
            · rw [hassigned] at hyun
              cases hyun
            · rw [hyaux] at hy
              cases hy.2
          · rw [hB y hy] at hyun
            cases hyun
    · rw [hl]
      have hfilter : (D.filter isAux ++ D.filter (fun d => !isAux d)).Perm D :=
        List.filter_append_perm isAux D
      calc D.filter isAux ++ (F ++ x :: (D.filter (fun d => !isAux d) ++ B))
        _ = D.filter isAux ++ (F ++ [x]) ++ (D.filter (fun d => !isAux d) ++ B) := by simp
        List.Perm _ (F ++ [x] ++ D.filter isAux ++ (D.filter (fun d => !isAux d) ++ B)) :=
          List.perm_append_comm.append_right _
        _ = F ++ [x] ++ (D.filter isAux ++ D.filter (fun d => !isAux d)) ++ B := by simp
        List.Perm _ (F ++ [x] ++ D ++ B) := (hfilter.append_left _).append_right B
        _ = F ++ x :: (D ++ B) := by simp
    · have hnone : (D.filter isAux).filter (fun y => !isAux y) = [] := by
        rw [List.filter_eq_nil_iff]
        intro y hy
        simpa using (List.mem_filter.mp hy).2
      rw [hl]
      simp [List.filter_append, List.filter_cons, hnone]

end Vmtf

end Cadical
