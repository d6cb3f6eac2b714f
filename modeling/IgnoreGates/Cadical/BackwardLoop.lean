import IgnoreGates.Cadical.BackwardSound

/-!
# The loop over the candidates

The loop keeps the candidates that are still to come as they were when it began, so that what
it does with a candidate depends on the state before it and on the two variables that are not
set back.
-/

namespace Cadical

open Logic

namespace Eliminator

variable {s t : Eliminator} {c d : Nat}

/-- The literals of `c` are marked, and the candidates can be compared with `c`. -/
structure Ready (s : Eliminator) (c : Nat) : Prop where
  matching : s.Matching c
  connected : s.Connected
  size_lt : ∀ d, (s.clause d).length < uintMax
  not_garbage : s.garbage c = false
  not_satisfied : ¬ s.Satisfied (s.clause c)
  free_pos : 0 < (s.free c).length

theorem Ready.free_lt (h : s.Ready c) :
  (s.free c).length < uintMax
  := (List.length_filter_le _ _).trans_lt (h.size_lt c)

/-- The candidates that are still to come are as they were. -/
structure Remaining (s t : Eliminator) (ds : List Nat) : Prop where
  nodup : ds.Nodup
  clause : ∀ d ∈ ds, t.clause d = s.clause d
  garbage : ∀ d ∈ ds, t.garbage d = s.garbage d

namespace Remaining

variable {ds : List Nat}

/-- Without the first candidate. -/
theorem tail (h : Remaining s t (d :: ds)) :
  Remaining s t ds
  where
    nodup := (List.nodup_cons.mp h.nodup).2
    clause := fun d' hd' => h.clause d' (List.mem_cons_of_mem d hd')
    garbage := fun d' hd' => h.garbage d' (List.mem_cons_of_mem d hd')

theorem ne (h : Remaining s t (d :: ds)) {d' : Nat} (hd' : d' ∈ ds) :
  d' ≠ d
  := ne_of_mem_of_not_mem hd' (List.nodup_cons.mp h.nodup).1

/-- A candidate that becomes garbage changes none of those behind it. -/
theorem markGarbage (h : Remaining s t (d :: ds)) :
  Remaining s (t.markGarbage d) ds
  where
    nodup := h.tail.nodup
    clause := h.tail.clause
    garbage := fun d' hd' => (Function.update_of_ne (h.ne hd') _ _).trans (h.tail.garbage d' hd')

/-- A candidate that is strengthened changes none of those behind it. -/
theorem strengthen (h : Remaining s t (d :: ds)) (lit : Lit) :
  Remaining s ((t.strengthenClause d lit).removeOccs lit d) ds
  where
    nodup := h.tail.nodup
    clause := fun d' hd' =>
      (clause_strengthenClause_of_ne (h.ne hd') lit).trans (h.tail.clause d' hd')
    garbage := h.tail.garbage

end Remaining

/-- The values and the marks are the same. -/
structure Agrees (s t : Eliminator) : Prop where
  vals : t.vals = s.vals
  marks : t.marks = s.marks

/-- Trimming the occurrence lists touches neither the values nor the marks. -/
theorem Trimmed.agrees (h : Trimmed s t c) :
  Agrees s t
  := ⟨h.vals, h.marks⟩

theorem Agrees.val (h : Agrees s t) (lit : Lit) :
  t.val lit = s.val lit
  := by rw [Eliminator.val, Eliminator.val, h.vals]

theorem Agrees.marked (h : Agrees s t) (lit : Lit) :
  t.marked lit = s.marked lit
  := by rw [Eliminator.marked, Eliminator.marked, h.marks]

/-- The comparison of a candidate reads only values and marks. -/
theorem Agrees.matchLoop (h : Agrees s t) (lits : List Lit) (v : Comparison) :
  t.matchLoop lits v = s.matchLoop lits v
  := by
  induction lits generalizing v with
  | nil => rfl
  | cons lit rest ih => simp only [Eliminator.matchLoop, h.val, h.marked, ih]

/-- The search for the unit reads only values. -/
theorem Agrees.unitLoop (h : Agrees s t) (negated : Lit) (lits : List Lit) (unit : Scan) :
  t.unitLoop negated lits unit = s.unitLoop negated lits unit
  := by
  induction lits generalizing unit with
  | nil => rfl
  | cons lit rest ih => simp only [Eliminator.unitLoop, h.val, ih]

end Eliminator

open Eliminator

namespace Backward

variable {m : Eliminator} {t : Backward} {c d : Nat} {ds : List Nat} {v : Comparison}

/-- Enqueuing a clause for backward subsumption changes nothing of the eliminator. -/
@[simp]
theorem enqueue_toEliminator (t : Backward) (c : Nat) :
  (t.enqueue c).toEliminator = t.toEliminator
  := by
  rw [enqueue]
  split
  · rfl
  · split <;> rfl

/-! ### One candidate -/

/-- Candidates that are not compared are passed. -/
theorem candidatesLoop_skip (hrest : Remaining m t.toEliminator (d :: ds))
    (hsize : v.size = (m.free c).length) (hd : ¬ m.Comparable c d) :
  t.candidatesLoop c (d :: ds) v = t.candidatesLoop c ds v
  := by
  rw [candidatesLoop, if_pos]
  rw [hrest.clause d List.mem_cons_self, hrest.garbage d List.mem_cons_self, hsize]
  by_contra hnot
  rw [not_or, not_or, Nat.not_lt, Bool.not_eq_true] at hnot
  exact hd ⟨hnot.1, hnot.2.1, hnot.2.2⟩

/-- What is done with a candidate that is compared. -/
theorem candidatesLoop_compare (hagrees : Agrees m t.toEliminator)
    (hrest : Remaining m t.toEliminator (d :: ds)) (hsize : v.size = (m.free c).length)
    (hd : m.Comparable c d) {r : Comparison}
    (hr : m.matchLoop (m.clause d) (v.behind m c []) = r) :
  t.candidatesLoop c (d :: ds) v
    = if r.satisfied then
        (t.setEliminator (t.markGarbage d)).candidatesLoop c ds r
      else if r.found = r.size then
        match r.negated with
        | none => (t.setEliminator (t.markGarbage d)).candidatesLoop c ds r
        | some negated =>
            match m.unitLoop negated (m.clause d) .falsified with
            | .satisfied =>
                (t.setEliminator (t.markGarbage d)).candidatesLoop c ds
                  { r with satisfied := true }
            | .unit unit => t.setEliminator ((t.assignUnit unit).elimPropagate unit)
            | _ =>
                if (t.occs negated).length ≤ t.opts.elimocclim then
                  ((t.setEliminator ((t.strengthenClause d negated).removeOccs negated
                    d)).enqueue d).candidatesLoop c ds r
                else t.candidatesLoop c ds r
      else t.candidatesLoop c ds r
  := by
  have hbehind : ({ v with negated := none, found := 0 } : Comparison) = v.behind m c [] := rfl
  rw [candidatesLoop, if_neg]
  · have hclause := hrest.clause d List.mem_cons_self
    have hmatch : t.matchLoop (t.clause d) { v with negated := none, found := 0 } = r := by
      rw [hclause, hagrees.matchLoop, hbehind, hr]
    cases hnegated : r.negated with
    | none => simp only [hmatch, hnegated]
    | some negated =>
        have hunit : t.unitLoop negated (t.clause d) .falsified
            = m.unitLoop negated (m.clause d) .falsified := by
          rw [hclause, hagrees.unitLoop]
        cases hfound : m.unitLoop negated (m.clause d) .falsified with
        | falsified => simp only [hmatch, hnegated, hunit, hfound]
        | satisfied => simp only [hmatch, hnegated, hunit, hfound]
        | unit unit => simp only [hmatch, hnegated, hunit, hfound]
        | several => simp only [hmatch, hnegated, hunit, hfound]
  · rw [hrest.clause d List.mem_cons_self, hrest.garbage d List.mem_cons_self, hsize]
    rintro (heq | hgarbage | hlt)
    · exact hd.ne heq
    · rw [hd.not_garbage] at hgarbage
      cases hgarbage
    · exact Nat.not_lt.mpr hd.size hlt

/-- With the largest number as `size`, no candidate is compared. -/
theorem candidatesLoop_done (hlt : ∀ d ∈ ds, (t.clause d).length < uintMax)
    (hsize : v.size = uintMax) :
  t.candidatesLoop c ds v = t
  := by
  induction ds with
  | nil => rfl
  | cons d ds ih =>
      obtain ⟨hd, hds⟩ := List.forall_mem_cons.mp hlt
      rw [candidatesLoop, if_pos (Or.inr (Or.inr (by rwa [hsize])))]
      exact ih hds

/-! ### Behind a satisfied candidate -/

/-- No candidate of the list is compared that contains two complements. -/
def NoneWithTwo (m : Eliminator) (c : Nat) (ds : List Nat) : Prop :=
  ∀ x ∈ ds, m.Comparable c x → ¬ m.MeetsTwo c (m.clause x)

/-- While `satisfied` is set, all candidates that are compared become garbage. -/
theorem candidatesLoop_satisfied (hm : m.Ready c) (hagrees : Agrees m t.toEliminator)
    (hrest : Remaining m t.toEliminator ds) (hsize : v.size = (m.free c).length)
    (hsat : v.satisfied = true) :
  ∃ g, t.candidatesLoop c ds v = t.setEliminator { t.toEliminator with garbage := g }
    ∧ ∀ d, g d = true ↔ t.garbage d = true
      ∨ ∃ pre post, ds = pre ++ d :: post ∧ m.Comparable c d ∧ NoneWithTwo m c pre
  := by
  induction ds generalizing t v with
  | nil => exact ⟨t.garbage, rfl, by simp⟩
  | cons d ds ih =>
      by_cases hd : m.Comparable c d
      · obtain ⟨r, hr⟩ : ∃ r, m.matchLoop (m.clause d) (v.behind m c []) = r := ⟨_, rfl⟩
        have hrsat : r.satisfied = true := by
          rw [← hr]
          exact (matchLoop_satisfied hm.matching hsize hm.free_pos).mpr (Or.inl hsat)
        have hmark : ∀ d', (t.markGarbage d).garbage d' = true
            ↔ d' = d ∨ t.garbage d' = true := fun d' => garbage_markGarbage
        rw [candidatesLoop_compare hagrees hrest hsize hd hr, if_pos hrsat]
        by_cases htwo : m.MeetsTwo c (m.clause d)
        · have hmax : r.size = uintMax := by
            rw [← hr]
            exact (htwo.matchLoop hm.matching hsize).2.1
          rw [candidatesLoop_done _ hmax]
          · refine ⟨(t.markGarbage d).garbage, rfl, ?_⟩
            intro d'
            rw [hmark]
            constructor
            · rintro (rfl | hgarbage)
              · exact Or.inr ⟨[], ds, rfl, hd, nofun⟩
              · exact Or.inl hgarbage
            · rintro (hgarbage | ⟨pre, post, hsplit, -, hnone⟩)
              · exact Or.inr hgarbage
              · cases pre with
                | nil => exact Or.inl (List.cons.inj hsplit).1.symm
                | cons x pre =>
                    obtain ⟨rfl, -⟩ := List.cons.inj hsplit
                    exact absurd htwo (hnone d List.mem_cons_self hd)
          · intro d' hd'
            have hclause := hrest.tail.clause d' hd'
            change (t.clause d').length < uintMax
            rw [hclause]
            exact hm.size_lt d'
        · have hrsize : r.size = (m.free c).length := by
            rw [← hr, matchLoop_size hm.matching hsize hm.free_pos htwo, hsize]
          obtain ⟨g, hloop, hg⟩ := ih (t := t.setEliminator (t.markGarbage d)) (v := r)
            ⟨hagrees.vals, hagrees.marks⟩ hrest.markGarbage hrsize hrsat
          refine ⟨g, hloop, ?_⟩
          intro d'
          rw [hg]
          change (t.markGarbage d).garbage d' = true ∨ _ ↔ _
          rw [hmark]
          constructor
          · rintro ((rfl | hgarbage) | ⟨pre, post, rfl, hd', hnone⟩)
            · exact Or.inr ⟨[], ds, rfl, hd, nofun⟩
            · exact Or.inl hgarbage
            · exact Or.inr ⟨d :: pre, post, rfl, hd',
                List.forall_mem_cons.mpr ⟨fun _ => htwo, hnone⟩⟩
          · rintro (hgarbage | ⟨pre, post, hsplit, hd', hnone⟩)
            · exact Or.inl (Or.inr hgarbage)
            · cases pre with
              | nil => exact Or.inl (Or.inl (List.cons.inj hsplit).1.symm)
              | cons x pre =>
                  obtain ⟨rfl, rfl⟩ := List.cons.inj hsplit
                  exact Or.inr ⟨pre, post, rfl, hd', (List.forall_mem_cons.mp hnone).2⟩
      · rw [candidatesLoop_skip hrest hsize hd]
        obtain ⟨g, hloop, hg⟩ := ih hagrees hrest.tail hsize hsat
        refine ⟨g, hloop, ?_⟩
        intro d'
        rw [hg]
        apply or_congr_right
        constructor
        · rintro ⟨pre, post, rfl, hd', hnone⟩
          exact ⟨d :: pre, post, rfl, hd',
            List.forall_mem_cons.mpr ⟨fun hcomp => absurd hcomp hd, hnone⟩⟩
        · rintro ⟨pre, post, hsplit, hd', hnone⟩
          cases pre with
          | nil =>
              obtain ⟨rfl, -⟩ := List.cons.inj hsplit
              exact absurd hd' hd
          | cons x pre =>
              obtain ⟨rfl, rfl⟩ := List.cons.inj hsplit
              exact ⟨pre, post, rfl, hd', (List.forall_mem_cons.mp hnone).2⟩

/-! ### Up to the first satisfied candidate -/

/-- What the comparison of a candidate computes when `satisfied` is not set. -/
structure Outcome (m : Eliminator) (c d : Nat) (r : Comparison) : Prop where
  meetsTrue : r.satisfied = true ↔ m.MeetsTrue c (m.clause d)
  size : ¬ m.MeetsTwo c (m.clause d) → r.size = (m.free c).length
  meetsTwo : m.MeetsTwo c (m.clause d) → r.satisfied = false ∧ r.size = uintMax ∧ r.found ≠ r.size
  found : r.satisfied = false →
    (r.found = r.size ↔ ∃ negated, m.MeetsAll c (m.clause d) negated)
  negated : ∀ {negated}, m.MeetsAll c (m.clause d) negated →
    r.satisfied = false ∧ r.negated = negated.head? ∧ negated.length ≤ 1

/-- The comparison of any candidate while `satisfied` is not set. -/
theorem outcome (hm : m.Ready c) (hsize : v.size = (m.free c).length) (hsat : v.satisfied = false)
    (d : Nat) :
  Outcome m c d (m.matchLoop (m.clause d) (v.behind m c []))
  where
    meetsTrue := by
      rw [matchLoop_satisfied hm.matching hsize hm.free_pos, hsat]
      simp
    size := fun hnot => (matchLoop_size hm.matching hsize hm.free_pos hnot).trans hsize
    meetsTwo := by
      intro htwo
      obtain ⟨hkeep, hmax, hfound⟩ := htwo.matchLoop hm.matching hsize
      have hlt := hm.free_lt
      exact ⟨hkeep.trans hsat, hmax, by omega⟩
    found := matchLoop_found hm.matching hsize hm.free_pos hm.free_lt
    negated := by
      intro negated hall
      rw [hall.matchLoop hm.matching hsize]
      obtain ⟨-, -, -, -, -, -, -, -, -, hle⟩ := hall
      exact ⟨hsat, rfl, hle⟩

namespace Outcome

variable {r : Comparison}

/-- Two ends of a comparison exclude each other. -/
theorem not_meetsTwo (h : Outcome m c d r) {negated : List Lit}
    (hall : m.MeetsAll c (m.clause d) negated) :
  ¬ m.MeetsTwo c (m.clause d)
  := by
  intro htwo
  obtain ⟨hsat, -, hne⟩ := h.meetsTwo htwo
  exact hne ((h.found hsat).mpr ⟨negated, hall⟩)

/-- A true literal ends the comparison before a second negated literal is met. -/
theorem not_meetsTwo_of_satisfied (h : Outcome m c d r) (hsat : r.satisfied = true) :
  ¬ m.MeetsTwo c (m.clause d)
  := by
  intro htwo
  rw [(h.meetsTwo htwo).1] at hsat
  cases hsat

/-- `satisfied` is set by the comparison, or by the search for a unit. -/
theorem setsSatisfied_iff (h : Outcome m c d r) :
  m.SetsSatisfied c d ↔ r.satisfied = true ∨ ∃ n, m.MeetsAll c (m.clause d) [n]
    ∧ m.unitLoop n (m.clause d) .falsified = .satisfied
  := by
  rw [SetsSatisfied, h.meetsTrue]
  simp only [unitLoop_satisfied_iff]

/-- A unit is derived from a candidate with exactly one negated literal whose other literals are all
but one false. -/
theorem givesUnit_iff :
  m.GivesUnit c d ↔ ∃ n, m.MeetsAll c (m.clause d) [n]
    ∧ ∃ unit, m.unitLoop n (m.clause d) .falsified = .unit unit
  := by
  rw [GivesUnit]
  simp only [unitLoop_unit_iff]

/-- The literal that is complemented is determined. -/
theorem negated_eq (h : Outcome m c d r) {n n' : Lit} (hall : m.MeetsAll c (m.clause d) [n])
    (hall' : m.MeetsAll c (m.clause d) [n']) :
  n = n'
  := by
  have heq := (h.negated hall).2.1.symm.trans (h.negated hall').2.1
  exact Option.some.inj heq

end Outcome

/-- What holds behind a loop over candidates that begins without `satisfied` being set. -/
structure LoopSpec (m : Eliminator) (c : Nat) (ds : List Nat) (r : Eliminator) : Prop where
  sound : (∀ pre d post, ds = pre ++ d :: post → m.Comparable c d → m.StillSatisfied c pre →
    m.Redundant c d) → Reduced m r c
  mistaken : ∀ pre d post, ds = pre ++ d :: post → m.Comparable c d → m.StillSatisfied c pre →
    r.garbage d = true ∧ r.vals = m.vals

/-- The candidate neither sets `satisfied` nor ends the comparisons. -/
structure Neutral (m : Eliminator) (c d : Nat) : Prop where
  setsSatisfied : m.Comparable c d → ¬ m.SetsSatisfied c d
  givesUnit : m.Comparable c d → ¬ m.GivesUnit c d
  meetsTwo : m.Comparable c d → ¬ m.MeetsTwo c (m.clause d)

/-- A neutral candidate in front changes nothing for those behind it. -/
theorem Neutral.stillSatisfied_cons (h : Neutral m c d) (pre : List Nat) :
  m.StillSatisfied c (d :: pre) ↔ m.StillSatisfied c pre
  := by
  apply and_congr
  · constructor
    · rintro ⟨pre₁, x, pre₂, hsplit, hx, hsets, hnone⟩
      cases pre₁ with
      | nil =>
          obtain ⟨rfl, -⟩ := List.cons.inj hsplit
          exact absurd hsets (h.setsSatisfied hx)
      | cons y pre₁ =>
          obtain ⟨rfl, rfl⟩ := List.cons.inj hsplit
          exact ⟨pre₁, x, pre₂, rfl, hx, hsets, (List.forall_mem_cons.mp hnone).2⟩
    · rintro ⟨pre₁, x, pre₂, rfl, hx, hsets, hnone⟩
      exact ⟨d :: pre₁, x, pre₂, rfl, hx, hsets, List.forall_mem_cons.mpr ⟨h.givesUnit, hnone⟩⟩
  · rw [List.forall_mem_cons]
    exact and_iff_right h.meetsTwo

/-- A candidate is neutral when the search for a unit, if there is one, finds neither a true
literal nor a unit. -/
theorem Outcome.neutral {r : Comparison} (h : Outcome m c d r) (hsat : r.satisfied = false)
    (htwo : ¬ m.MeetsTwo c (m.clause d))
    (hunit : ∀ n, m.MeetsAll c (m.clause d) [n] →
      m.unitLoop n (m.clause d) .falsified ≠ .satisfied
        ∧ ∀ unit, m.unitLoop n (m.clause d) .falsified ≠ .unit unit) :
  Neutral m c d
  where
    setsSatisfied := by
      rw [h.setsSatisfied_iff, hsat]
      rintro - (hfalse | ⟨n, hall, hsearch⟩)
      · cases hfalse
      · exact (hunit n hall).1 hsearch
    givesUnit := by
      rw [givesUnit_iff]
      rintro - ⟨n, hall, unit, hsearch⟩
      exact (hunit n hall).2 unit hsearch
    meetsTwo := fun _ => htwo

/-- Before the first candidate `satisfied` is not set. -/
theorem not_stillSatisfied_nil :
  ¬ m.StillSatisfied c []
  := by
  rintro ⟨⟨pre, d, post, hsplit, -⟩, -⟩
  cases pre <;> cases hsplit

/-- The loop may be entered behind a neutral candidate. -/
theorem LoopSpec.cons {r : Eliminator} (hd : Neutral m c d) (h : LoopSpec m c ds r) :
  LoopSpec m c (d :: ds) r
  where
    sound := by
      intro hnone
      apply h.sound
      rintro pre d' post rfl hd' hstill
      exact hnone (d :: pre) d' post rfl hd' ((hd.stillSatisfied_cons pre).mpr hstill)
    mistaken := by
      intro pre d' post hsplit hd' hstill
      cases pre with
      | nil => exact absurd hstill not_stillSatisfied_nil
      | cons x pre =>
          obtain ⟨rfl, rfl⟩ := List.cons.inj hsplit
          exact h.mistaken pre d' post rfl hd' ((hd.stillSatisfied_cons pre).mp hstill)

/-- Behind a candidate that sets `satisfied`. -/
theorem loopSpec_of_setsSatisfied (hm : m.Ready c) (htrim : Trimmed m t.toEliminator c)
    (hrest : Remaining m t.toEliminator (d :: ds)) (hd : m.Comparable c d)
    (hsets : m.SetsSatisfied c d) (htwo : ¬ m.MeetsTwo c (m.clause d))
    (hsatisfied : m.Satisfied (m.clause d)) (hsize : v.size = (m.free c).length)
    (hsat : v.satisfied = true) :
  LoopSpec m c (d :: ds)
    ((t.setEliminator (t.markGarbage d)).candidatesLoop c ds v).toEliminator
  := by
  have htrim' := htrim.markGarbage hd.ne (Or.inl hsatisfied)
  obtain ⟨g, hloop, hg⟩ := candidatesLoop_satisfied (t := t.setEliminator (t.markGarbage d)) hm
    htrim'.agrees hrest.markGarbage hsize hsat
  rw [hloop]
  constructor
  · intro hnone
    apply Trimmed.reduced
    apply htrim'.set_garbage
    · apply Bool.eq_iff_iff.mpr
      rw [hg]
      apply or_iff_left
      rintro ⟨pre, post, -, hself, -⟩
      exact hself.ne rfl
    · exact fun d' hd' => (hg d').mpr (Or.inl hd')
    · intro d' hd'
      apply ((hg d').mp hd').imp_right
      rintro ⟨pre, post, rfl, hcomp, htwo'⟩
      apply hnone (d :: pre) d' post rfl hcomp
      exact ⟨⟨[], d, pre, rfl, hd, hsets, nofun⟩, List.forall_mem_cons.mpr ⟨fun _ => htwo, htwo'⟩⟩
  · intro pre d' post hsplit hcomp hstill
    refine ⟨?_, htrim.vals⟩
    cases pre with
    | nil => exact absurd hstill not_stillSatisfied_nil
    | cons x pre =>
        obtain ⟨rfl, rfl⟩ := List.cons.inj hsplit
        exact (hg d').mpr (Or.inr ⟨pre, post, rfl, hcomp, (List.forall_mem_cons.mp hstill.2).2⟩)

/-- Only one candidate is looked at when it gives a unit. -/
theorem loopSpec_of_givesUnit (hm : m.Ready c) (htrim : Trimmed m t.toEliminator c)
    (hd : m.Comparable c d) (hnot : ¬ m.SetsSatisfied c d) {n unit : Lit}
    (hall : m.MeetsAll c (m.clause d) [n])
    (hunit : m.unitLoop n (m.clause d) .falsified = .unit unit) :
  LoopSpec m c (d :: ds) ((t.assignUnit unit).elimPropagate unit)
  := by
  obtain ⟨hmem, hnone, hrest⟩ := unitLoop_unit hunit
  obtain ⟨hn, -, hstr⟩ := hall.strengthens hm.connected hm.not_satisfied
  constructor
  · intro _
    have hlt := lt_of_mem_clause hn
    have hltc := lt_of_mem_clause hstr.neg_mem
    have hval : t.val unit = none := (htrim.val unit).trans hnone
    have himplied : ∀ σ, t.Model σ → σ.value unit = true := by
      intro σ hσ
      have hσ' := (htrim.model_iff hm.connected hltc hm.not_garbage σ).mpr hσ
      exact hstr.unit (hm.connected.not_taut c) (fun l hl => hσ'.root.value hl) hrest
        (hσ'.sat c hltc hm.not_garbage) (hσ'.sat d hlt hd.not_garbage)
    have hassign : Propagated t.toEliminator (t.assignUnit unit) :=
      Propagated.assignUnit hval himplied
    have hconn := hassign.connected htrim.connected
    have htrue : ∀ l ∈ [unit], (t.assignUnit unit).val l = some true := by
      intro l hl
      rw [List.mem_singleton.mp hl]
      exact val_assignUnit_self unit
    exact ⟨t.toEliminator, htrim, hassign.trans (propagateWork_spec hconn htrue),
      Refutes.trans hassign (.of_unsat rfl) (propagateWork_refutes hconn htrue)⟩
  · intro pre d' post hsplit _ hstill
    exfalso
    obtain ⟨⟨pre₁, x, pre₂, rfl, hx, hsets, hgives⟩, -⟩ := hstill
    cases pre₁ with
    | nil =>
        obtain ⟨rfl, -⟩ := List.cons.inj hsplit
        exact hnot hsets
    | cons y pre₁ =>
        obtain ⟨rfl, -⟩ := List.cons.inj hsplit
        exact hgives d List.mem_cons_self hd (Outcome.givesUnit_iff.mpr ⟨n, hall, unit, hunit⟩)

/-- Behind a candidate with two complements nothing is done any more. -/
theorem loopSpec_of_meetsTwo (htrim : Trimmed m t.toEliminator c) (hd : m.Comparable c d)
    (htwo : m.MeetsTwo c (m.clause d)) :
  LoopSpec m c (d :: ds) t.toEliminator
  where
    sound := fun _ => htrim.reduced
    mistaken := by
      intro pre d' post hsplit _ hstill
      cases pre with
      | nil => exact absurd hstill not_stillSatisfied_nil
      | cons x pre =>
          obtain ⟨rfl, -⟩ := List.cons.inj hsplit
          exact absurd htwo (hstill.2 d List.mem_cons_self hd)

/-- The loop over the candidates. -/
theorem candidatesLoop_spec (hm : m.Ready c) (htrim : Trimmed m t.toEliminator c)
    (hrest : Remaining m t.toEliminator ds) (hsize : v.size = (m.free c).length)
    (hsat : v.satisfied = false) :
  LoopSpec m c ds (t.candidatesLoop c ds v).toEliminator
  := by
  induction ds generalizing t v with
  | nil =>
      refine ⟨fun _ => htrim.reduced, ?_⟩
      intro pre d post hsplit
      cases pre <;> cases hsplit
  | cons d ds ih =>
      by_cases hd : m.Comparable c d
      · obtain ⟨r, hr⟩ : ∃ r, m.matchLoop (m.clause d) (v.behind m c []) = r := ⟨_, rfl⟩
        have hout := outcome hm hsize hsat d
        rw [hr] at hout
        rw [candidatesLoop_compare htrim.agrees hrest hsize hd hr]
        split
        · next hrsat =>
            have htwo := hout.not_meetsTwo_of_satisfied hrsat
            have hmeets := hout.meetsTrue.mp hrsat
            apply loopSpec_of_setsSatisfied hm htrim hrest hd (Or.inl hmeets) htwo _
              (hout.size htwo) hrsat
            obtain ⟨pre, lit, post, hsplit, -, htrue⟩ := hmeets
            refine ⟨lit, ?_, htrue⟩
            rw [hsplit]
            exact List.mem_append_right _ List.mem_cons_self
        · next hrsat =>
            rw [Bool.not_eq_true] at hrsat
            split
            · next hfound =>
                obtain ⟨negated, hall⟩ := (hout.found hrsat).mp hfound
                obtain ⟨-, hneg, hle⟩ := hout.negated hall
                have htwo := hout.not_meetsTwo hall
                have hrsize := hout.size htwo
                cases negated with
                | nil =>
                    rw [hneg]
                    apply LoopSpec.cons (hout.neutral hrsat htwo _)
                    · apply ih _ hrest.markGarbage hrsize hrsat
                      apply htrim.markGarbage hd.ne
                      exact Or.inr (hall.subsumes hm.connected hm.not_satisfied)
                    · intro n hall'
                      have heq := hneg.symm.trans (hout.negated hall').2.1
                      cases heq
                | cons n rest =>
                    obtain rfl : rest = [] :=
                      List.length_eq_zero_iff.mp (by rw [List.length_cons] at hle; omega)
                    have hneutral (hne : m.unitLoop n (m.clause d) .falsified ≠ .satisfied
                        ∧ ∀ unit, m.unitLoop n (m.clause d) .falsified ≠ .unit unit) :
                        Neutral m c d := by
                      apply hout.neutral hrsat htwo
                      intro n' hall'
                      rwa [hout.negated_eq hall' hall]
                    obtain ⟨hn, -, hstr⟩ := hall.strengthens hm.connected hm.not_satisfied
                    have hkept (hne : m.unitLoop n (m.clause d) .falsified ≠ .satisfied
                        ∧ ∀ unit, m.unitLoop n (m.clause d) .falsified ≠ .unit unit) :
                        LoopSpec m c (d :: ds)
                          (if (t.occs n).length ≤ t.opts.elimocclim then
                            ((t.setEliminator ((t.strengthenClause d n).removeOccs n
                              d)).enqueue d).candidatesLoop c ds r
                          else t.candidatesLoop c ds r).toEliminator := by
                      apply LoopSpec.cons (hneutral hne)
                      split
                      · apply ih _ _ hrsize hrsat
                        · rw [enqueue_toEliminator]
                          exact htrim.strengthen hd.ne (hrest.clause d List.mem_cons_self) hn hstr
                        · rw [enqueue_toEliminator]
                          exact hrest.strengthen n
                      · exact ih htrim hrest.tail hrsize hrsat
                    simp only [hneg, List.head?_cons]
                    cases hsearch : m.unitLoop n (m.clause d) .falsified with
                    | satisfied =>
                        apply loopSpec_of_setsSatisfied hm htrim hrest hd _ htwo _ _ _
                        · exact hout.setsSatisfied_iff.mpr (Or.inr ⟨n, hall, hsearch⟩)
                        · obtain ⟨pre, lit, post, hsplit, htrue, -⟩ :=
                            (unitLoop_satisfied_iff _ _).mp hsearch
                          refine ⟨lit, ?_, htrue⟩
                          rw [hsplit]
                          exact List.mem_append_right _ List.mem_cons_self
                        · exact hrsize
                        · rfl
                    | unit unit =>
                        apply loopSpec_of_givesUnit hm htrim hd _ hall hsearch
                        rw [hout.setsSatisfied_iff, hrsat]
                        rintro (hfalse | ⟨n', hall', hsearch'⟩)
                        · cases hfalse
                        · rw [hout.negated_eq hall' hall, hsearch] at hsearch'
                          cases hsearch'
                    | falsified => exact hkept (by simp [hsearch])
                    | several => exact hkept (by simp [hsearch])
            · next hfound =>
                by_cases htwo : m.MeetsTwo c (m.clause d)
                · rw [candidatesLoop_done _ (hout.meetsTwo htwo).2.1]
                  · exact loopSpec_of_meetsTwo htrim hd htwo
                  · intro d' hd'
                    rw [hrest.tail.clause d' hd']
                    exact hm.size_lt d'
                · have hnall : ∀ negated, ¬ m.MeetsAll c (m.clause d) negated :=
                    fun negated hall => hfound ((hout.found hrsat).mpr ⟨negated, hall⟩)
                  apply LoopSpec.cons (hout.neutral hrsat htwo _)
                  · exact ih htrim hrest.tail (hout.size htwo) hrsat
                  · exact fun n hall => absurd hall (hnall [n])
      · rw [candidatesLoop_skip hrest hsize hd]
        apply LoopSpec.cons _ (ih htrim hrest.tail hsize hsat)
        exact ⟨fun h => absurd h hd, fun h => absurd h hd, fun h => absurd h hd⟩

end Backward

end Cadical
