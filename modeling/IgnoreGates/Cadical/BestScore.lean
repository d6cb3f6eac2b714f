import IgnoreGates.Cadical.Scores

/-!
# The variable with the best score

`next_decision_variable_with_best_score` on a heap that is ordered by `score_smaller`, ties
included.  Each auxiliary variable in front gets the score minus one and sinks, each assigned
variable in front is popped, and a variable that is neither is returned.  No auxiliary
variable comes to the front twice: a variable that can be returned has a larger score.
-/

namespace Cadical.Evsids

/-- The first variable is not smaller than the second one. -/
def NotSmaller (stab : Nat → ℚ) (a b : Nat) : Prop :=
  scoreSmaller stab a b = false

theorem notSmaller_iff {stab : Nat → ℚ} {a b : Nat} :
  NotSmaller stab a b ↔ stab b < stab a ∨ stab a = stab b ∧ a ≤ b
  := by
  rw [NotSmaller, scoreSmaller]
  obtain hlt | heq | hgt := lt_trichotomy (stab a) (stab b)
  · simp [hlt, hlt.not_gt, hlt.ne]
  · simp [heq]
  · simp [hgt, hgt.not_gt]

theorem notSmaller_refl (stab : Nat → ℚ) (a : Nat) :
  NotSmaller stab a a
  := notSmaller_iff.mpr (Or.inr ⟨rfl, le_rfl⟩)

/-- The order of the heap with its ties is total. -/
theorem compares_notSmaller (stab : Nat → ℚ) :
  Heap.Compares (scoreSmaller stab) (NotSmaller stab)
  where
    trans := by
      intro a b c hab hbc
      rw [notSmaller_iff] at hab hbc ⊢
      obtain hab | ⟨hab, hle⟩ := hab
      · obtain hbc | ⟨hbc, -⟩ := hbc
        · exact Or.inl (hbc.trans hab)
        · exact Or.inl (hbc ▸ hab)
      · obtain hbc | ⟨hbc, hle'⟩ := hbc
        · exact Or.inl (hab ▸ hbc)
        · exact Or.inr ⟨hab.trans hbc, hle.trans hle'⟩
    of_less := by
      intro a b h
      rw [notSmaller_iff]
      have hnot : ¬ NotSmaller stab a b := by
        rw [NotSmaller, h]
        exact Bool.noConfusion
      rw [notSmaller_iff, not_or, not_lt, not_and, not_le] at hnot
      obtain hlt | heq := lt_or_eq_of_le hnot.1
      · exact Or.inl hlt
      · exact Or.inr ⟨heq.symm, (hnot.2 heq).le⟩
    of_not_less := id

/-- A valid heap: the positions are inverse to the array, the heap is ordered, and only
auxiliary variables have a negative score. -/
structure Valid (isAux : Nat → Bool) (e : Evsids) : Prop where
  wf : e.scores.Wf
  ordered : Heap.Ordered (NotSmaller e.stab) e.scores
  nonneg : ∀ x, e.scores.contains x = true → isAux x = false → 0 ≤ e.stab x

/-- What the search may change: assigned variables that are not auxiliary leave the heap, and
auxiliary variables get the score minus one. -/
structure Kept (assigned isAux : Nat → Bool) (e e' : Evsids) : Prop where
  contains : ∀ x, e'.scores.contains x = true → e.scores.contains x = true
  removed : ∀ x, e.scores.contains x = true → e'.scores.contains x = false →
    assigned x = true ∧ isAux x = false
  stab : ∀ x, e'.stab x = e.stab x ∨ isAux x = true ∧ e'.stab x = -1
  scoreInc : e'.scoreInc = e.scoreInc

variable {assigned isAux : Nat → Bool} {e e' e'' : Evsids}

theorem Kept.refl (assigned isAux : Nat → Bool) (e : Evsids) :
  Kept assigned isAux e e
  where
    contains := fun _ hx => hx
    removed := by
      intro x hx hx'
      rw [hx] at hx'
      cases hx'
    stab := fun _ => Or.inl rfl
    scoreInc := rfl

theorem Kept.trans (h : Kept assigned isAux e e') (h' : Kept assigned isAux e' e'') :
  Kept assigned isAux e e''
  where
    contains := fun x hx => h.contains x (h'.contains x hx)
    removed := by
      intro x hx hx''
      cases hx' : e'.scores.contains x with
      | false => exact h.removed x hx hx'
      | true => exact h'.removed x hx' hx''
    stab := by
      intro x
      obtain heq' | haux' := h'.stab x
      · rw [heq']
        exact h.stab x
      · exact Or.inr haux'
    scoreInc := h'.scoreInc.trans h.scoreInc

/-- The scores of the other variables are kept. -/
theorem Kept.stab_eq (h : Kept assigned isAux e e') {x : Nat} (hx : isAux x = false) :
  e'.stab x = e.stab x
  := by
  obtain heq | ⟨haux, -⟩ := h.stab x
  · exact heq
  · rw [hx] at haux
    cases haux

/-- Variables that can be returned stay in the heap. -/
theorem Kept.contains_of_unassigned (h : Kept assigned isAux e e') {x : Nat}
    (hx : e.scores.contains x = true) (hun : assigned x = false) :
  e'.scores.contains x = true
  := by
  cases hx' : e'.scores.contains x with
  | true => rfl
  | false =>
      have hassigned := (h.removed x hx hx').1
      rw [hun] at hassigned
      cases hassigned

/-! ### The steps of the search -/

/-- The state after the auxiliary variable `x` has got the score minus one. -/
def settle (e : Evsids) (x : Nat) : Evsids :=
  { e with
    stab := Function.update e.stab x (-1)
    scores := e.scores.update (scoreSmaller (Function.update e.stab x (-1))) x }

/-- The state after the variable in front has been popped. -/
def pop (e : Evsids) : Evsids :=
  { e with scores := e.scores.popFront e.less }

/-- The score of an auxiliary variable of the heap is lowered. -/
theorem Valid.settle (assigned : Nat → Bool) (h : e.Valid isAux) {x : Nat}
    (hx : e.scores.contains x = true)
    (haux : isAux x = true) :
  (e.settle x).Valid isAux ∧ e.scores.SameElements (e.settle x).scores
    ∧ Kept assigned isAux e (e.settle x)
  := by
  obtain ⟨i, hi, hself⟩ := h.wf.contains_iff.mp hx
  have hother : ∀ a, a ≠ x → Function.update e.stab x (-1) a = e.stab a :=
    fun a ha => Function.update_of_ne ha _ _
  have hexcept : Heap.OrderedExcept (NotSmaller (Function.update e.stab x (-1))) e.scores i := by
    apply h.ordered.except (compares_notSmaller e.stab) h.wf hi
    intro a b ha hb hab
    rw [hself] at ha hb
    rw [notSmaller_iff, hother a ha, hother b hb]
    exact notSmaller_iff.mp hab
  have hupdate :=
    Heap.update_spec (compares_notSmaller (Function.update e.stab x (-1))) h.wf hi hexcept
  rw [hself] at hupdate
  obtain ⟨hwf, hsame, hordered⟩ := hupdate
  have hne : ∀ y, isAux y = false → y ≠ x := by
    rintro y hy rfl
    rw [haux] at hy
    cases hy
  refine ⟨⟨hwf, hordered, ?_⟩, hsame, ⟨?_, ?_, ?_, rfl⟩⟩
  · intro y hy hnot
    show 0 ≤ Function.update e.stab x (-1) y
    rw [hother y (hne y hnot)]
    exact h.nonneg y ((hsame.contains y).symm.trans hy) hnot
  · intro y hy
    exact (hsame.contains y).symm.trans hy
  · intro y hy hy'
    have hcontains := hsame.contains y
    rw [hy] at hcontains
    exact absurd (hcontains.symm.trans hy') Bool.noConfusion
  · intro y
    by_cases hyx : y = x
    · right
      rw [hyx]
      exact ⟨haux, Function.update_self _ _ _⟩
    · left
      exact hother y hyx

/-- The variable in front is popped. -/
theorem Valid.pop (h : e.Valid isAux) (hpos : 0 < e.scores.size)
    (hassigned : assigned e.scores.front = true) (hnot : isAux e.scores.front = false) :
  e.pop.Valid isAux ∧ e.pop.scores.size = e.scores.size - 1
    ∧ (∀ x, e.pop.scores.contains x = true ↔ e.scores.contains x = true ∧ x ≠ e.scores.front)
    ∧ Kept assigned isAux e e.pop
  := by
  obtain ⟨hwf, hsize, hcontains, hordered⟩ :=
    Heap.popFront_spec (compares_notSmaller e.stab) h.wf h.ordered hpos
  refine ⟨⟨hwf, hordered, ?_⟩, hsize, hcontains, ⟨?_, ?_, fun _ => Or.inl rfl, rfl⟩⟩
  · intro x hx
    exact h.nonneg x ((hcontains x).mp hx).1
  · intro x hx
    exact ((hcontains x).mp hx).1
  · intro x hx hx'
    have hfront : x = e.scores.front := by
      by_contra hne
      have hstill := (hcontains x).mpr ⟨hx, hne⟩
      exact absurd (hstill.symm.trans hx') Bool.noConfusion
    rw [hfront]
    exact ⟨hassigned, hnot⟩

/-! ### Termination -/

/-- The auxiliary variables of the heap whose score is not minus one. -/
def unsettledIn (isAux : Nat → Bool) (e : Evsids) : Finset Nat :=
  ((Finset.range e.scores.size).image e.scores.array).filter
    (fun x => isAux x = true ∧ e.stab x ≠ -1)

theorem Valid.mem_unsettledIn (h : e.Valid isAux) {x : Nat} :
  x ∈ unsettledIn isAux e ↔ e.scores.contains x = true ∧ isAux x = true ∧ e.stab x ≠ -1
  := by
  rw [unsettledIn, Finset.mem_filter, Finset.mem_image, h.wf.contains_iff]
  simp only [Finset.mem_range]

theorem Valid.settle_card (h : e.Valid isAux) {x : Nat} (hx : e.scores.contains x = true)
    (haux : isAux x = true) (hscore : e.stab x ≠ -1) :
  (unsettledIn isAux (e.settle x)).card < (unsettledIn isAux e).card
  := by
  obtain ⟨h', hsame, -⟩ := h.settle (fun _ => false) hx haux
  apply Finset.card_lt_card
  apply (Finset.ssubset_iff_of_subset _).mpr
  · use x
    rw [h.mem_unsettledIn, h'.mem_unsettledIn]
    refine ⟨⟨hx, haux, hscore⟩, ?_⟩
    rintro ⟨-, -, hne⟩
    exact hne (Function.update_self _ _ _)
  · intro y hy
    obtain ⟨hcontains, hyaux, hne⟩ := h'.mem_unsettledIn.mp hy
    apply h.mem_unsettledIn.mpr
    refine ⟨(hsame.contains y).symm.trans hcontains, hyaux, ?_⟩
    have hyx : y ≠ x := by
      rintro rfl
      exact hne (Function.update_self _ _ _)
    have hstab : (e.settle x).stab y = e.stab y := Function.update_of_ne hyx _ _
    rwa [hstab] at hne

theorem Valid.pop_card (h : e.Valid isAux) (h' : e.pop.Valid isAux)
    (hcontains : ∀ x, e.pop.scores.contains x = true → e.scores.contains x = true) :
  (unsettledIn isAux e.pop).card ≤ (unsettledIn isAux e).card
  := by
  apply Finset.card_le_card
  intro x hx
  obtain ⟨hin, haux, hne⟩ := h'.mem_unsettledIn.mp hx
  exact h.mem_unsettledIn.mpr ⟨hcontains x hin, haux, hne⟩

/-- An auxiliary variable in front of a variable with a non-negative score does not have the
score minus one. -/
theorem Valid.front_ne (h : e.Valid isAux) {y : Nat} (hy : e.scores.contains y = true)
    (hnot : isAux y = false) :
  e.stab e.scores.front ≠ -1
  := by
  intro heq
  obtain ⟨k, hk, rfl⟩ := h.wf.contains_iff.mp hy
  have hfront := h.ordered.front (compares_notSmaller e.stab) (notSmaller_refl e.stab) k hk
  have hnonneg := h.nonneg _ hy hnot
  rw [notSmaller_iff, heq] at hfront
  obtain hlt | ⟨heq', -⟩ := hfront
  · linarith
  · linarith

/-- The search ends at a variable in front that is neither assigned nor auxiliary. -/
theorem Valid.search (h : e.Valid isAux)
    (hex : ∃ y, e.scores.contains y = true ∧ assigned y = false ∧ isAux y = false) {n : Nat}
    (hn : e.scores.size + (unsettledIn isAux e).card < n) :
  ∃ e', nextDecisionVariableWithBestScore assigned isAux n e = some (e'.scores.front, e')
    ∧ e'.Valid isAux ∧ Kept assigned isAux e e' ∧ 0 < e'.scores.size
    ∧ assigned e'.scores.front = false ∧ isAux e'.scores.front = false
  := by
  induction n generalizing e with
  | zero => exact absurd hn (Nat.not_lt_zero _)
  | succ n ih =>
      obtain ⟨y, hy, hyun, hyaux⟩ := hex
      have hpos : 0 < e.scores.size := by
        obtain ⟨k, hk, -⟩ := h.wf.contains_iff.mp hy
        omega
      have hfront : e.scores.contains e.scores.front = true := h.wf.contains_array hpos
      rw [nextDecisionVariableWithBestScore, if_neg hpos.ne']
      simp only
      split
      · next hstop => exact ⟨e, rfl, h, Kept.refl _ _ _, hpos, hstop.1, hstop.2⟩
      · next hgo =>
          split
          · next haux =>
              obtain ⟨h', hsame, hkept⟩ := h.settle assigned hfront haux
              have hcard := h.settle_card hfront haux (h.front_ne hy hyaux)
              have hsize := hsame.size
              obtain ⟨e', heq, hvalid, hkept', hrest⟩ :=
                ih h' ⟨y, hkept.contains_of_unassigned hy hyun, hyun, hyaux⟩ (by omega)
              exact ⟨e', heq, hvalid, hkept.trans hkept', hrest⟩
          · next hnot =>
              rw [Bool.not_eq_true] at hnot
              have hassigned : assigned e.scores.front = true := by
                by_contra hun
                exact hgo ⟨by simpa using hun, hnot⟩
              obtain ⟨h', hsize, hcontains, hkept⟩ := h.pop hpos hassigned hnot
              have hcard := h.pop_card h' (fun x hx => ((hcontains x).mp hx).1)
              obtain ⟨e', heq, hvalid, hkept', hrest⟩ :=
                ih h' ⟨y, hkept.contains_of_unassigned hy hyun, hyun, hyaux⟩ (by omega)
              exact ⟨e', heq, hvalid, hkept.trans hkept', hrest⟩

/-! ### The variable that is returned -/

/-- On a valid heap with a variable that is neither assigned nor auxiliary the search ends and
returns such a variable, which is maximal among those; the heap stays valid, only assigned
variables that are not auxiliary leave it, and only scores of auxiliary variables change. -/
theorem nextDecisionVariable_best (assigned isAux : Nat → Bool) (e : Evsids)
    (h : e.Valid isAux)
    (hex : ∃ y, e.scores.contains y = true ∧ assigned y = false ∧ isAux y = false) :
  ∃ res e' N,
    (∀ n, N ≤ n → nextDecisionVariableWithBestScore assigned isAux n e = some (res, e'))
    ∧ e.scores.contains res = true ∧ assigned res = false ∧ isAux res = false
    ∧ (∀ y, e.scores.contains y = true → assigned y = false → isAux y = false →
      scoreSmaller e.stab res y = false)
    ∧ e'.Valid isAux ∧ Kept assigned isAux e e'
  := by
  obtain ⟨e', heq, hvalid, hkept, hpos, hun, hnot⟩ :=
    h.search hex (Nat.lt_succ_self (e.scores.size + (unsettledIn isAux e).card))
  have hfront := hvalid.wf.contains_array hpos
  refine ⟨_, e', _, fun n hn => nextDecisionVariableWithBestScore_mono hn heq,
    hkept.contains _ hfront, hun, hnot, ?_, hvalid, hkept⟩
  intro y hy hyun hyaux
  obtain ⟨k, hk, rfl⟩ := hvalid.wf.contains_iff.mp (hkept.contains_of_unassigned hy hyun)
  have hmax := hvalid.ordered.front (compares_notSmaller e'.stab) (notSmaller_refl e'.stab) k hk
  rw [notSmaller_iff, hkept.stab_eq hnot, hkept.stab_eq hyaux] at hmax
  exact notSmaller_iff.mpr hmax

/-- A variable is pushed. -/
theorem Valid.pushBack (h : e.Valid isAux) (idx : Nat) (hidx : e.scores.contains idx = false)
    (hscore : isAux idx = false → 0 ≤ e.stab idx) :
  (e.pushBack idx).Valid isAux
    ∧ ∀ x, (e.pushBack idx).scores.contains x = true ↔ x = idx ∨ e.scores.contains x = true
  := by
  obtain ⟨hwf, -, hcontains, hordered⟩ :=
    Heap.pushBack_spec (compares_notSmaller e.stab) h.wf h.ordered hidx
  refine ⟨⟨hwf, hordered, ?_⟩, hcontains⟩
  intro x hx hnot
  obtain rfl | hx := (hcontains x).mp hx
  · exact hscore hnot
  · exact h.nonneg x hx hnot

/-- The heap with the auxiliary variable 1 in front and the variable 2: the variable 2 is
returned. -/
theorem nextDecisionVariable_best_two :
  ∃ e' N, ∀ n, N ≤ n → nextDecisionVariableWithBestScore (fun _ => false) (· == 1) n
    ((init.pushBack 1).pushBack 2) = some (2, e')
  := by
  have hinit : init.Valid (· == 1) :=
    ⟨Heap.wf_empty, Heap.ordered_empty, fun _ _ _ => le_rfl⟩
  obtain ⟨h₁, hcontains₁⟩ := hinit.pushBack 1 rfl (fun _ => le_rfl)
  obtain ⟨h₂, hcontains₂⟩ := h₁.pushBack 2 rfl (fun _ => le_rfl)
  obtain ⟨res, e', N, hres, hin, -, hnot, -⟩ :=
    nextDecisionVariable_best (fun _ => false) (· == 1) ((init.pushBack 1).pushBack 2) h₂
      ⟨2, (hcontains₂ 2).mpr (Or.inl rfl), rfl, rfl⟩
  obtain rfl : res = 2 := by
    obtain heq | hin := (hcontains₂ res).mp hin
    · exact heq
    · obtain rfl | hin := (hcontains₁ res).mp hin
      · cases hnot
      · cases hin
  exact ⟨e', N, hres⟩

end Cadical.Evsids
