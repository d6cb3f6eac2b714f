import Mathlib.Algebra.Order.Field.Rat
import Mathlib.Algebra.Order.Field.Basic
import Mathlib.Data.Finset.Card
import Mathlib.Data.Finset.Range
import Mathlib.Tactic.Linarith
import IgnoreGates.Cadical.Heap

/-!
# The scores of the variables

The heap of the variables in the order of their scores `stab`.  With `BRANCHAUX`, the search
for the next decision sets the score of the auxiliary variables that come to the front to
minus one.
-/

namespace Cadical

/-- The scores, with the heap and the current score increment. -/
structure Evsids where
  scores : Heap
  stab : Nat → ℚ
  scoreInc : ℚ

/-- `score_smaller`. -/
def scoreSmaller (stab : Nat → ℚ) (a b : Nat) : Bool :=
  if stab a < stab b then true else if stab b < stab a then false else b < a

/-- `evsids_limit_hit`. -/
def evsidsLimitHit (score : ℚ) : Bool :=
  (10 : ℚ) ^ 150 < score

namespace Evsids

/-- The scores without variables. -/
def init : Evsids where
  scores := Heap.empty
  stab := fun _ => 0
  scoreInc := 1

section Operations

variable (e : Evsids)

/-- The comparison of the heap. -/
def less : Nat → Nat → Bool :=
  scoreSmaller e.stab

def pushBack (idx : Nat) : Evsids :=
  { e with scores := e.scores.pushBack e.less idx }

/-- The part of `unassign` about the scores. -/
def unassign (idx : Nat) : Evsids :=
  if e.scores.contains idx then e else e.pushBack idx

/-- `init_scores` for the variables behind `old_max_var`. -/
def initScores (oldMaxVar newMaxVar : Nat) : Evsids :=
  (List.range' (oldMaxVar + 1) (newMaxVar - oldMaxVar)).foldl pushBack e

/-- The variables `1`, …, `max_var`. -/
def vars (maxVar : Nat) : List Nat :=
  List.range' 1 maxVar

def rescaleVariableScores (maxVar : Nat) : Evsids :=
  let divider := (vars maxVar).foldl (fun divider idx => max divider (e.stab idx)) e.scoreInc
  let factor := 1 / divider
  { e with
    stab := fun idx => if 1 ≤ idx ∧ idx ≤ maxVar then e.stab idx * factor else e.stab idx
    scoreInc := e.scoreInc * factor }

def bumpVariableScore (maxVar idx : Nat) : Evsids :=
  let e := if evsidsLimitHit (e.stab idx + e.scoreInc) then e.rescaleVariableScores maxVar
    else e
  let e := { e with stab := Function.update e.stab idx (e.stab idx + e.scoreInc) }
  if e.scores.contains idx then { e with scores := e.scores.update e.less idx } else e

/-- `bump_variable_score_inc`, where `scorefactor` is the option of this name. -/
def bumpVariableScoreInc (scorefactor : ℚ) (maxVar : Nat) : Evsids :=
  let f := 1000 / scorefactor
  let e := if evsidsLimitHit (e.scoreInc * f) then e.rescaleVariableScores maxVar else e
  { e with scoreInc := e.scoreInc * f }

/-- The last loop of `shuffle_scores`. -/
def pushShuffled (idx : Nat) : Evsids :=
  pushBack { e with stab := Function.update e.stab idx e.scoreInc, scoreInc := e.scoreInc + 1 } idx

/-- `shuffle_scores`, where `shuffle` is the order in which the variables are pushed. -/
def shuffleScores (shuffle : List Nat) : Evsids :=
  shuffle.foldl pushShuffled { e with scores := Heap.empty, scoreInc := 0 }

/-- `next_decision_variable_with_best_score`, for a bounded number of iterations of its loop.
There is no result when the heap becomes empty, where the program is aborted. -/
def nextDecisionVariableWithBestScore (assigned isAux : Nat → Bool) :
    Nat → Evsids → Option (Nat × Evsids)
  | 0, _ => none
  | n + 1, e =>
      if e.scores.size = 0 then none
      else
        let res := e.scores.front
        if assigned res = false ∧ isAux res = false then some (res, e)
        else if isAux res then
          let e := { e with stab := Function.update e.stab res (-1) }
          nextDecisionVariableWithBestScore assigned isAux n
            { e with scores := e.scores.update e.less res }
        else
          nextDecisionVariableWithBestScore assigned isAux n
            { e with scores := e.scores.popFront e.less }

end Operations

/-! ### The invariant -/

/-- The first variable has at least the score of the second one. -/
def Above (stab : Nat → ℚ) (a b : Nat) : Prop :=
  stab b ≤ stab a

theorem compares (stab : Nat → ℚ) :
  Heap.Compares (scoreSmaller stab) (Above stab)
  where
    trans := fun hab hbc => le_trans hbc hab
    of_less := by
      intro a b h
      rw [scoreSmaller] at h
      split at h
      · next hlt => exact le_of_lt hlt
      · split at h
        · cases h
        · next hnlt => exact not_lt.mp hnlt
    of_not_less := by
      intro a b h
      rw [scoreSmaller] at h
      split at h
      · cases h
      · next hnlt => exact not_lt.mp hnlt

/-- The heap has the unassigned variables, and only auxiliary variables have a negative
score. -/
structure Inv (assigned isAux : Nat → Bool) (maxVar : Nat) (e : Evsids) : Prop where
  wf : e.scores.Wf
  ordered : Heap.Ordered (Above e.stab) e.scores
  range : ∀ x, e.scores.contains x = true → 1 ≤ x ∧ x ≤ maxVar
  cover : ∀ x, 1 ≤ x → x ≤ maxVar → assigned x = false → e.scores.contains x = true
  nonneg : ∀ x, 1 ≤ x → x ≤ maxVar → isAux x = false → 0 ≤ e.stab x
  fresh : ∀ x, maxVar < x → e.stab x = 0
  scoreInc_nonneg : 0 ≤ e.scoreInc

namespace Inv

variable {assigned isAux : Nat → Bool} {maxVar idx : Nat} {e : Evsids}

theorem init (assigned isAux : Nat → Bool) :
  Evsids.init.Inv assigned isAux 0
  where
    wf := Heap.wf_empty
    ordered := Heap.ordered_empty
    range := fun _ hx => by cases hx
    cover := fun _ hpos hle => absurd hpos (by omega)
    nonneg := fun _ _ _ _ => le_rfl
    fresh := fun _ _ => rfl
    scoreInc_nonneg := zero_le_one

/-- Variables may become assigned. -/
theorem mono (h : e.Inv assigned isAux maxVar) {assigned' : Nat → Bool}
    (hassigned : ∀ x, assigned' x = false → assigned x = false) :
  e.Inv assigned' isAux maxVar
  := { h with cover := fun x hpos hle hun => h.cover x hpos hle (hassigned x hun) }

/-- Pushing a variable. -/
theorem pushBack (h : e.Inv assigned isAux maxVar) (hpos : 1 ≤ idx) (hle : idx ≤ maxVar)
    (hidx : e.scores.contains idx = false) {assigned' : Nat → Bool}
    (hassigned : ∀ x, x ≠ idx → assigned' x = false → assigned x = false) :
  (e.pushBack idx).Inv assigned' isAux maxVar
    ∧ ∀ x, (e.pushBack idx).scores.contains x = true ↔ x = idx ∨ e.scores.contains x = true
  := by
  obtain ⟨hwf, -, hcontains, hordered⟩ :=
    Heap.pushBack_spec (compares e.stab) h.wf h.ordered hidx
  refine ⟨⟨hwf, hordered, ?_, ?_, h.nonneg, h.fresh, h.scoreInc_nonneg⟩, hcontains⟩
  · intro x hx
    obtain rfl | hx := (hcontains x).mp hx
    · exact ⟨hpos, hle⟩
    · exact h.range x hx
  · intro x hxpos hxle hun
    apply (hcontains x).mpr
    by_cases heq : x = idx
    · exact Or.inl heq
    · exact Or.inr (h.cover x hxpos hxle (hassigned x heq hun))

theorem unassign (h : e.Inv assigned isAux maxVar) (hpos : 1 ≤ idx) (hle : idx ≤ maxVar) :
  (e.unassign idx).Inv (Function.update assigned idx false) isAux maxVar
  := by
  have hother : ∀ x, x ≠ idx → Function.update assigned idx false x = false → assigned x = false := by
    intro x hne hun
    rwa [Function.update_of_ne hne] at hun
  rw [Evsids.unassign]
  split
  · next hcontains =>
      refine { h with cover := ?_ }
      intro x hxpos hxle hun
      by_cases heq : x = idx
      · rw [heq]
        exact hcontains
      · exact h.cover x hxpos hxle (hother x heq hun)
  · next hcontains => exact (h.pushBack hpos hle (by simpa using hcontains) hother).1

theorem foldl_pushBack_eq (idxs : List Nat) (e : Evsids) :
  idxs.foldl Evsids.pushBack e
    = { e with scores := idxs.foldl (Heap.pushBack (scoreSmaller e.stab)) e.scores }
  := by
  induction idxs generalizing e with
  | nil => rfl
  | cons a idxs ih => exact ih (e.pushBack a)

/-- The new variables are pushed. -/
theorem initScores {oldMaxVar newMaxVar : Nat} (h : e.Inv assigned isAux oldMaxVar)
    (hle : oldMaxVar ≤ newMaxVar) {isAux' : Nat → Bool}
    (haux : ∀ x, x ≤ oldMaxVar → isAux' x = isAux x) :
  (e.initScores oldMaxVar newMaxVar).Inv assigned isAux' newMaxVar
  := by
  have hmem : ∀ x, x ∈ List.range' (oldMaxVar + 1) (newMaxVar - oldMaxVar)
      ↔ oldMaxVar < x ∧ x ≤ newMaxVar := by
    intro x
    rw [List.mem_range'_1]
    omega
  obtain ⟨hwf, hcontains, hordered⟩ := Heap.foldl_pushBack_spec (compares e.stab)
    (List.range' (oldMaxVar + 1) (newMaxVar - oldMaxVar)) h.wf h.ordered List.nodup_range' (by
      intro x hx
      rw [← Bool.not_eq_true]
      intro hx'
      have hrange := h.range x hx'
      have hnew := (hmem x).mp hx
      omega)
  rw [Evsids.initScores, foldl_pushBack_eq]
  refine ⟨hwf, hordered, ?_, ?_, ?_, fun x hx => h.fresh x (by omega), h.scoreInc_nonneg⟩
  · intro x hx
    obtain hx | hx := (hcontains x).mp hx
    · have hrange := h.range x hx
      omega
    · have hnew := (hmem x).mp hx
      omega
  · intro x hxpos hxle hun
    apply (hcontains x).mpr
    by_cases hxold : x ≤ oldMaxVar
    · exact Or.inl (h.cover x hxpos hxold hun)
    · exact Or.inr ((hmem x).mpr ⟨by omega, hxle⟩)
  · intro x hpos hx hnot
    by_cases hxold : x ≤ oldMaxVar
    · exact h.nonneg x hpos hxold ((haux x hxold).symm.trans hnot)
    · exact le_of_eq (h.fresh x (by omega)).symm

/-! ### Changing scores -/

theorem le_foldl_max (stab : Nat → ℚ) (idxs : List Nat) (divider : ℚ) :
  divider ≤ idxs.foldl (fun divider idx => max divider (stab idx)) divider
  := by
  induction idxs generalizing divider with
  | nil => exact le_rfl
  | cons a idxs ih => exact le_trans (le_max_left _ _) (ih _)

theorem rescaleVariableScores (h : e.Inv assigned isAux maxVar) :
  (e.rescaleVariableScores maxVar).Inv assigned isAux maxVar
  := by
  rw [Evsids.rescaleVariableScores]
  have hfactor : 0 ≤ 1 / (vars maxVar).foldl (fun divider idx => max divider (e.stab idx))
      e.scoreInc :=
    div_nonneg zero_le_one (le_trans h.scoreInc_nonneg (le_foldl_max _ _ _))
  revert hfactor
  generalize 1 / (vars maxVar).foldl (fun divider idx => max divider (e.stab idx)) e.scoreInc
    = factor
  intro hfactor
  refine ⟨h.wf, ?_, h.range, h.cover, ?_, ?_, mul_nonneg h.scoreInc_nonneg hfactor⟩
  · refine h.ordered.mono h.wf ?_
    intro a b ha hb hab
    change (if _ then _ else _) ≤ (if _ then _ else _)
    rw [if_pos (h.range a ha), if_pos (h.range b hb)]
    exact mul_le_mul_of_nonneg_right hab hfactor
  · intro x hpos hx hnot
    change (0 : ℚ) ≤ (if _ then _ else _)
    rw [if_pos ⟨hpos, hx⟩]
    exact mul_nonneg (h.nonneg x hpos hx hnot) hfactor
  · intro x hx
    change (if _ then _ else _) = _
    rw [if_neg (by omega)]
    exact h.fresh x hx

/-- The score of a variable outside the heap may change. -/
theorem setScore (h : e.Inv assigned isAux maxVar) (hle : idx ≤ maxVar)
    (hidx : e.scores.contains idx = false) {score : ℚ} (hscore : isAux idx = false → 0 ≤ score) :
  Inv assigned isAux maxVar { e with stab := Function.update e.stab idx score }
  := by
  refine ⟨h.wf, ?_, h.range, h.cover, ?_, ?_, h.scoreInc_nonneg⟩
  · refine h.ordered.mono h.wf ?_
    intro a b ha hb hab
    have hne : ∀ c, e.scores.contains c = true → c ≠ idx := by
      rintro c hc rfl
      rw [hidx] at hc
      cases hc
    change Function.update e.stab idx score b ≤ Function.update e.stab idx score a
    rw [Function.update_of_ne (hne a ha), Function.update_of_ne (hne b hb)]
    exact hab
  · intro x hpos hx hnot
    change 0 ≤ Function.update e.stab idx score x
    by_cases heq : x = idx
    · rw [heq, Function.update_self]
      exact hscore (heq ▸ hnot)
    · rw [Function.update_of_ne heq]
      exact h.nonneg x hpos hx hnot
  · intro x hx
    change Function.update e.stab idx score x = 0
    rw [Function.update_of_ne (by omega)]
    exact h.fresh x hx

/-- The score of a variable of the heap may change, if the heap is updated. -/
theorem updateScore (h : e.Inv assigned isAux maxVar)
    (hidx : e.scores.contains idx = true) {score : ℚ} (hscore : isAux idx = false → 0 ≤ score) :
  Inv assigned isAux maxVar { e with
      stab := Function.update e.stab idx score
      scores := e.scores.update (scoreSmaller (Function.update e.stab idx score)) idx }
    ∧ e.scores.SameElements
      (e.scores.update (scoreSmaller (Function.update e.stab idx score)) idx)
  := by
  obtain ⟨hpos, hle⟩ := h.range idx hidx
  obtain ⟨i, hi, hself⟩ := h.wf.contains_iff.mp hidx
  have hexcept : Heap.OrderedExcept (Above (Function.update e.stab idx score)) e.scores i := by
    apply h.ordered.except (compares e.stab) h.wf hi
    intro a b ha hb hab
    rw [hself] at ha hb
    rw [Above, Function.update_of_ne ha, Function.update_of_ne hb]
    exact hab
  have hupdate := Heap.update_spec (compares (Function.update e.stab idx score)) h.wf hi hexcept
  rw [hself] at hupdate
  obtain ⟨hwf, hsame, hordered⟩ := hupdate
  refine ⟨⟨hwf, hordered, ?_, ?_, ?_, ?_, h.scoreInc_nonneg⟩, hsame⟩
  · intro x hx
    rw [hsame.contains x] at hx
    exact h.range x hx
  · intro x hxpos hxle hun
    rw [hsame.contains x]
    exact h.cover x hxpos hxle hun
  · intro x hpos hx hnot
    change 0 ≤ Function.update e.stab idx score x
    by_cases heq : x = idx
    · rw [heq, Function.update_self]
      exact hscore (heq ▸ hnot)
    · rw [Function.update_of_ne heq]
      exact h.nonneg x hpos hx hnot
  · intro x hx
    change Function.update e.stab idx score x = 0
    rw [Function.update_of_ne (by omega)]
    exact h.fresh x hx

theorem bumpVariableScore (h : e.Inv assigned isAux maxVar) (hpos : 1 ≤ idx)
    (hle : idx ≤ maxVar) (hnot : isAux idx = false) :
  (e.bumpVariableScore maxVar idx).Inv assigned isAux maxVar
  := by
  have hrescale : Inv assigned isAux maxVar
      (if evsidsLimitHit (e.stab idx + e.scoreInc) then e.rescaleVariableScores maxVar
        else e) := by
    split
    · exact h.rescaleVariableScores
    · exact h
  rw [Evsids.bumpVariableScore]
  revert hrescale
  generalize (if evsidsLimitHit (e.stab idx + e.scoreInc) then
    e.rescaleVariableScores maxVar else e) = e'
  intro h'
  have hscore : isAux idx = false → 0 ≤ e'.stab idx + e'.scoreInc :=
    fun _ => add_nonneg (h'.nonneg idx hpos hle hnot) h'.scoreInc_nonneg
  simp only
  split
  · next hcontains => exact (h'.updateScore hcontains hscore).1
  · next hcontains => exact h'.setScore hle (by simpa using hcontains) hscore

theorem bumpVariableScoreInc (h : e.Inv assigned isAux maxVar) {scorefactor : ℚ}
    (hpos : 0 ≤ scorefactor) :
  (e.bumpVariableScoreInc scorefactor maxVar).Inv assigned isAux maxVar
  := by
  have hrescale : Inv assigned isAux maxVar
      (if evsidsLimitHit (e.scoreInc * (1000 / scorefactor)) then
        e.rescaleVariableScores maxVar else e) := by
    split
    · exact h.rescaleVariableScores
    · exact h
  rw [Evsids.bumpVariableScoreInc]
  exact { hrescale with
    scoreInc_nonneg := mul_nonneg hrescale.scoreInc_nonneg (div_nonneg (by norm_num) hpos) }

/-! ### Shuffling -/

theorem pushShuffled (h : e.Inv assigned isAux maxVar) (hpos : 1 ≤ idx) (hle : idx ≤ maxVar)
    (hidx : e.scores.contains idx = false) {assigned' : Nat → Bool}
    (hassigned : ∀ x, x ≠ idx → assigned' x = false → assigned x = false) :
  (e.pushShuffled idx).Inv assigned' isAux maxVar
    ∧ ∀ x, (e.pushShuffled idx).scores.contains x = true ↔ x = idx ∨ e.scores.contains x = true
  := by
  have hset := h.setScore hle hidx (fun _ => h.scoreInc_nonneg)
  have hinc : Inv assigned isAux maxVar { e with
      stab := Function.update e.stab idx e.scoreInc, scoreInc := e.scoreInc + 1 } :=
    { hset with scoreInc_nonneg := add_nonneg h.scoreInc_nonneg zero_le_one }
  exact hinc.pushBack hpos hle hidx hassigned

/-- `shuffle_scores` keeps the invariant, if all unassigned variables are pushed. -/
theorem shuffleScores (h : e.Inv assigned isAux maxVar) {shuffle : List Nat}
    (hnodup : shuffle.Nodup) (hrange : ∀ x ∈ shuffle, 1 ≤ x ∧ x ≤ maxVar)
    (hcover : ∀ x, 1 ≤ x → x ≤ maxVar → assigned x = false → x ∈ shuffle) :
  (e.shuffleScores shuffle).Inv assigned isAux maxVar
  := by
  -- The variables outside `pushed` count as assigned until they are pushed.
  have hfold : ∀ (idxs pushed : List Nat) (e : Evsids),
      (∀ x, e.scores.contains x = true ↔ x ∈ pushed) →
      e.Inv (fun x => decide (x ∉ pushed)) isAux maxVar →
      (∀ x ∈ idxs, (1 ≤ x ∧ x ≤ maxVar) ∧ x ∉ pushed) → idxs.Nodup →
      (idxs.foldl Evsids.pushShuffled e).Inv (fun x => decide (x ∉ pushed ++ idxs)) isAux
        maxVar := by
    intro idxs
    induction idxs with
    | nil =>
        intro pushed e _ h _ _
        simpa using h
    | cons a idxs ih =>
        intro pushed e hpushed h hnew hnodup
        obtain ⟨ha, hnodup⟩ := List.nodup_cons.mp hnodup
        obtain ⟨⟨hpos, hle⟩, hanew⟩ := hnew a List.mem_cons_self
        have hother : ∀ x, x ≠ a → decide (x ∉ pushed ++ [a]) = false →
            decide (x ∉ pushed) = false := by
          intro x hne hx
          simpa [hne] using hx
        obtain ⟨h', hcontains⟩ := h.pushShuffled hpos hle (by
          rw [← Bool.not_eq_true, hpushed]
          exact hanew) hother
        have hrest := ih (pushed ++ [a]) (e.pushShuffled a) (by
          intro x
          rw [hcontains, hpushed, List.mem_append, List.mem_singleton, or_comm]) h' (by
          intro x hx
          obtain ⟨hrange, hxnew⟩ := hnew x (List.mem_cons_of_mem a hx)
          refine ⟨hrange, ?_⟩
          rw [List.mem_append, List.mem_singleton, not_or]
          exact ⟨hxnew, ne_of_mem_of_not_mem hx ha⟩) hnodup
        rwa [List.append_assoc, List.singleton_append] at hrest
  have hstart : Inv (fun x => decide (x ∉ ([] : List Nat))) isAux maxVar
      { e with scores := Heap.empty, scoreInc := 0 } :=
    { h with
      wf := Heap.wf_empty
      ordered := Heap.ordered_empty
      range := fun _ hx => by cases hx
      cover := fun _ _ _ hx => by simp at hx
      scoreInc_nonneg := le_rfl }
  have hall := hfold shuffle [] _ (by
    intro x
    constructor
    · intro hx
      cases hx
    · intro hx
      cases hx) hstart (fun x hx => ⟨hrange x hx, List.not_mem_nil⟩) hnodup
  rw [List.nil_append] at hall
  refine { hall with cover := ?_ }
  intro x hpos hle hun
  exact hall.cover x hpos hle (by simpa using hcover x hpos hle hun)

/-! ### The next decision variable -/

/-- Removing the assigned variable in front. -/
theorem popFront (h : e.Inv assigned isAux maxVar) (hpos : 0 < e.scores.size)
    (hassigned : assigned e.scores.front = true) :
  Inv assigned isAux maxVar { e with scores := e.scores.popFront e.less }
    ∧ (e.scores.popFront e.less).size = e.scores.size - 1
  := by
  obtain ⟨hwf, hsize, hcontains, hordered⟩ :=
    Heap.popFront_spec (compares e.stab) h.wf h.ordered hpos
  refine ⟨⟨hwf, hordered, ?_, ?_, h.nonneg, h.fresh, h.scoreInc_nonneg⟩, hsize⟩
  · intro x hx
    exact h.range x ((hcontains x).mp hx).1
  · intro x hxpos hxle hun
    apply (hcontains x).mpr
    refine ⟨h.cover x hxpos hxle hun, ?_⟩
    rintro rfl
    rw [hassigned] at hun
    cases hun

/-- The auxiliary variables whose score is not minus one. -/
def unsettled (isAux : Nat → Bool) (maxVar : Nat) (e : Evsids) : Finset Nat :=
  (Finset.range (maxVar + 1)).filter (fun x => isAux x = true ∧ e.stab x ≠ -1)

/-- If some variable is neither assigned nor auxiliary, such a variable is found. -/
theorem nextDecisionVariableWithBestScore (h : e.Inv assigned isAux maxVar)
    (hex : ∃ x, (1 ≤ x ∧ x ≤ maxVar) ∧ assigned x = false ∧ isAux x = false) {n : Nat}
    (hn : e.scores.size + (unsettled isAux maxVar e).card < n) :
  ∃ x e', Evsids.nextDecisionVariableWithBestScore assigned isAux n e = some (x, e')
    ∧ (1 ≤ x ∧ x ≤ maxVar) ∧ assigned x = false ∧ isAux x = false
    ∧ e'.Inv assigned isAux maxVar
  := by
  induction n generalizing e with
  | zero => exact absurd hn (Nat.not_lt_zero _)
  | succ n ih =>
      obtain ⟨y, ⟨hypos, hyle⟩, hyun, hyaux⟩ := hex
      have hy := h.cover y hypos hyle hyun
      obtain ⟨k, hk, hky⟩ := h.wf.contains_iff.mp hy
      have hpos : 0 < e.scores.size := by omega
      have hfront : e.scores.contains e.scores.front = true := h.wf.contains_array hpos
      rw [Evsids.nextDecisionVariableWithBestScore, if_neg hpos.ne']
      simp only
      split
      · next hstop =>
          exact ⟨_, e, rfl, h.range _ hfront, hstop.1, hstop.2, h⟩
      · next hgo =>
          split
          · next haux =>
              -- The variable in front cannot have been there before, since it is above `y`.
              have hscore : e.stab e.scores.front ≠ -1 := by
                intro heq
                have hle := h.ordered.front (compares e.stab) (fun a => le_refl (e.stab a)) k hk
                rw [hky, Above, heq] at hle
                have hnonneg := h.nonneg y hypos hyle hyaux
                linarith
              have hnot : isAux e.scores.front = false → (0 : ℚ) ≤ -1 := by
                rw [haux]
                rintro ⟨⟩
              obtain ⟨h', hsame⟩ := h.updateScore hfront hnot
              have hcard : (unsettled isAux maxVar { e with
                  stab := Function.update e.stab e.scores.front (-1)
                  scores := e.scores.update
                    (scoreSmaller (Function.update e.stab e.scores.front (-1)))
                    e.scores.front }).card < (unsettled isAux maxVar e).card := by
                apply Finset.card_lt_card
                apply (Finset.ssubset_iff_of_subset _).mpr
                · use e.scores.front
                  have hle := (h.range _ hfront).2
                  simp [unsettled, haux, hscore, Nat.lt_succ_of_le hle]
                · intro x hx
                  simp only [unsettled, Finset.mem_filter] at hx ⊢
                  refine ⟨hx.1, hx.2.1, ?_⟩
                  have hne : x ≠ e.scores.front := by
                    rintro rfl
                    exact hx.2.2 (Function.update_self _ _ _)
                  rw [Function.update_of_ne hne] at hx
                  exact hx.2.2
              apply ih h'
              have hsize := hsame.size
              simp only [hsize]
              omega
          · next hnot =>
              have hassigned : assigned e.scores.front = true := by
                by_contra hun
                exact hgo ⟨by simpa using hun, by simpa using hnot⟩
              obtain ⟨h', hsize⟩ := h.popFront hpos hassigned
              apply ih h'
              simp only [hsize]
              change _ + (unsettled isAux maxVar e).card < n
              omega

end Inv

/-- More iterations do not change the result. -/
theorem nextDecisionVariableWithBestScore_mono {assigned isAux : Nat → Bool} {m n : Nat}
    (hle : m ≤ n) {e : Evsids} {r : Nat × Evsids}
    (h : nextDecisionVariableWithBestScore assigned isAux m e = some r) :
  nextDecisionVariableWithBestScore assigned isAux n e = some r
  := by
  induction m generalizing n e with
  | zero => cases h
  | succ m ih =>
      obtain ⟨n, rfl⟩ : ∃ k, n = k + 1 := ⟨n - 1, by omega⟩
      have hle' := Nat.le_of_succ_le_succ hle
      rw [nextDecisionVariableWithBestScore] at h ⊢
      split at h
      · cases h
      · next hsize =>
          rw [if_neg hsize]
          simp only at h ⊢
          split at h
          · next hstop =>
              rw [if_pos hstop]
              exact h
          · next hgo =>
              rw [if_neg hgo]
              split at h
              · next haux =>
                  rw [if_pos haux]
                  exact ih hle' h
              · next haux =>
                  rw [if_neg haux]
                  exact ih hle' h

end Evsids

end Cadical
