import Mathlib.Logic.Function.Basic
import Mathlib.Order.Defs.LinearOrder

/-!
# The binary heap

The priority queue `heap` of the solver, over a comparison `less` of its elements: an array
and the positions of the elements in it.  The order of the heap is stated for a relation `R`
that `less` decides up to ties, so that it is not affected by a change of the comparison that
breaks ties differently.
-/

namespace Cadical

/-- `heap`: the array up to its size, and the position of each element in it. -/
structure Heap where
  array : Nat → Nat
  size : Nat
  pos : Nat → Option Nat

namespace Heap

/-- The heap without elements. -/
def empty : Heap where
  array := fun _ => 0
  size := 0
  pos := fun _ => none

section Operations

variable (less : Nat → Nat → Bool) (h : Heap)

/-- `index`, which is zero for an element that is not contained. -/
def index (e : Nat) : Nat :=
  (h.pos e).getD 0

def contains (e : Nat) : Bool :=
  (h.pos e).isSome

/-- The element in front, which is maximal. -/
def front : Nat :=
  h.array 0

def exchange (a b : Nat) : Heap :=
  let i := h.index a
  let j := h.index b
  { h with
    array := Function.update (Function.update h.array i (h.array j)) j (h.array i)
    pos := Function.update (Function.update h.pos a (some j)) b (some i) }

/-- The loop of `up`, for a bounded number of iterations. -/
def upLoop : Nat → Heap → Nat → Heap
  | 0, h, _ => h
  | n + 1, h, e =>
      let p := h.array ((h.index e - 1) / 2)
      if 0 < h.index e ∧ less p e then upLoop n (h.exchange p e) e else h

def up (e : Nat) : Heap :=
  upLoop less h.size h e

/-- The larger child of the element, if it has a child. -/
def child (e : Nat) : Option Nat :=
  if 2 * h.index e + 1 < h.size then
    let c := h.array (2 * h.index e + 1)
    let r := h.array (2 * h.index e + 2)
    if 2 * h.index e + 2 < h.size ∧ less c r then some r else some c
  else none

/-- The loop of `down`, for a bounded number of iterations. -/
def downLoop : Nat → Heap → Nat → Heap
  | 0, h, _ => h
  | n + 1, h, e =>
      match h.child less e with
      | none => h
      | some c => if less e c then downLoop n (h.exchange e c) e else h

def down (e : Nat) : Heap :=
  downLoop less h.size h e

/-- `update`: the comparison has changed for `e`. -/
def update (e : Nat) : Heap :=
  (h.up less e).down less e

def pushBack (e : Nat) : Heap :=
  let h : Heap :=
    { array := Function.update h.array h.size e
      size := h.size + 1
      pos := Function.update h.pos e (some h.size) }
  h.update less e

/-- `pop_front`, which removes the element in front. -/
def popFront : Heap :=
  let res := h.array 0
  let last := h.array (h.size - 1)
  let h := if 1 < h.size then h.exchange res last else h
  let h := { h with size := h.size - 1, pos := Function.update h.pos res none }
  if 1 < h.size then h.down less last else h

/-- The elements in the order in which they are popped, at most `n`. -/
def popAll : Nat → Heap → List Nat
  | 0, _ => []
  | n + 1, h => if h.size = 0 then [] else h.front :: popAll n (h.popFront less)

end Operations

/-! ### Positions -/

/-- The positions are inverse to the array. -/
def Wf (h : Heap) : Prop :=
  ∀ e i, h.pos e = some i ↔ i < h.size ∧ h.array i = e

/-- The empty heap is well-formed. -/
theorem wf_empty :
  empty.Wf
  := by
  intro e i
  simp [empty]

namespace Wf

variable {h : Heap} {a b e i j : Nat}

/-- The position of an element is where it stands in the array. -/
theorem pos_array (hw : h.Wf) (hi : i < h.size) :
  h.pos (h.array i) = some i
  := (hw _ _).mpr ⟨hi, rfl⟩

theorem index_array (hw : h.Wf) (hi : i < h.size) :
  h.index (h.array i) = i
  := by
  rw [index, hw.pos_array hi, Option.getD_some]

/-- No element stands in the array twice. -/
theorem array_inj (hw : h.Wf) (hi : i < h.size) (hj : j < h.size) (heq : h.array i = h.array j) :
  i = j
  := by
  have hpos := hw.pos_array hi
  rw [heq, hw.pos_array hj] at hpos
  exact (Option.some.inj hpos).symm

/-- The heap contains the elements of its array. -/
theorem contains_iff (hw : h.Wf) :
  h.contains e = true ↔ ∃ i, i < h.size ∧ h.array i = e
  := by
  rw [contains, Option.isSome_iff_exists]
  exact exists_congr (fun i => hw e i)

theorem contains_array (hw : h.Wf) (hi : i < h.size) :
  h.contains (h.array i) = true
  := hw.contains_iff.mpr ⟨i, hi, rfl⟩

/-- The array after two elements have been exchanged. -/
theorem exchange_array (hw : h.Wf) (hi : i < h.size) (hj : j < h.size) (k : Nat) :
  (h.exchange (h.array i) (h.array j)).array k
    = h.array (if k = i then j else if k = j then i else k)
  := by
  simp only [exchange, hw.index_array hi, hw.index_array hj]
  by_cases hkj : k = j
  · rw [hkj, Function.update_self]
    by_cases hji : j = i <;> simp [hji]
  · rw [Function.update_of_ne hkj]
    by_cases hki : k = i
    · rw [hki, Function.update_self, if_pos rfl]
    · rw [Function.update_of_ne hki, if_neg hki, if_neg hkj]

/-- Exchanging two elements keeps the positions right. -/
theorem exchange (hw : h.Wf) (hi : i < h.size) (hj : j < h.size) :
  (h.exchange (h.array i) (h.array j)).Wf
  := by
  intro e k
  rw [hw.exchange_array hi hj]
  have hpos : (h.exchange (h.array i) (h.array j)).pos e
      = if e = h.array j then some i else if e = h.array i then some j else h.pos e := by
    simp only [Heap.exchange, hw.index_array hi, hw.index_array hj]
    by_cases hej : e = h.array j
    · rw [hej, Function.update_self, if_pos rfl]
    · rw [Function.update_of_ne hej, if_neg hej]
      by_cases hei : e = h.array i
      · rw [hei, Function.update_self, if_pos rfl]
      · rw [Function.update_of_ne hei, if_neg hei]
  rw [hpos]
  change _ ↔ k < h.size ∧ _
  by_cases hki : k = i
  · subst hki
    rw [if_pos rfl]
    by_cases hej : e = h.array j
    · simp [hej, hi]
    · have hne : ¬ h.array j = e := fun heq => hej heq.symm
      by_cases hei : e = h.array k
      · rw [if_neg hej, if_pos hei, Option.some.injEq]
        constructor
        · rintro rfl
          exact absurd hei hej
        · exact fun heq => absurd heq.2 hne
      · simp only [hej, hei, if_false, hw e k, hne, and_false, iff_false]
        exact fun heq => hei heq.2.symm
  · rw [if_neg hki]
    by_cases hkj : k = j
    · subst hkj
      rw [if_pos rfl]
      by_cases hej : e = h.array k
      · rw [if_pos hej, Option.some.injEq]
        constructor
        · exact fun heq => absurd heq.symm hki
        · intro heq
          exact (hw.array_inj hj hi (hej.symm.trans heq.2.symm)).symm
      · rw [if_neg hej]
        by_cases hei : e = h.array i
        · simp [hei, hj]
        · have hne : ¬ h.array i = e := fun heq => hei heq.symm
          simp only [hei, if_false, hw e k, hne, and_false, iff_false]
          exact fun heq => hej heq.2.symm
    · rw [if_neg hkj]
      by_cases hej : e = h.array j
      · rw [if_pos hej, Option.some.injEq]
        constructor
        · exact fun heq => absurd heq.symm hki
        · intro heq
          exact absurd (hw.array_inj heq.1 hj (heq.2.trans hej)) hkj
      · rw [if_neg hej]
        by_cases hei : e = h.array i
        · rw [if_pos hei, Option.some.injEq]
          constructor
          · exact fun heq => absurd heq.symm hkj
          · intro heq
            exact absurd (hw.array_inj heq.1 hi (heq.2.trans hei)) hki
        · rw [if_neg hei]
          exact hw e k

end Wf

/-- The other heap has the same elements. -/
structure SameElements (h h' : Heap) : Prop where
  size : h'.size = h.size
  contains : ∀ e, h'.contains e = h.contains e

theorem SameElements.refl (h : Heap) :
  h.SameElements h
  := ⟨rfl, fun _ => rfl⟩

theorem SameElements.trans {h₁ h₂ h₃ : Heap} (h : h₁.SameElements h₂) (h' : h₂.SameElements h₃) :
  h₁.SameElements h₃
  := ⟨h'.size.trans h.size, fun e => (h'.contains e).trans (h.contains e)⟩

theorem Wf.exchange_same {h : Heap} (hw : h.Wf) {i j : Nat} (hi : i < h.size) (hj : j < h.size) :
  h.SameElements (h.exchange (h.array i) (h.array j))
  := by
  refine ⟨rfl, ?_⟩
  intro e
  apply Bool.eq_iff_iff.mpr
  rw [(hw.exchange hi hj).contains_iff, hw.contains_iff]
  constructor
  · rintro ⟨k, hk, heq⟩
    rw [hw.exchange_array hi hj] at heq
    refine ⟨_, ?_, heq⟩
    split
    · exact hj
    · split
      · exact hi
      · exact hk
  · rintro ⟨k, hk, rfl⟩
    refine ⟨if k = i then j else if k = j then i else k, ?_, ?_⟩
    · change _ < h.size
      split
      · exact hj
      · split
        · exact hi
        · exact hk
    · rw [hw.exchange_array hi hj]
      by_cases hki : k = i
      · subst hki
        by_cases hjk : j = k <;> simp [hjk]
      · by_cases hkj : k = j <;> simp [hki, hkj]

/-! ### Order -/

/-- `less` decides `R`, up to ties. -/
structure Compares (less : Nat → Nat → Bool) (R : Nat → Nat → Prop) : Prop where
  trans : ∀ {a b c}, R a b → R b c → R a c
  of_less : ∀ {a b}, less a b = true → R b a
  of_not_less : ∀ {a b}, less a b = false → R a b

/-- No element is larger than its parent. -/
def Ordered (R : Nat → Nat → Prop) (h : Heap) : Prop :=
  ∀ k, 0 < k → k < h.size → R (h.array ((k - 1) / 2)) (h.array k)

/-- The children of the element at `i` are not larger than its parent. -/
def Grand (R : Nat → Nat → Prop) (h : Heap) (i : Nat) : Prop :=
  0 < i → ∀ k, 0 < k → k < h.size → (k - 1) / 2 = i →
    R (h.array ((i - 1) / 2)) (h.array k)

/-- The heap is ordered, except for the element at `i`. -/
structure OrderedExcept (R : Nat → Nat → Prop) (h : Heap) (i : Nat) : Prop where
  links : ∀ k, 0 < k → k < h.size → k ≠ i → (k - 1) / 2 ≠ i →
    R (h.array ((k - 1) / 2)) (h.array k)
  grand : Grand R h i

/-- The heap is ordered, except for the children of the element at `i`. -/
structure OrderedAbove (R : Nat → Nat → Prop) (h : Heap) (i : Nat) : Prop where
  links : ∀ k, 0 < k → k < h.size → (k - 1) / 2 ≠ i → R (h.array ((k - 1) / 2)) (h.array k)
  grand : Grand R h i

section Order

variable {less : Nat → Nat → Bool} {R : Nat → Nat → Prop} {h : Heap} {i : Nat}

/-- Exchanging an element with a smaller parent moves the exception up. -/
theorem OrderedExcept.exchange (hR : Compares less R) (hw : h.Wf) (ho : OrderedExcept R h i)
    (hi : i < h.size) (hpos : 0 < i) (hless : less (h.array ((i - 1) / 2)) (h.array i) = true) :
  OrderedExcept R (h.exchange (h.array ((i - 1) / 2)) (h.array i)) ((i - 1) / 2)
  := by
  have hp : (i - 1) / 2 < h.size := by omega
  have hlink := hR.of_less hless
  constructor
  · intro k hk hks hkp hkpp
    change k < h.size at hks
    rw [hw.exchange_array hp hi, hw.exchange_array hp hi, if_neg hkpp, if_neg hkp]
    by_cases hki : k = i
    · exact absurd (congrArg (fun k => (k - 1) / 2) hki) hkpp
    · rw [if_neg hki]
      by_cases hpi : (k - 1) / 2 = i
      · rw [if_pos hpi]
        exact ho.grand hpos k hk hks hpi
      · rw [if_neg hpi]
        exact ho.links k hk hks hki hpi
  · intro hppos k hk hks hkp
    change k < h.size at hks
    have hup : R (h.array (((i - 1) / 2 - 1) / 2)) (h.array ((i - 1) / 2)) :=
      ho.links _ hppos hp (by omega) (by omega)
    rw [hw.exchange_array hp hi, hw.exchange_array hp hi, if_neg (by omega), if_neg (by omega),
      if_neg (by omega)]
    by_cases hki : k = i
    · rw [if_pos hki]
      exact hup
    · rw [if_neg hki]
      have hsibling := ho.links k hk hks hki (by omega)
      rw [hkp] at hsibling
      exact hR.trans hup hsibling

/-- `up` moves an element to a place where it is not larger than its parent. -/
theorem upLoop_spec (hR : Compares less R) (n : Nat) {h : Heap} {i : Nat} (hw : h.Wf)
    (hi : i < h.size) (hn : i < n) (ho : OrderedExcept R h i) :
  (upLoop less n h (h.array i)).Wf ∧ h.SameElements (upLoop less n h (h.array i))
    ∧ ∃ j, j < h.size ∧ (upLoop less n h (h.array i)).array j = h.array i
      ∧ OrderedAbove R (upLoop less n h (h.array i)) j
  := by
  induction n generalizing h i with
  | zero => exact absurd hn (Nat.not_lt_zero i)
  | succ n ih =>
      rw [upLoop, hw.index_array hi]
      split
      · next hup =>
          have hp : (i - 1) / 2 < h.size := by omega
          have hself : (h.exchange (h.array ((i - 1) / 2)) (h.array i)).array ((i - 1) / 2)
              = h.array i := by
            rw [hw.exchange_array hp hi, if_pos rfl]
          have hrest := ih (hw.exchange hp hi) hp (by omega) (ho.exchange hR hw hi hup.1 hup.2)
          rw [hself] at hrest
          obtain ⟨hw', hsame, hj⟩ := hrest
          exact ⟨hw', (hw.exchange_same hp hi).trans hsame, hj⟩
      · next hstop =>
          refine ⟨hw, SameElements.refl h, i, hi, rfl, ?_, ho.grand⟩
          intro k hk hks hkp
          by_cases hki : k = i
          · subst hki
            apply hR.of_not_less
            rw [← Bool.not_eq_true]
            exact fun hless => hstop ⟨hk, hless⟩
          · exact ho.links k hk hks hki hkp

/-- The child that is chosen, and that it is not smaller than the other one. -/
theorem Wf.child_spec (hR : Compares less R) (hw : h.Wf) (hi : i < h.size) :
  (h.child less (h.array i) = none → ∀ k, 0 < k → k < h.size → (k - 1) / 2 ≠ i)
    ∧ ∀ c, h.child less (h.array i) = some c → ∃ j, j < h.size ∧ 0 < j ∧ (j - 1) / 2 = i
      ∧ c = h.array j ∧ ∀ k, 0 < k → k < h.size → (k - 1) / 2 = i → k ≠ j → R c (h.array k)
  := by
  rw [child, hw.index_array hi]
  simp only
  constructor
  · intro hnone k hk hks hkp
    split at hnone
    · split at hnone <;> cases hnone
    · omega
  · intro c hc
    split at hc
    · split at hc
      · next hright =>
          cases hc
          refine ⟨2 * i + 2, hright.1, by omega, by omega, rfl, ?_⟩
          intro k hk hks hkp hkj
          obtain rfl : k = 2 * i + 1 := by omega
          exact hR.of_less hright.2
      · next hleft hright =>
          cases hc
          refine ⟨2 * i + 1, hleft, by omega, by omega, rfl, ?_⟩
          intro k hk hks hkp hkj
          obtain rfl : k = 2 * i + 2 := by omega
          apply hR.of_not_less
          rw [← Bool.not_eq_true]
          exact fun hless => hright ⟨hks, hless⟩
    · cases hc

/-- Exchanging an element with its larger child moves the exception down. -/
theorem OrderedAbove.exchange (hR : Compares less R) (hw : h.Wf) (ho : OrderedAbove R h i)
    (hi : i < h.size) {j : Nat} (hj : j < h.size) (hjpos : 0 < j) (hji : (j - 1) / 2 = i)
    (hother : ∀ k, 0 < k → k < h.size → (k - 1) / 2 = i → k ≠ j → R (h.array j) (h.array k))
    (hless : less (h.array i) (h.array j) = true) :
  OrderedAbove R (h.exchange (h.array i) (h.array j)) j
  := by
  have hlink := hR.of_less hless
  constructor
  · intro k hk hks hkp
    change k < h.size at hks
    rw [hw.exchange_array hi hj, hw.exchange_array hi hj, if_neg hkp]
    by_cases hkpi : (k - 1) / 2 = i
    · rw [if_pos hkpi, if_neg (by omega)]
      by_cases hkj : k = j
      · rw [if_pos hkj]
        exact hlink
      · rw [if_neg hkj]
        exact hother k hk hks hkpi hkj
    · rw [if_neg hkpi]
      by_cases hki : k = i
      · rw [if_pos hki]
        subst hki
        exact ho.grand hk j hjpos hj hji
      · rw [if_neg hki, if_neg (by rintro rfl; exact hkpi hji)]
        exact ho.links k hk hks hkpi
  · intro _ k hk hks hkp
    change k < h.size at hks
    rw [hw.exchange_array hi hj, hw.exchange_array hi hj, hji, if_pos rfl, if_neg (by omega),
      if_neg (by omega)]
    have hchild := ho.links k hk hks (by omega)
    rwa [hkp] at hchild

/-- `down` restores the order. -/
theorem downLoop_spec (hR : Compares less R) (n : Nat) {h : Heap} {i : Nat} (hw : h.Wf)
    (hi : i < h.size) (hn : h.size ≤ n + i) (ho : OrderedAbove R h i) :
  (downLoop less n h (h.array i)).Wf ∧ h.SameElements (downLoop less n h (h.array i))
    ∧ Ordered R (downLoop less n h (h.array i))
  := by
  induction n generalizing h i with
  | zero => omega
  | succ n ih =>
      obtain ⟨hnone, hsome⟩ := hw.child_spec hR hi
      rw [downLoop]
      cases hc : h.child less (h.array i) with
      | none =>
          refine ⟨hw, SameElements.refl h, ?_⟩
          intro k hk hks
          exact ho.links k hk hks (hnone hc k hk hks)
      | some c =>
          obtain ⟨j, hj, hjpos, hji, rfl, hother⟩ := hsome c hc
          simp only
          split
          · next hless =>
              have hself : (h.exchange (h.array i) (h.array j)).array j = h.array i := by
                rw [hw.exchange_array hi hj, if_neg (by omega), if_pos rfl]
              have hrest := ih (hw.exchange hi hj) hj (by change h.size ≤ _; omega)
                (ho.exchange hR hw hi hj hjpos hji hother hless)
              rw [hself] at hrest
              obtain ⟨hw', hsame, hordered⟩ := hrest
              exact ⟨hw', (hw.exchange_same hi hj).trans hsame, hordered⟩
          · next hless =>
              refine ⟨hw, SameElements.refl h, ?_⟩
              have htop : R (h.array i) (h.array j) :=
                hR.of_not_less (by simpa using hless)
              intro k hk hks
              by_cases hkp : (k - 1) / 2 = i
              · rw [hkp]
                by_cases hkj : k = j
                · rwa [hkj]
                · exact hR.trans htop (hother k hk hks hkp hkj)
              · exact ho.links k hk hks hkp

/-- `update` restores the order after the comparison has changed for one element. -/
theorem update_spec (hR : Compares less R) (hw : h.Wf) (hi : i < h.size)
    (ho : OrderedExcept R h i) :
  (h.update less (h.array i)).Wf ∧ h.SameElements (h.update less (h.array i))
    ∧ Ordered R (h.update less (h.array i))
  := by
  obtain ⟨hw₁, hsame₁, j, hj, hself, ho₁⟩ := upLoop_spec hR h.size hw hi hi ho
  have hdown := downLoop_spec hR (upLoop less h.size h (h.array i)).size hw₁
    (hsame₁.size.symm ▸ hj) (Nat.le_add_right _ _) ho₁
  rw [hself] at hdown
  obtain ⟨hw₂, hsame₂, hordered⟩ := hdown
  exact ⟨hw₂, hsame₁.trans hsame₂, hordered⟩

/-- The element in front is maximal. -/
theorem Ordered.front (hR : Compares less R) (ho : Ordered R h) (hrefl : ∀ a, R a a) (k : Nat)
    (hk : k < h.size) :
  R h.front (h.array k)
  := by
  induction k using Nat.strongRecOn with
  | ind k ih =>
      obtain rfl | hpos := Nat.eq_zero_or_pos k
      · exact hrefl _
      · exact hR.trans (ih ((k - 1) / 2) (by omega) (by omega)) (ho k hpos hk)

/-- Pushing an element keeps the heap and adds just this element. -/
theorem pushBack_spec (hR : Compares less R) (hw : h.Wf) (ho : Ordered R h) {e : Nat}
    (he : h.contains e = false) :
  (h.pushBack less e).Wf ∧ (h.pushBack less e).size = h.size + 1
    ∧ (∀ a, (h.pushBack less e).contains a = true ↔ a = e ∨ h.contains a = true)
    ∧ Ordered R (h.pushBack less e)
  := by
  have hnone : ∀ i, i < h.size → h.array i ≠ e := by
    intro i hi heq
    have hcontains := hw.contains_array hi
    rw [heq, he] at hcontains
    cases hcontains
  let h₁ : Heap :=
    { array := Function.update h.array h.size e
      size := h.size + 1
      pos := Function.update h.pos e (some h.size) }
  have harray : ∀ k, h₁.array k = if k = h.size then e else h.array k := by
    intro k
    change Function.update h.array h.size e k = _
    rw [Function.update_apply]
  have hw₁ : h₁.Wf := by
    intro a k
    rw [harray]
    change Function.update h.pos e (some h.size) a = some k ↔ k < h.size + 1 ∧ _
    by_cases hae : a = e
    · rw [hae, Function.update_self, Option.some.injEq]
      constructor
      · rintro rfl
        exact ⟨Nat.lt_succ_self _, if_pos rfl⟩
      · rintro ⟨hk, heq⟩
        by_contra hne
        rw [if_neg (fun h => hne h.symm)] at heq
        exact hnone k (by omega) heq
    · rw [Function.update_of_ne hae, hw a k]
      by_cases hk : k = h.size
      · subst hk
        rw [if_pos rfl]
        constructor
        · exact fun h => absurd h.1 (Nat.lt_irrefl _)
        · exact fun h => absurd h.2.symm hae
      · rw [if_neg hk]
        constructor
        · exact fun h => ⟨by omega, h.2⟩
        · exact fun h => ⟨by omega, h.2⟩
  have hself : h₁.array h.size = e := by rw [harray, if_pos rfl]
  have ho₁ : OrderedExcept R h₁ h.size := by
    constructor
    · intro k hk hks hne _
      have hks : k < h.size + 1 := hks
      rw [harray, harray, if_neg hne, if_neg (by omega)]
      exact ho k hk (by omega)
    · intro _ k hk hks hkp
      have hks : k < h.size + 1 := hks
      omega
  have hupdate := update_spec hR hw₁ (Nat.lt_succ_self h.size) ho₁
  rw [hself] at hupdate
  obtain ⟨hw', hsame, hordered⟩ := hupdate
  refine ⟨hw', hsame.size, ?_, hordered⟩
  intro a
  rw [pushBack, hsame.contains a, hw₁.contains_iff, hw.contains_iff]
  constructor
  · rintro ⟨k, hk, heq⟩
    have hk : k < h.size + 1 := hk
    rw [harray] at heq
    split at heq
    · exact Or.inl heq.symm
    · exact Or.inr ⟨k, by omega, heq⟩
  · rintro (rfl | ⟨k, hk, rfl⟩)
    · exact ⟨h.size, Nat.lt_succ_self _, hself⟩
    · exact ⟨k, Nat.lt_succ_of_lt hk, by rw [harray, if_neg (Nat.ne_of_lt hk)]⟩

/-- The heap without its last place. -/
def removeLast (h : Heap) : Heap :=
  { h with
    size := h.size - 1
    pos := Function.update h.pos (h.array (h.size - 1)) none }

/-- Without the last element of the array the heap is well-formed. -/
theorem Wf.removeLast (hw : h.Wf) (hpos : 0 < h.size) :
  h.removeLast.Wf
  := by
  intro a k
  change Function.update h.pos (h.array (h.size - 1)) none a = some k
    ↔ k < h.size - 1 ∧ h.array k = a
  by_cases ha : a = h.array (h.size - 1)
  · subst ha
    rw [Function.update_self]
    constructor
    · exact nofun
    · rintro ⟨hk, heq⟩
      have hlast := hw.array_inj (by omega) (by omega) heq
      omega
  · rw [Function.update_of_ne ha, hw a k]
    constructor
    · rintro ⟨hk, rfl⟩
      refine ⟨?_, rfl⟩
      by_contra hlast
      obtain rfl : k = h.size - 1 := by omega
      exact ha rfl
    · exact fun h => ⟨by omega, h.2⟩

/-- The last element is the only one that goes. -/
theorem removeLast_contains (h : Heap) (a : Nat) :
  h.removeLast.contains a = true ↔ h.contains a = true ∧ a ≠ h.array (h.size - 1)
  := by
  change (Function.update h.pos (h.array (h.size - 1)) none a).isSome = true ↔ _
  by_cases ha : a = h.array (h.size - 1)
  · rw [ha, Function.update_self]
    simp
  · rw [Function.update_of_ne ha]
    simp [contains, ha]

/-- The last element has taken the place of the first one. -/
theorem Ordered.moveLast (hw : h.Wf) (ho : Ordered R h) (hpos : 0 < h.size) :
  OrderedAbove R (h.exchange (h.array 0) (h.array (h.size - 1))).removeLast 0
  := by
  have hlast : h.size - 1 < h.size := by omega
  refine ⟨?_, fun h => absurd h (Nat.lt_irrefl 0)⟩
  intro k hk hks hkp
  have hks : k < h.size - 1 := hks
  change R ((h.exchange _ _).array _) ((h.exchange _ _).array _)
  rw [hw.exchange_array hpos hlast, hw.exchange_array hpos hlast, if_neg hkp,
    if_neg (by omega), if_neg (by omega), if_neg (by omega)]
  exact ho k hk (by omega)

/-- Popping takes away the front and keeps the heap. -/
theorem popFront_spec (hR : Compares less R) (hw : h.Wf) (ho : Ordered R h) (hpos : 0 < h.size) :
  (h.popFront less).Wf ∧ (h.popFront less).size = h.size - 1
    ∧ (∀ a, (h.popFront less).contains a = true ↔ h.contains a = true ∧ a ≠ h.front)
    ∧ Ordered R (h.popFront less)
  := by
  have hlast : h.size - 1 < h.size := by omega
  -- Where there is only one element, exchanging it with itself changes nothing.
  have hexchange : (if 1 < h.size then h.exchange (h.array 0) (h.array (h.size - 1)) else h).array
      (h.size - 1) = h.array 0 := by
    split
    · rw [hw.exchange_array hpos hlast, if_neg (by omega), if_pos rfl]
    · next hone => rw [show h.size - 1 = 0 by omega]
  have hw₁ : (if 1 < h.size then h.exchange (h.array 0) (h.array (h.size - 1)) else h).Wf := by
    split
    · exact hw.exchange hpos hlast
    · exact hw
  have hsame : h.SameElements
      (if 1 < h.size then h.exchange (h.array 0) (h.array (h.size - 1)) else h) := by
    split
    · exact hw.exchange_same hpos hlast
    · exact SameElements.refl h
  have htop : 1 < h.size →
      (if 1 < h.size then h.exchange (h.array 0) (h.array (h.size - 1)) else h).array 0
        = h.array (h.size - 1)
      ∧ OrderedAbove R (if 1 < h.size then h.exchange (h.array 0) (h.array (h.size - 1))
          else h).removeLast 0 := by
    intro hone
    rw [if_pos hone, hw.exchange_array hpos hlast, if_pos rfl]
    exact ⟨rfl, ho.moveLast hw hpos⟩
  rw [popFront]
  revert hexchange hw₁ hsame htop
  generalize (if 1 < h.size then h.exchange (h.array 0) (h.array (h.size - 1)) else h) = h₁
  intro hexchange hw₁ hsame htop
  have hremove : { h₁ with size := h₁.size - 1, pos := Function.update h₁.pos (h.array 0) none }
      = h₁.removeLast := by
    rw [removeLast, hsame.size, hexchange]
  simp only [hremove]
  have hw₂ := hw₁.removeLast (hsame.size ▸ hpos)
  have hcontains : ∀ a, h₁.removeLast.contains a = true ↔ h.contains a = true ∧ a ≠ h.front := by
    intro a
    rw [removeLast_contains, hsame.contains a, hsame.size, hexchange]
    rfl
  have hsize : h₁.removeLast.size = h.size - 1 := by
    rw [← hsame.size]
    rfl
  split
  · next hmany =>
      have hold := hsame.size
      obtain ⟨hfirst, ho₂⟩ := htop (by omega)
      have hdown := downLoop_spec hR h₁.removeLast.size hw₂ (i := 0) (by omega)
        (Nat.le_add_right _ _) ho₂
      rw [show h₁.removeLast.array 0 = h.array (h.size - 1) from hfirst] at hdown
      obtain ⟨hw', hsame', hordered⟩ := hdown
      refine ⟨hw', hsame'.size.trans hsize, ?_, hordered⟩
      intro a
      rw [down, hsame'.contains a]
      exact hcontains a
  · next hfew =>
      refine ⟨hw₂, hsize, hcontains, ?_⟩
      intro k hk hks
      have hold := hsame.size
      rw [hsize] at hks
      omega

/-- The order of a heap only depends on its elements. -/
theorem Ordered.mono (ho : Ordered R h) (hw : h.Wf) {R' : Nat → Nat → Prop}
    (hR' : ∀ a b, h.contains a = true → h.contains b = true → R a b → R' a b) :
  Ordered R' h
  := by
  intro k hk hks
  exact hR' _ _ (hw.contains_array (by omega)) (hw.contains_array hks) (ho k hk hks)

/-- When the comparison changes for one element, the order is kept except for it. -/
theorem Ordered.except (hR : Compares less R) (ho : Ordered R h) (hw : h.Wf) (hi : i < h.size)
    {R' : Nat → Nat → Prop} (hR' : ∀ a b, a ≠ h.array i → b ≠ h.array i → R a b → R' a b) :
  OrderedExcept R' h i
  := by
  have hne : ∀ k, k < h.size → k ≠ i → h.array k ≠ h.array i :=
    fun k hk hki heq => hki (hw.array_inj hk hi heq)
  constructor
  · intro k hk hks hki hpi
    exact hR' _ _ (hne _ (by omega) hpi) (hne k hks hki) (ho k hk hks)
  · intro hipos k hk hks hpi
    apply hR' _ _ (hne _ (by omega) (by omega)) (hne k hks (by omega))
    have hki := ho k hk hks
    rw [hpi] at hki
    exact hR.trans (ho i hipos hi) hki

/-- The empty heap is ordered. -/
theorem ordered_empty :
  Ordered R empty
  := fun _ _ hk => absurd hk (Nat.not_lt_zero _)

/-- All elements are popped, each of them once. -/
theorem popAll_spec (hR : Compares less R) (n : Nat) (hw : h.Wf) (ho : Ordered R h)
    (hn : h.size ≤ n) :
  (h.popAll less n).Nodup ∧ ∀ a, a ∈ h.popAll less n ↔ h.contains a = true
  := by
  induction n generalizing h with
  | zero =>
      refine ⟨List.nodup_nil, ?_⟩
      intro a
      rw [popAll, hw.contains_iff]
      constructor
      · intro ha
        cases ha
      · rintro ⟨i, hi, -⟩
        omega
  | succ n ih =>
      rw [popAll]
      split
      · next hsize =>
          refine ⟨List.nodup_nil, ?_⟩
          intro a
          rw [hw.contains_iff]
          constructor
          · intro ha
            cases ha
          · rintro ⟨i, hi, -⟩
            omega
      · next hsize =>
          have hpos := Nat.pos_of_ne_zero hsize
          obtain ⟨hw', hsize', hcontains, ho'⟩ := popFront_spec hR hw ho hpos
          obtain ⟨hnodup, hmem⟩ := ih hw' ho' (by omega)
          constructor
          · apply List.nodup_cons.mpr
            refine ⟨?_, hnodup⟩
            rw [hmem, hcontains]
            exact fun hfront => hfront.2 rfl
          · intro a
            rw [List.mem_cons, hmem, hcontains]
            constructor
            · rintro (rfl | ha)
              · exact hw.contains_array hpos
              · exact ha.1
            · intro ha
              by_cases heq : a = h.front
              · exact Or.inl heq
              · exact Or.inr ⟨ha, heq⟩

/-- Pushing several new elements. -/
theorem foldl_pushBack_spec (hR : Compares less R) (es : List Nat) (hw : h.Wf)
    (ho : Ordered R h) (hnodup : es.Nodup) (hnew : ∀ e ∈ es, h.contains e = false) :
  (es.foldl (pushBack less) h).Wf
    ∧ (∀ a, (es.foldl (pushBack less) h).contains a = true ↔ h.contains a = true ∨ a ∈ es)
    ∧ Ordered R (es.foldl (pushBack less) h)
  := by
  induction es generalizing h with
  | nil => exact ⟨hw, fun a => by simp, ho⟩
  | cons e es ih =>
      obtain ⟨he, hnodup⟩ := List.nodup_cons.mp hnodup
      obtain ⟨hw', -, hcontains, ho'⟩ := pushBack_spec hR hw ho (hnew e List.mem_cons_self)
      obtain ⟨hw'', hcontains', ho''⟩ := ih hw' ho' hnodup (by
        intro a ha
        rw [← Bool.not_eq_true, hcontains, not_or, Bool.not_eq_true]
        exact ⟨ne_of_mem_of_not_mem ha he, hnew a (List.mem_cons_of_mem e ha)⟩)
      refine ⟨hw'', ?_, ho''⟩
      intro a
      rw [List.foldl_cons, hcontains', hcontains, List.mem_cons]
      constructor
      · rintro ((rfl | ha) | ha)
        · exact Or.inr (Or.inl rfl)
        · exact Or.inl ha
        · exact Or.inr (Or.inr ha)
      · rintro (ha | rfl | ha)
        · exact Or.inl (Or.inr ha)
        · exact Or.inl (Or.inl rfl)
        · exact Or.inr ha

end Order

end Heap

end Cadical
