import Mathlib.Data.List.Basic
import Mathlib.Data.List.Induction
import Mathlib.Order.Nat

/-!
# Stamps

`Stamp<T>` marks indices with a number that counts the calls of `clear`, for an unsigned
type `T` with the largest value `max` and the smallest value zero.  When the number reaches
`max`, `clear` starts again with an array of zeros.

`Inv` says that no entry exceeds the current number.  It holds after every sequence of
operations, and it is why `clear` leaves no index stamped.
-/

namespace CnfTools

/-- `Stamp`: the vector of stamps and the current one. -/
structure Stamp where
  stamped : List Nat
  stamp : Nat

namespace Stamp

def clear (max : Nat) (s : Stamp) : Stamp :=
  if s.stamp < max then
    { s with stamp := s.stamp + 1 }
  else
    { stamped := List.replicate s.stamped.length 0
      stamp := 0 + 1 }

/-- `grow()`. -/
def grow (s : Stamp) : Stamp :=
  { s with stamped := s.stamped ++ [0] }

/-- `grow(size)`. -/
def growTo (s : Stamp) (size : Nat) : Stamp :=
  if s.stamped.length < size then
    { s with stamped := s.stamped ++ List.replicate (size - s.stamped.length) 0 }
  else
    s

def unset (s : Stamp) (index : Nat) : Stamp :=
  { s with stamped := s.stamped.set index 0 }

def set (s : Stamp) (index : Nat) : Stamp :=
  { s with stamped := s.stamped.set index s.stamp }

def isStamped (s : Stamp) (index : Nat) : Bool :=
  s.stamped[index]? = some s.stamp

/-- `Stamp()`. -/
def init (max : Nat) : Stamp :=
  clear max { stamped := [], stamp := 0 }

/-- `Stamp(size)`. -/
def ofSize (max size : Nat) : Stamp :=
  clear max { stamped := (init max).stamped ++ List.replicate (size - (init max).stamped.length) 0,
              stamp := 0 }

theorem isStamped_set {s : Stamp} {index : Nat} (h : index < s.stamped.length) (i : Nat) :
  (s.set index).isStamped i = true ↔ i = index ∨ s.isStamped i = true
  := by
  rw [isStamped, isStamped, set, List.getElem?_set]
  by_cases hi : index = i
  · subst hi
    simp [h]
  · simp [hi, Ne.symm hi]

@[simp]
theorem length_set (s : Stamp) (index : Nat) :
  (s.set index).stamped.length = s.stamped.length
  := List.length_set

/-- After construction nothing is stamped. -/
theorem isStamped_ofSize {max : Nat} (hmax : 0 < max) (size i : Nat) :
  (ofSize max size).isStamped i = false
  := by
  simp [ofSize, init, clear, hmax, isStamped, List.getElem?_replicate]

@[simp]
theorem length_ofSize {max : Nat} (hmax : 0 < max) (size : Nat) :
  (ofSize max size).stamped.length = size
  := by
  simp [ofSize, init, clear, hmax]

/-! ### Sequences of operations -/

/-- The operations that change a stamp. -/
inductive Op where
  | set (index : Nat)
  | unset (index : Nat)
  | clear
  | grow
  | growTo (size : Nat)
  deriving DecidableEq, Repr

/-- An operation, if its index is in range. -/
def apply (max : Nat) (s : Stamp) : Op → Option Stamp
  | .set index => if index < s.stamped.length then some (s.set index) else none
  | .unset index => if index < s.stamped.length then some (s.unset index) else none
  | .clear => some (s.clear max)
  | .grow => some s.grow
  | .growTo size => some (s.growTo size)

/-- A sequence of operations. -/
def run (max : Nat) (s : Stamp) (ops : List Op) : Option Stamp :=
  ops.foldlM (apply max) s

/-- The two constructors. -/
def construct (max : Nat) : Option Nat → Stamp
  | none => init max
  | some size => ofSize max size

/-- No entry exceeds the current stamp, which is a positive value of the type. -/
structure Inv (max : Nat) (s : Stamp) : Prop where
  pos : 0 < s.stamp
  le_max : s.stamp ≤ max
  le_stamp : ∀ e ∈ s.stamped, e ≤ s.stamp

variable {max : Nat} {s s' : Stamp}

theorem clear_inv (hmax : 0 < max) (h : ∀ e ∈ s.stamped, e ≤ s.stamp) :
  Inv max (s.clear max)
  := by
  rw [clear]
  split
  · next hlt =>
      constructor
      · exact Nat.succ_pos s.stamp
      · exact hlt
      · intro e he
        exact (h e he).trans (Nat.le_succ s.stamp)
  · constructor
    · exact Nat.one_pos
    · exact hmax
    · intro e he
      rw [List.eq_of_mem_replicate he]
      exact Nat.zero_le _

theorem construct_inv (hmax : 0 < max) (size : Option Nat) :
  Inv max (construct max size)
  := by
  have hinit : Inv max (init max) := clear_inv hmax (fun e he => absurd he List.not_mem_nil)
  cases size with
  | none => exact hinit
  | some size =>
      apply clear_inv hmax
      intro e he
      obtain he | he := List.mem_append.mp he
      · rw [init, clear, if_pos hmax] at he
        cases he
      · exact (List.eq_of_mem_replicate he).le

theorem Inv.apply {op : Op} (hmax : 0 < max) (h : Inv max s) (hop : s.apply max op = some s') :
  Inv max s'
  := by
  have hset : ∀ index value, value ≤ s.stamp →
      Inv max { s with stamped := s.stamped.set index value } := by
    intro index value hvalue
    refine ⟨h.pos, h.le_max, ?_⟩
    intro e he
    obtain he | rfl := List.mem_or_eq_of_mem_set he
    · exact h.le_stamp e he
    · exact hvalue
  have hgrow : ∀ n, Inv max { s with stamped := s.stamped ++ List.replicate n 0 } := by
    intro n
    refine ⟨h.pos, h.le_max, ?_⟩
    intro e he
    obtain he | he := List.mem_append.mp he
    · exact h.le_stamp e he
    · rw [List.eq_of_mem_replicate he]
      exact Nat.zero_le _
  cases op with
  | set index =>
      rw [Stamp.apply] at hop
      split at hop
      · cases hop
        exact hset index s.stamp le_rfl
      · cases hop
  | unset index =>
      rw [Stamp.apply] at hop
      split at hop
      · cases hop
        exact hset index 0 (Nat.zero_le _)
      · cases hop
  | clear =>
      cases hop
      exact clear_inv hmax h.le_stamp
  | grow =>
      cases hop
      exact hgrow 1
  | growTo size =>
      cases hop
      rw [growTo]
      split
      · exact hgrow _
      · exact h

theorem isStamped_clear (max : Nat) (h : ∀ e ∈ s.stamped, e ≤ s.stamp) (i : Nat) :
  (s.clear max).isStamped i = false
  := by
  rw [isStamped, decide_eq_false_iff_not]
  intro hi
  rw [clear] at hi
  split at hi
  · have hle := h _ (List.mem_of_getElem? hi)
    exact Nat.not_succ_le_self _ hle
  · rw [List.getElem?_replicate] at hi
    split at hi
    · cases hi
    · cases hi

theorem isStamped_unset (hpos : 0 < s.stamp) {index : Nat} (h : index < s.stamped.length) (i : Nat) :
  (s.unset index).isStamped i = true ↔ i ≠ index ∧ s.isStamped i = true
  := by
  rw [isStamped, isStamped, unset, List.getElem?_set]
  by_cases hi : index = i
  · subst hi
    simp [h, Nat.ne_of_lt hpos]
  · simp [hi, Ne.symm hi]

/-- New entries are not stamped. -/
theorem isStamped_append (hpos : 0 < s.stamp) (n i : Nat) :
  ({ s with stamped := s.stamped ++ List.replicate n 0 } : Stamp).isStamped i = s.isStamped i
  := by
  rw [isStamped, isStamped, List.getElem?_append]
  split
  · rfl
  · next hi =>
      rw [List.getElem?_eq_none (Nat.not_lt.mp hi), List.getElem?_replicate]
      split <;> simp [Nat.ne_of_lt hpos]

/-- What an operation does to the stamped indices. -/
theorem isStamped_apply {op : Op} (h : Inv max s)
    (hop : s.apply max op = some s') (i : Nat) :
  s'.isStamped i = true ↔ op = .set i ∨ op ≠ .clear ∧ op ≠ .unset i ∧ s.isStamped i = true
  := by
  cases op with
  | set index =>
      rw [Stamp.apply] at hop
      split at hop
      · next hindex =>
          cases hop
          rw [isStamped_set hindex]
          simp [@eq_comm _ i index]
      · cases hop
  | unset index =>
      rw [Stamp.apply] at hop
      split at hop
      · next hindex =>
          cases hop
          rw [isStamped_unset h.pos hindex]
          simp [@eq_comm _ i index]
      · cases hop
  | clear =>
      cases hop
      simp [isStamped_clear max h.le_stamp]
  | grow =>
      cases hop
      simp [show s.grow.isStamped i = s.isStamped i from isStamped_append h.pos 1 i]
  | growTo size =>
      cases hop
      have hgrow : (s.growTo size).isStamped i = s.isStamped i := by
        rw [growTo]
        split
        · exact isStamped_append h.pos _ i
        · rfl
      simp [hgrow]

/-- After the last call of `clear`, or since the construction, `set` has been called for the
index, and `unset` has not been called for it since. -/
def SetSince (ops : List Op) (i : Nat) : Prop :=
  ∃ before after, ops = before ++ .set i :: after ∧ .clear ∉ after ∧ .unset i ∉ after

theorem setSince_concat (ops : List Op) (op : Op) (i : Nat) :
  SetSince (ops ++ [op]) i ↔ op = .set i ∨ op ≠ .clear ∧ op ≠ .unset i ∧ SetSince ops i
  := by
  constructor
  · rintro ⟨before, after, heq, hclear, hunset⟩
    obtain rfl | ⟨after, last, rfl⟩ := List.eq_nil_or_concat' after
    · left
      exact (List.append_inj' heq rfl).2 |> List.singleton_inj.mp
    · rw [← List.cons_append, ← List.append_assoc] at heq
      obtain ⟨rfl, hlast⟩ := List.append_inj' heq rfl
      obtain rfl := List.singleton_inj.mp hlast
      rw [List.mem_append, not_or, List.mem_singleton] at hclear hunset
      right
      exact ⟨Ne.symm hclear.2, Ne.symm hunset.2, before, after, rfl, hclear.1, hunset.1⟩
  · rintro (rfl | ⟨hclear, hunset, before, after, rfl, hclear', hunset'⟩)
    · exact ⟨ops, [], rfl, List.not_mem_nil, List.not_mem_nil⟩
    · refine ⟨before, after ++ [op], by simp, ?_, ?_⟩
      · rw [List.mem_append, not_or, List.mem_singleton]
        exact ⟨hclear', Ne.symm hclear⟩
      · rw [List.mem_append, not_or, List.mem_singleton]
        exact ⟨hunset', Ne.symm hunset⟩

/-- After every sequence of operations with indices in range, however often the stamp has
wrapped around, the indices that are stamped are those that have been set. -/
theorem isStamped_run_iff (hmax : 0 < max) {size : Option Nat} {ops : List Op}
    (hrun : run max (construct max size) ops = some s) (i : Nat) :
  s.isStamped i = true ↔ SetSince ops i
  := by
  have hboth : Inv max s ∧ ∀ i, s.isStamped i = true ↔ SetSince ops i := by
    induction ops using List.reverseRecOn generalizing s with
    | nil =>
        cases hrun
        refine ⟨construct_inv hmax size, ?_⟩
        intro i
        have hnone : ¬ SetSince [] i := by
          rintro ⟨before, after, heq, -, -⟩
          cases before <;> cases heq
        simp only [hnone, iff_false, Bool.not_eq_true]
        cases size with
        | none => exact isStamped_clear max (fun e he => absurd he List.not_mem_nil) i
        | some size => exact isStamped_ofSize hmax size i
    | append_singleton ops op ih =>
        rw [run, List.foldlM_append] at hrun
        obtain ⟨s₁, hs₁, hs⟩ := Option.bind_eq_some_iff.mp hrun
        rw [List.foldlM_cons] at hs
        obtain ⟨s₂, hop, hs₂⟩ := Option.bind_eq_some_iff.mp hs
        cases hs₂
        obtain ⟨hinv, hstamped⟩ := ih hs₁
        refine ⟨hinv.apply hmax hop, ?_⟩
        intro i
        rw [isStamped_apply hinv hop, setSince_concat, hstamped]
  exact hboth.2 i

/-- A type with the values zero and one, for which every call of `clear` wraps around. -/
theorem isStamped_run_iff_oneBit :
  (⟨[0, 1, 0], 1⟩ : Stamp).isStamped 1 = true
    ↔ SetSince [.set 0, .clear, .set 1, .grow, .set 2, .unset 2] 1
  := @isStamped_run_iff 1 _ (by decide) (some 2) _ rfl 1

end Stamp

end CnfTools
