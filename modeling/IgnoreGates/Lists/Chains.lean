import Mathlib.Data.List.Basic
import Mathlib.Data.List.GetD

/-!
# Tables of collision chains

A hash table is a list of chains.  `Hashed` says that every item is in the chain that its index
selects.  An item is put in front of its chain, and erased from it; the items of the table are
then those before together with the new one, or without the erased one, and a search of the
chain that an index selects finds every item with this index.
-/

universe u

namespace Chains

variable {α : Type u} {table : List (List α)} {h : Nat} {a b : α}

/-- Every item is in the chain of its index. -/
def Hashed (index : α → Option Nat) (table : List (List α)) : Prop :=
  ∀ h, ∀ a ∈ table.getD h [], index a = some h

theorem mem_flatten_of_mem_getD (ha : a ∈ table.getD h []) :
  a ∈ table.flatten
  := by
  rw [List.getD_eq_getElem?_getD] at ha
  cases hget : table[h]? with
  | none =>
      rw [hget] at ha
      cases ha
  | some chain =>
      rw [hget] at ha
      exact List.mem_flatten.mpr ⟨chain, List.mem_of_getElem? hget, ha⟩

theorem exists_mem_getD (ha : a ∈ table.flatten) :
  ∃ h < table.length, a ∈ table.getD h []
  := by
  obtain ⟨chain, hchain, ha⟩ := List.mem_flatten.mp ha
  obtain ⟨h, hlt, rfl⟩ := List.mem_iff_getElem.mp hchain
  refine ⟨h, hlt, ?_⟩
  rwa [List.getD_eq_getElem _ _ hlt]

/-- An item of the table is found in the chain of its index. -/
theorem Hashed.mem_getD {index : α → Option Nat} (hhashed : Hashed index table)
    (ha : a ∈ table.flatten) (hindex : index a = some h) :
  a ∈ table.getD h []
  := by
  obtain ⟨h', -, ha⟩ := exists_mem_getD ha
  obtain rfl : h' = h := by
    rw [hhashed h' a ha] at hindex
    exact Option.some.inj hindex
  exact ha

/-! ### Changing a chain -/

theorem getD_modify (f : List α → List α) (h h' : Nat) (hlt : h < table.length) :
  (table.modify h f).getD h' []
    = if h' = h then f (table.getD h []) else table.getD h' []
  := by
  rw [List.getD_eq_getElem?_getD, List.getElem?_modify]
  split
  · next heq =>
      subst heq
      rw [if_pos rfl, List.getD_eq_getElem _ _ hlt, List.getElem?_eq_getElem hlt]
      rfl
  · next hne =>
      rw [if_neg (fun heq => hne heq.symm), List.getD_eq_getElem?_getD]
      cases table[h']? <;> rfl

theorem flatten_modify_cons (hlt : h < table.length) (a : α) :
  (table.modify h (fun chain => a :: chain)).flatten.Perm (a :: table.flatten)
  := by
  induction table generalizing h with
  | nil => exact absurd hlt (Nat.not_lt_zero h)
  | cons chain table ih =>
      cases h with
      | zero => rfl
      | succ h =>
          rw [List.modify_succ_cons, List.flatten_cons, List.flatten_cons]
          exact ((ih (Nat.lt_of_succ_lt_succ hlt)).append_left chain).trans List.perm_middle

theorem flatten_modify_erase [DecidableEq α] (ha : a ∈ table.getD h []) :
  (a :: (table.modify h (fun chain => chain.erase a)).flatten).Perm table.flatten
  := by
  induction table generalizing h with
  | nil => cases ha
  | cons chain table ih =>
      cases h with
      | zero => exact (List.perm_cons_erase ha).symm.append_right table.flatten
      | succ h =>
          rw [List.modify_succ_cons, List.flatten_cons, List.flatten_cons]
          exact List.perm_middle.symm.trans ((ih ha).append_left chain)

theorem Hashed.modify_cons {index : α → Option Nat} (hhashed : Hashed index table)
    (hlt : h < table.length) (ha : index a = some h) :
  Hashed index (table.modify h (fun chain => a :: chain))
  := by
  intro h' b hb
  rw [getD_modify _ _ _ hlt] at hb
  split at hb
  · next heq =>
      subst heq
      obtain rfl | hb := List.mem_cons.mp hb
      · exact ha
      · exact hhashed h' b hb
  · exact hhashed h' b hb

theorem Hashed.modify_erase [DecidableEq α] {index : α → Option Nat} (hhashed : Hashed index table)
    (hlt : h < table.length) (a : α) :
  Hashed index (table.modify h (fun chain => chain.erase a))
  := by
  intro h' b hb
  rw [getD_modify _ _ _ hlt] at hb
  split at hb
  · next heq =>
      subst heq
      exact hhashed h' b (List.mem_of_mem_erase hb)
  · exact hhashed h' b hb

theorem Hashed.map_filter {index : α → Option Nat} (hhashed : Hashed index table) (p : α → Bool) :
  Hashed index (table.map (fun chain => chain.filter p))
  := by
  intro h b hb
  rw [List.getD_eq_getElem?_getD, List.getElem?_map] at hb
  apply hhashed h b
  rw [List.getD_eq_getElem?_getD]
  cases hget : table[h]? with
  | none =>
      rw [hget] at hb
      cases hb
  | some chain =>
      rw [hget] at hb
      exact (List.mem_filter.mp hb).1

theorem flatten_map_filter (table : List (List α)) (p : α → Bool) :
  (table.map (fun chain => chain.filter p)).flatten = table.flatten.filter p
  := (List.filter_flatten ..).symm

theorem Hashed.replicate_nil (index : α → Option Nat) (n : Nat) :
  Hashed index (List.replicate n [])
  := by
  intro h b hb
  have hmem := mem_flatten_of_mem_getD hb
  rw [List.flatten_replicate_nil] at hmem
  cases hmem

end Chains
