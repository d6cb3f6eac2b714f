import Mathlib.Data.List.Nodup
import Mathlib.Logic.Function.Basic

/-!
# Doubly linked lists

Nodes with links to a previous and to a next node, and the lists that they form: `Seg` says
that the nodes of a list are linked in its order, between a node in front and a node behind.
Unlinking a node removes it from the list; linking one to an end adds it there.
-/

universe u

namespace DoublyLinked

/-- The links of a node. -/
@[ext]
structure Link (α : Type u) where
  prev : α
  next : α

variable {α : Type u}

/-- The nodes of the list are linked in its order, behind `p` and in front of `n`. -/
def Seg (links : α → Link α) : α → List α → α → Prop
  | _, [], _ => True
  | p, a :: l, n => links a = ⟨p, l.headD n⟩ ∧ Seg links a l n

theorem headD_append (l m : List α) (n : α) :
  (l ++ m).headD n = l.headD (m.headD n)
  := by
  cases l <;> rfl

theorem getLastD_append (l m : List α) (p : α) :
  (l ++ m).getLastD p = m.getLastD (l.getLastD p)
  := by
  induction l generalizing p with
  | nil => rfl
  | cons a l ih => rw [List.cons_append, List.getLastD_cons, List.getLastD_cons, ih]

theorem seg_append {links : α → Link α} {p n : α} {l m : List α} :
  Seg links p (l ++ m) n ↔ Seg links p l (m.headD n) ∧ Seg links (l.getLastD p) m n
  := by
  induction l generalizing p with
  | nil => simp [Seg]
  | cons a l ih =>
      rw [List.cons_append, Seg, Seg, ih, headD_append, and_assoc, List.getLastD_cons]

/-- Only the links of the nodes of the list matter. -/
theorem Seg.congr {links links' : α → Link α} {p n : α} {l : List α} (h : Seg links p l n)
    (heq : ∀ a ∈ l, links' a = links a) :
  Seg links' p l n
  := by
  induction l generalizing p with
  | nil => exact trivial
  | cons a l ih =>
      refine ⟨?_, ih h.2 (fun b hb => heq b (List.mem_cons_of_mem a hb))⟩
      rw [heq a List.mem_cons_self]
      exact h.1

/-- The links of a node of the list. -/
theorem Seg.link {links : α → Link α} {p n : α} {l m : List α} {a : α}
    (h : Seg links p (l ++ a :: m) n) :
  links a = ⟨l.getLastD p, m.headD n⟩
  := (seg_append.mp h).2.1

theorem getLastD_mem {l : List α} (hne : l ≠ []) (a : α) :
  l.getLastD a ∈ l
  := by
  rw [List.getLastD_eq_getLast?, List.getLast?_eq_some_getLast hne, Option.getD_some]
  exact List.getLast_mem hne

theorem headD_mem {l : List α} (hne : l ≠ []) (a : α) :
  l.headD a ∈ l
  := by
  cases l with
  | nil => exact absurd rfl hne
  | cons b l => exact List.mem_cons_self

section Update

variable [DecidableEq α]

/-- The `next` link of a node is replaced. -/
def setNext (links : α → Link α) (a n : α) : α → Link α :=
  Function.update links a { links a with next := n }

/-- The `prev` link of a node is replaced. -/
def setPrev (links : α → Link α) (a p : α) : α → Link α :=
  Function.update links a { links a with prev := p }

theorem setNext_of_ne (links : α → Link α) {a b : α} (n : α) (h : b ≠ a) :
  setNext links a n b = links b
  := Function.update_of_ne h _ _

theorem setPrev_of_ne (links : α → Link α) {a b : α} (p : α) (h : b ≠ a) :
  setPrev links a p b = links b
  := Function.update_of_ne h _ _

/-- What comes behind the list changes with the `next` link of its last node. -/
theorem Seg.setNext_getLastD {links : α → Link α} {p n : α} {l : List α} (h : Seg links p l n)
    (hl : l.Nodup) (hne : l ≠ []) (n' : α) :
  Seg (setNext links (l.getLastD p) n') p l n'
  := by
  obtain rfl | ⟨l', a, rfl⟩ := List.eq_nil_or_concat' l
  · exact absurd rfl hne
  · rw [List.nodup_append'] at hl
    have ha : a ∉ l' := fun hmem => hl.2.2 hmem List.mem_cons_self
    obtain ⟨hl', hlink, -⟩ := seg_append.mp h
    rw [List.getLastD_concat]
    apply seg_append.mpr
    refine ⟨hl'.congr ?_, ?_, trivial⟩
    · intro b hb
      exact setNext_of_ne links n' (ne_of_mem_of_not_mem hb ha)
    · rw [setNext, Function.update_self, hlink]
      rfl

/-- What comes in front of the list changes with the `prev` link of its first node. -/
theorem Seg.setPrev_headD {links : α → Link α} {p n : α} {l : List α} (h : Seg links p l n)
    (hl : l.Nodup) (hne : l ≠ []) (p' : α) :
  Seg (setPrev links (l.headD n) p') p' l n
  := by
  cases l with
  | nil => exact absurd rfl hne
  | cons a l =>
      obtain ⟨hlink, hrest⟩ := h
      rw [List.headD_cons]
      refine ⟨?_, hrest.congr ?_⟩
      · rw [setPrev, Function.update_self, hlink]
      · intro b hb
        exact setPrev_of_ne links p' (ne_of_mem_of_not_mem hb (List.nodup_cons.mp hl).1)

variable {null : α}

/-- A node is unlinked: its neighbours are linked to each other. -/
def unlink (null : α) (links : α → Link α) (a : α) : α → Link α :=
  let l := links a
  let links := if l.prev = null then links else setNext links l.prev l.next
  if l.next = null then links else setPrev links l.next l.prev

/-- Unlinking a node removes it from the list. -/
theorem Seg.unlink {links : α → Link α} {l m : List α} {a : α}
    (h : Seg links null (l ++ a :: m) null) (hnodup : (l ++ a :: m).Nodup)
    (hnull : null ∉ l ++ a :: m) :
  Seg (unlink null links a) null (l ++ m) null
  := by
  obtain ⟨hl, -, hm⟩ := seg_append.mp h
  rw [DoublyLinked.unlink, h.link]
  simp only
  obtain ⟨hlnodup, hamnodup, hdisjoint⟩ := List.nodup_append'.mp hnodup
  have hmnodup := (List.nodup_cons.mp hamnodup).2
  have hdisjoint' : ∀ b ∈ l, b ∉ m := fun b hbl hbm => hdisjoint hbl (List.mem_cons_of_mem a hbm)
  have hlast : l ≠ [] → l.getLastD null ∈ l := fun hne => getLastD_mem hne null
  have hhead : m ≠ [] → m.headD null ∈ m := fun hne => headD_mem hne null
  have hlnull : l.getLastD null = null ↔ l = [] := by
    constructor
    · intro heq
      by_contra hne
      exact hnull (List.mem_append_left _ (heq ▸ hlast hne))
    · rintro rfl
      rfl
  have hmnull : m.headD null = null ↔ m = [] := by
    constructor
    · intro heq
      by_contra hne
      exact hnull (List.mem_append_right _ (List.mem_cons_of_mem a (heq ▸ hhead hne)))
    · rintro rfl
      rfl
  simp only [hlnull, hmnull]
  apply seg_append.mpr
  constructor
  · have hnext : Seg (if l = [] then links else setNext links (l.getLastD null) (m.headD null))
        null l (m.headD null) := by
      split
      · next hnil =>
          rw [hnil]
          exact trivial
      · next hne => exact hl.setNext_getLastD hlnodup hne _
    split
    · exact hnext
    · next hne =>
        apply hnext.congr
        intro b hb
        apply setPrev_of_ne
        rintro rfl
        exact hdisjoint' _ hb (hhead hne)
  · have hkeep : Seg (if l = [] then links else setNext links (l.getLastD null) (m.headD null))
        a m null := by
      split
      · exact hm
      · next hne =>
          apply hm.congr
          intro b hb
          apply setNext_of_ne
          rintro rfl
          exact hdisjoint' _ (hlast hne) hb
    split
    · next hnil =>
        rw [hnil]
        exact trivial
    · next hne => exact hkeep.setPrev_headD hmnodup hne _

/-- A node is linked behind the last node. -/
def linkLast (null : α) (links : α → Link α) (last a : α) : α → Link α :=
  let links := setPrev links a last
  let links := if last = null then links else setNext links last a
  setNext links a null

/-- A node is linked in front of the first node. -/
def linkFirst (null : α) (links : α → Link α) (first a : α) : α → Link α :=
  setPrev (setPrev (setNext links a first) first a) a null

/-- Linking a node behind the last one adds it at the end of the list. -/
theorem Seg.linkLast {links : α → Link α} {l : List α} {a : α} (h : Seg links null l null)
    (hnodup : l.Nodup) (hnull : null ∉ l) (ha : a ∉ l) :
  Seg (linkLast null links (l.getLastD null) a) null (l ++ [a]) null
  := by
  rw [DoublyLinked.linkLast]
  have hset : Seg (setPrev links a (l.getLastD null)) null l null :=
    h.congr (fun b hb => setPrev_of_ne links _ (ne_of_mem_of_not_mem hb ha))
  by_cases hne : l = []
  · subst hne
    refine ⟨?_, trivial⟩
    simp [setNext, setPrev]
  · have hmem := getLastD_mem hne null
    have hlast : l.getLastD null ≠ null := ne_of_mem_of_not_mem hmem hnull
    simp only [if_neg hlast]
    apply seg_append.mpr
    refine ⟨?_, ?_, trivial⟩
    · apply (hset.setNext_getLastD hnodup hne a).congr
      intro b hb
      exact setNext_of_ne _ null (ne_of_mem_of_not_mem hb ha)
    · rw [setNext, Function.update_self,
        setNext_of_ne _ a (ne_of_mem_of_not_mem hmem ha).symm, setPrev, Function.update_self]
      rfl

/-- Linking a node in front of the first one adds it there. -/
theorem Seg.linkFirst {links : α → Link α} {l : List α} {a : α} (h : Seg links null l null)
    (hnodup : l.Nodup) (ha : a ∉ l) (hne : l ≠ []) :
  Seg (linkFirst null links (l.headD null) a) null (a :: l) null
  := by
  have hmem := headD_mem hne null
  have hfirst : l.headD null ≠ a := ne_of_mem_of_not_mem hmem ha
  refine ⟨?_, ?_⟩
  · rw [DoublyLinked.linkFirst, setPrev, Function.update_self, setPrev_of_ne _ a hfirst.symm, setNext,
      Function.update_self]
  · have hset : Seg (setNext links a (l.headD null)) null l null :=
      h.congr (fun b hb => setNext_of_ne links _ (ne_of_mem_of_not_mem hb ha))
    apply (hset.setPrev_headD hnodup hne a).congr
    intro b hb
    exact setPrev_of_ne _ null (ne_of_mem_of_not_mem hb ha)

theorem linkFirst_next (null : α) (links : α → Link α) {first a : α} (h : a ≠ first) :
  (linkFirst null links first a a).next = first
  := by
  rw [linkFirst, setPrev, Function.update_self, setPrev_of_ne _ a h, setNext,
    Function.update_self]

end Update

end DoublyLinked
