import Mathlib.Data.Set.Basic

/-!
# Searches with a worklist

Items are taken from a worklist.  An item that may be opened marks its key, and the successors
of the key are put on the worklist; a key is marked at most once, and whether an item may be
opened depends on the item, not only on its key.  `Searched` is the invariant of such a search
for an arbitrary representation of the worklist.
-/

universe u v

namespace Graph

variable {α : Type u} {κ : Type v} (start opens : α → Prop) (key : α → κ) (succ : κ → α → Prop)

/-- The items that are reached from the start through items that are opened. -/
inductive Reached : α → Prop where
  | start {a : α} : start a → Reached a
  | succ {a b : α} : Reached a → opens a → succ (key a) b → Reached b

/-- The key of an item that is reached and opened. -/
def Opened (k : κ) : Prop :=
  ∃ a, Reached start opens key succ a ∧ opens a ∧ key a = k

/-- The keys marked are those of items reached, and every item reached is on the worklist, or
it is handled, or the search will still reach it. -/
structure Searched (marked : κ → Prop) (work : α → Prop) : Prop where
  sound : ∀ k, marked k → Opened start opens key succ k
  reached : ∀ a, work a → Reached start opens key succ a
  begin : ∀ a, start a → work a ∨ (opens a → marked (key a))
  closed : ∀ k a, marked k → succ k a → work a ∨ (opens a → marked (key a))

variable {start opens : α → Prop} {key : α → κ} {succ : κ → α → Prop}
  {marked marked' : κ → Prop} {work work' : α → Prop}

theorem Searched.init (hmarked : ∀ k, ¬ marked k) :
  Searched start opens key succ marked start
  where
    sound := fun k hk => absurd hk (hmarked k)
    reached := fun _ ha => Reached.start ha
    begin := fun _ ha => Or.inl ha
    closed := fun k _ hk => absurd hk (hmarked k)

/-- An item is passed over that is not to be opened or whose key is marked. -/
theorem Searched.skip (h : Searched start opens key succ marked work) {a : α}
    (ha : opens a → marked (key a)) (hwork : ∀ b, work b ↔ b = a ∨ work' b) :
  Searched start opens key succ marked work'
  := by
  have hcover : ∀ b, work b ∨ (opens b → marked (key b)) →
      work' b ∨ (opens b → marked (key b)) := by
    rintro b (hb | hb)
    · obtain rfl | hb := (hwork b).mp hb
      · exact Or.inr ha
      · exact Or.inl hb
    · exact Or.inr hb
  exact ⟨h.sound, fun b hb => h.reached b ((hwork b).mpr (Or.inr hb)),
    fun b hb => hcover b (h.begin b hb), fun k b hk hb => hcover b (h.closed k b hk hb)⟩

/-- An item is opened: its key is marked, and the successors are put on the worklist. -/
theorem Searched.open (h : Searched start opens key succ marked work) {a : α} (ha : opens a)
    (hwork : ∀ b, work b → b = a ∨ work' b) (hmem : work a)
    (hnew : ∀ b, work' b → work b ∨ succ (key a) b) (hsucc : ∀ b, succ (key a) b → work' b)
    (hmarked : ∀ k, marked' k ↔ k = key a ∨ marked k) :
  Searched start opens key succ marked' work'
  := by
  have hcover : ∀ b, work b ∨ (opens b → marked (key b)) →
      work' b ∨ (opens b → marked' (key b)) := by
    rintro b (hb | hb)
    · obtain rfl | hb := hwork b hb
      · right
        exact fun _ => (hmarked _).mpr (Or.inl rfl)
      · exact Or.inl hb
    · exact Or.inr (fun hopens => (hmarked _).mpr (Or.inr (hb hopens)))
  constructor
  · intro k hk
    obtain rfl | hk := (hmarked k).mp hk
    · exact ⟨a, h.reached a hmem, ha, rfl⟩
    · exact h.sound k hk
  · intro b hb
    obtain hb | hb := hnew b hb
    · exact h.reached b hb
    · exact Reached.succ (h.reached a hmem) ha hb
  · exact fun b hb => hcover b (h.begin b hb)
  · intro k b hk hb
    obtain rfl | hk := (hmarked k).mp hk
    · exact Or.inl (hsucc b hb)
    · exact hcover b (h.closed k b hk hb)

/-- When the worklist is empty, the keys marked are those of the items that are reached and
opened. -/
theorem Searched.marked_iff (h : Searched start opens key succ marked (fun _ => False)) (k : κ) :
  marked k ↔ Opened start opens key succ k
  := by
  have hreached : ∀ a, Reached start opens key succ a → opens a → marked (key a) := by
    intro a ha
    induction ha with
    | start hstart => exact (h.begin _ hstart).resolve_left id
    | succ _ hopens hsucc ih => exact (h.closed _ _ (ih hopens) hsucc).resolve_left id
  constructor
  · exact h.sound k
  · rintro ⟨a, ha, hopens, rfl⟩
    exact hreached a ha hopens

end Graph
