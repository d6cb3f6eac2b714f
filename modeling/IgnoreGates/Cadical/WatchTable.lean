import Mathlib.Data.List.GetD
import Mathlib.Data.List.Perm.Basic
import IgnoreGates.Cadical.Propagate

/-!
# Two watched literals

The first two literals of a clause are watched.  `WatchTable` relates the lists of watches to
the literals of the clauses: the watches are those of the first two literals, and no clause
lacks one unless it is garbage.  This is kept when a watch gets another blocking literal, when
the watch of a garbage clause is dropped, when another literal of a clause is watched, and when
a clause is added.
-/

namespace Cadical

open Logic

/-! ### Values -/

theorem vals_pos_iff (trail : List Lit) (lit : Lit) :
  0 < vals trail lit ↔ lit ∈ trail
  := by
  rw [vals]
  split
  · next h => exact ⟨fun _ => h, fun _ => Int.one_pos⟩
  · next h =>
      split
      · exact ⟨fun hpos => absurd hpos (by decide), fun hmem => absurd hmem h⟩
      · exact ⟨fun hpos => absurd hpos (by decide), fun hmem => absurd hmem h⟩

theorem vals_neg_iff (trail : List Lit) (lit : Lit) :
  vals trail lit < 0 ↔ lit ∉ trail ∧ -lit ∈ trail
  := by
  rw [vals]
  split
  · next h => exact ⟨fun hneg => absurd hneg (by decide), fun hmem => absurd h hmem.1⟩
  · next h =>
      split
      · next h' => exact ⟨fun _ => ⟨h, h'⟩, fun _ => by decide⟩
      · next h' => exact ⟨fun hneg => absurd hneg (by decide), fun hmem => absurd hmem.2 h'⟩

theorem vals_eq_zero_iff (trail : List Lit) (lit : Lit) :
  vals trail lit = 0 ↔ lit ∉ trail ∧ -lit ∉ trail
  := by
  have hpos := vals_pos_iff trail lit
  have hneg := vals_neg_iff trail lit
  rw [not_iff_not.symm] at hpos
  constructor
  · intro h
    have hmem := hpos.mp (by omega)
    exact ⟨hmem, fun hmem' => absurd (hneg.mpr ⟨hmem, hmem'⟩) (by omega)⟩
  · rintro ⟨hmem, hmem'⟩
    have hle := hpos.mpr hmem
    have hge : ¬ vals trail lit < 0 := fun hlt => hmem' (hneg.mp hlt).2
    omega

namespace Cdcl

/-! ### The literals of a watched clause -/

variable {literals : List Lit} {lit : Lit} {k : Nat}

theorem exists_eq_cons_cons (hlength : 2 ≤ literals.length) :
  ∃ a b rest, literals = a :: b :: rest
  := by
  obtain _ | ⟨a, _ | ⟨b, rest⟩⟩ := literals
  · exact absurd hlength (by decide)
  · exact absurd hlength (by simp)
  · exact ⟨a, b, rest, rfl⟩

/-- A clause watched by `lit` starts with `lit` and the other watch. -/
theorem exists_watched (hlit : lit ∈ literals.take 2) (hlength : 2 ≤ literals.length) :
  ∃ rest, literals = lit :: otherWatch literals lit :: rest
    ∨ literals = otherWatch literals lit :: lit :: rest
  := by
  obtain _ | ⟨a, _ | ⟨b, rest⟩⟩ := literals
  · exact absurd hlength (by decide)
  · exact absurd hlength (by simp)
  · use rest
    rw [List.take_succ_cons, List.take_succ_cons, List.take_zero, List.mem_cons,
      List.mem_singleton] at hlit
    by_cases ha : a = lit
    · left
      rw [otherWatch, List.getD_cons_zero, if_pos ha, ha]
      rfl
    · right
      rw [otherWatch, List.getD_cons_zero, if_neg ha, hlit.resolve_left (Ne.symm ha)]

theorem otherWatch_mem (hlit : lit ∈ literals.take 2) (hlength : 2 ≤ literals.length) :
  otherWatch literals lit ∈ literals.take 2
  := by
  obtain ⟨rest, h | h⟩ := exists_watched hlit hlength
  · generalize otherWatch literals lit = other at h ⊢
    subst h
    exact List.mem_cons_of_mem _ List.mem_cons_self
  · generalize otherWatch literals lit = other at h ⊢
    subst h
    exact List.mem_cons_self

theorem otherWatch_ne (hlit : lit ∈ literals.take 2) (hlength : 2 ≤ literals.length)
    (hnodup : literals.Nodup) :
  otherWatch literals lit ≠ lit
  := by
  intro heq
  obtain ⟨rest, h | h⟩ := exists_watched hlit hlength <;>
  · rw [h, heq] at hnodup
    exact (List.nodup_cons.mp hnodup).1 List.mem_cons_self

/-- A literal of the clause is one of the two watches or comes after them. -/
theorem mem_watched_or_drop {x : Lit} (hlit : lit ∈ literals.take 2)
    (hlength : 2 ≤ literals.length) (hx : x ∈ literals) :
  x = lit ∨ x = otherWatch literals lit ∨ x ∈ literals.drop 2
  := by
  obtain ⟨rest, h | h⟩ := exists_watched hlit hlength
  · generalize otherWatch literals lit = other at h ⊢
    subst h
    rwa [List.mem_cons, List.mem_cons] at hx
  · generalize otherWatch literals lit = other at h ⊢
    subst h
    rw [List.mem_cons, List.mem_cons] at hx
    exact or_left_comm.mp hx

/-- In a binary clause the blocking literal is the other watch. -/
theorem eq_or_eq_of_binary {blit x : Lit} (hlit : lit ∈ literals.take 2)
    (hlength : literals.length = 2) (hblit : blit ∈ literals) (hne : blit ≠ lit)
    (hx : x ∈ literals) :
  x = lit ∨ x = blit
  := by
  have hdrop : literals.drop 2 = [] := List.drop_eq_nil_of_le hlength.le
  have hcases {y : Lit} (hy : y ∈ literals) : y = lit ∨ y = otherWatch literals lit := by
    obtain heq | heq | hy := mem_watched_or_drop hlit hlength.ge hy
    · exact Or.inl heq
    · exact Or.inr heq
    · rw [hdrop] at hy
      cases hy
  rw [(hcases hblit).resolve_left hne]
  exact hcases hx

theorem getD_mem_drop (lit : Lit) (hk : 2 ≤ k) (hlt : k < literals.length) :
  literals.getD k lit ∈ literals.drop 2
  := by
  rw [List.getD_eq_getElem _ _ hlt, List.mem_iff_getElem]
  refine ⟨k - 2, by rw [List.length_drop]; omega, ?_⟩
  rw [List.getElem_drop]
  congr 1
  omega

theorem not_mem_watched_of_mem_drop {x : Lit} (hnodup : literals.Nodup)
    (hx : x ∈ literals.drop 2) :
  x ∉ literals.take 2
  := by
  intro htake
  rw [← List.take_append_drop 2 literals] at hnodup
  exact (List.nodup_append'.mp hnodup).2.2 htake hx

/-- The new order, when the literal at position `k` is watched instead of `lit`. -/
theorem replaceWatch_eq (hlit : lit ∈ literals.take 2) (hk : 2 ≤ k) (hlt : k < literals.length) :
  replaceWatch literals lit (otherWatch literals lit) k
    = otherWatch literals lit :: literals.getD k lit :: (literals.drop 2).set (k - 2) lit
  := by
  obtain ⟨k, rfl⟩ := Nat.exists_eq_add_of_le' hk
  generalize otherWatch literals lit = other
  rw [replaceWatch]
  obtain _ | ⟨a, _ | ⟨b, rest⟩⟩ := literals
  · exact absurd hlt (by simp)
  · exact absurd hlt (by simp)
  · rfl

theorem replaceWatch_perm (hlit : lit ∈ literals.take 2) (hk : 2 ≤ k)
    (hlt : k < literals.length) :
  (replaceWatch literals lit (otherWatch literals lit) k).Perm literals
  := by
  rw [replaceWatch_eq hlit hk hlt]
  have hlt' : k - 2 < (literals.drop 2).length := by
    rw [List.length_drop]
    omega
  have hget : (literals.drop 2)[k - 2] = literals.getD k lit := by
    rw [List.getElem_drop, List.getD_eq_getElem _ _ hlt]
    congr 1
    omega
  have hset : ((literals.drop 2).set (k - 2) lit).Perm
      (lit :: (literals.drop 2).eraseIdx (k - 2)) := List.set_perm_cons_eraseIdx hlt' lit
  have hdrop : (literals.getD k lit :: (literals.drop 2).eraseIdx (k - 2)).Perm
      (literals.drop 2) := by
    rw [← hget]
    exact List.getElem_cons_eraseIdx_perm hlt'
  have hswap : (otherWatch literals lit :: lit :: literals.drop 2).Perm literals := by
    obtain ⟨rest, h | h⟩ := exists_watched hlit (hk.trans hlt.le)
    · nth_rewrite 2 [h]
      nth_rewrite 3 [h]
      exact List.Perm.swap _ _ _
    · nth_rewrite 2 [h]
      nth_rewrite 3 [h]
      rfl
  calc otherWatch literals lit :: literals.getD k lit :: (literals.drop 2).set (k - 2) lit
    _ |>.Perm (otherWatch literals lit :: literals.getD k lit
          :: lit :: (literals.drop 2).eraseIdx (k - 2)) := (hset.cons _).cons _
    _ |>.Perm (otherWatch literals lit :: lit
          :: literals.getD k lit :: (literals.drop 2).eraseIdx (k - 2)) :=
        (List.Perm.swap _ _ _).cons _
    _ |>.Perm (otherWatch literals lit :: lit :: literals.drop 2) := (hdrop.cons _).cons _
    _ |>.Perm literals := hswap

theorem mem_take_replaceWatch (hlit : lit ∈ literals.take 2) (hk : 2 ≤ k)
    (hlt : k < literals.length) (hnodup : literals.Nodup) (x : Lit) :
  x ∈ (replaceWatch literals lit (otherWatch literals lit) k).take 2
    ↔ x ∈ literals.take 2 ∧ x ≠ lit ∨ x = literals.getD k lit
  := by
  have hne := otherWatch_ne hlit (hk.trans hlt.le) hnodup
  have htake : ∀ y, y ∈ literals.take 2 ↔ y = lit ∨ y = otherWatch literals lit := by
    intro y
    obtain ⟨rest, h | h⟩ := exists_watched hlit (hk.trans hlt.le)
    · nth_rewrite 1 [h]
      simp
    · nth_rewrite 1 [h]
      simp [or_comm]
  rw [replaceWatch_eq hlit hk hlt, htake]
  simp only [List.take_succ_cons, List.take_zero, List.mem_cons, List.not_mem_nil, or_false]
  constructor
  · rintro (rfl | rfl)
    · exact Or.inl ⟨Or.inr rfl, hne⟩
    · exact Or.inr rfl
  · rintro (⟨rfl | rfl, hx⟩ | rfl)
    · exact absurd rfl hx
    · exact Or.inl rfl
    · exact Or.inr rfl

theorem findIdx_drop {l : List Lit} {p : Lit → Bool} {n j : Nat}
    (h : (l.drop n).findIdx? p = some j) (d : Lit) :
  n + j < l.length ∧ p (l.getD (n + j) d) = true
  := by
  obtain ⟨hlt, hp, -⟩ := List.findIdx?_eq_some_iff_getElem.mp h
  rw [List.length_drop] at hlt
  have hlt' : n + j < l.length := by omega
  refine ⟨hlt', ?_⟩
  rwa [List.getD_eq_getElem _ _ hlt', ← List.getElem_drop]

end Cdcl

/-! ### The lists of watches -/

/-- The watches are those of watched literals, once for each clause, and no live clause lacks
one. -/
structure WatchTable (lits : Nat → List Lit) (allocated live : Nat → Prop)
    (wtab : Lit → List Watch) : Prop where
  live_ : ∀ c, live c → allocated c
  clause : ∀ lit, ∀ w ∈ wtab lit, allocated w.clause
  size : ∀ lit, ∀ w ∈ wtab lit, w.size = (lits w.clause).length
  watched : ∀ lit, ∀ w ∈ wtab lit, lit ∈ (lits w.clause).take 2
  blit : ∀ lit, ∀ w ∈ wtab lit, w.blit ∈ lits w.clause ∧ w.blit ≠ lit
  nodup : ∀ lit, ((wtab lit).map Watch.clause).Nodup
  exists_ : ∀ c, live c → ∀ lit ∈ (lits c).take 2, c ∈ (wtab lit).map Watch.clause

namespace WatchTable

variable {lits lits' : Nat → List Lit} {allocated allocated' live live' : Nat → Prop}
  {wtab : Lit → List Watch} {lit r : Lit} {w w' : Watch} {pre post ws : List Watch} {c : Nat}
  {new : List Lit}

/-- Without live clauses there need not be any watch. -/
theorem empty (hlive : ∀ c, ¬ live c) :
  WatchTable lits allocated live (fun _ => [])
  where
    live_ := fun c hc => absurd hc (hlive c)
    clause := fun _ => List.forall_mem_nil _
    size := fun _ => List.forall_mem_nil _
    watched := fun _ => List.forall_mem_nil _
    blit := fun _ => List.forall_mem_nil _
    nodup := fun _ => List.nodup_nil
    exists_ := fun c hc => absurd hc (hlive c)

/-- The watched literals of the clauses are the same, and fewer clauses are live. -/
theorem reorder (h : WatchTable lits allocated live wtab)
    (hperm : ∀ c, allocated c → (lits' c).Perm (lits c))
    (hwatched : ∀ c, allocated c → ∀ k, k ∈ (lits' c).take 2 ↔ k ∈ (lits c).take 2)
    (hallocated : ∀ c, allocated c → allocated' c) (hlive : ∀ c, live' c → live c) :
  WatchTable lits' allocated' live' wtab
  where
    live_ := fun c hc => hallocated c (h.live_ c (hlive c hc))
    clause := fun k v hv => hallocated _ (h.clause k v hv)
    size := fun k v hv =>
      (h.size k v hv).trans (hperm v.clause (h.clause k v hv)).length_eq.symm
    watched := fun k v hv => (hwatched v.clause (h.clause k v hv) k).mpr (h.watched k v hv)
    blit := fun k v hv =>
      ⟨(hperm v.clause (h.clause k v hv)).symm.subset (h.blit k v hv).1, (h.blit k v hv).2⟩
    nodup := h.nodup
    exists_ := fun c hc k hk =>
      h.exists_ c (hlive c hc) k ((hwatched c (h.live_ c (hlive c hc)) k).mp hk)

theorem congr (h : WatchTable lits allocated live wtab)
    (hlits : ∀ c, allocated c → lits' c = lits c) (hallocated : ∀ c, allocated c → allocated' c)
    (hlive : ∀ c, live' c → live c) :
  WatchTable lits' allocated' live' wtab
  := by
  apply h.reorder _ _ hallocated hlive
  · intro c hc
    rw [hlits c hc]
  · intro c hc k
    rw [hlits c hc]

/-- A watch stays, perhaps with another blocking literal. -/
theorem keep (h : WatchTable lits allocated live (Function.update wtab lit (pre ++ w :: post)))
    (hclause : w'.clause = w.clause) (hsize : w'.size = w.size)
    (hblit : w'.blit ∈ lits w.clause ∧ w'.blit ≠ lit) :
  WatchTable lits allocated live (Function.update wtab lit (pre ++ w' :: post))
  := by
  have hmap : ∀ k, (Function.update wtab lit (pre ++ w' :: post) k).map Watch.clause
      = (Function.update wtab lit (pre ++ w :: post) k).map Watch.clause := by
    intro k
    by_cases hk : k = lit
    · subst hk
      rw [Function.update_self, Function.update_self, List.map_append, List.map_append,
        List.map_cons, List.map_cons, hclause]
    · rw [Function.update_of_ne hk, Function.update_of_ne hk]
  have hself : w ∈ Function.update wtab lit (pre ++ w :: post) lit := by
    rw [Function.update_self]
    exact List.mem_append_right _ List.mem_cons_self
  have hmem : ∀ k v, v ∈ Function.update wtab lit (pre ++ w' :: post) k →
      v ∈ Function.update wtab lit (pre ++ w :: post) k ∨ k = lit ∧ v = w' := by
    intro k v hv
    by_cases hk : k = lit
    · subst hk
      rw [Function.update_self] at hv ⊢
      obtain hv | hv := List.mem_append.mp hv
      · exact Or.inl (List.mem_append_left _ hv)
      · obtain rfl | hv := List.mem_cons.mp hv
        · exact Or.inr ⟨rfl, rfl⟩
        · exact Or.inl (List.mem_append_right _ (List.mem_cons_of_mem _ hv))
    · rw [Function.update_of_ne hk] at hv ⊢
      exact Or.inl hv
  refine ⟨h.live_, ?_, ?_, ?_, ?_, ?_, ?_⟩
  · intro k v hv
    obtain hv | ⟨rfl, rfl⟩ := hmem k v hv
    · exact h.clause k v hv
    · rw [hclause]
      exact h.clause k w hself
  · intro k v hv
    obtain hv | ⟨rfl, rfl⟩ := hmem k v hv
    · exact h.size k v hv
    · rw [hclause, hsize]
      exact h.size k w hself
  · intro k v hv
    obtain hv | ⟨rfl, rfl⟩ := hmem k v hv
    · exact h.watched k v hv
    · rw [hclause]
      exact h.watched k w hself
  · intro k v hv
    obtain hv | ⟨rfl, rfl⟩ := hmem k v hv
    · exact h.blit k v hv
    · rw [hclause]
      exact hblit
  · intro k
    rw [hmap]
    exact h.nodup k
  · intro c' hc' k hk
    rw [hmap]
    exact h.exists_ c' hc' k hk

/-- The watches of a list that are not those of the clause. -/
theorem mem_others
    (h : WatchTable lits allocated live (Function.update wtab lit (pre ++ w :: post))) (v : Watch) :
  v ∈ pre ++ post ↔ v ∈ pre ++ w :: post ∧ v.clause ≠ w.clause
  := by
  have hnodup := h.nodup lit
  rw [Function.update_self] at hnodup
  have hperm : ((w :: (pre ++ post)).map Watch.clause).Nodup :=
    (List.perm_middle.map Watch.clause).nodup_iff.mp hnodup
  rw [List.map_cons, List.nodup_cons] at hperm
  rw [List.perm_middle.mem_iff, List.mem_cons]
  constructor
  · intro hv
    refine ⟨Or.inr hv, ?_⟩
    intro heq
    exact hperm.1 (heq ▸ List.mem_map_of_mem hv)
  · rintro ⟨rfl | hv, hne⟩
    · exact absurd rfl hne
    · exact hv

/-- Watches of clauses that are not live are removed. -/
theorem remove {wtab' : Lit → List Watch} (h : WatchTable lits allocated live wtab)
    (hsublist : ∀ k, (wtab' k).Sublist (wtab k))
    (hallocated : ∀ k, ∀ v ∈ wtab' k, allocated' v.clause)
    (hlive : ∀ c, live' c → live c ∧ allocated' c)
    (hkeep : ∀ k, ∀ v ∈ wtab k, live' v.clause → v ∈ wtab' k) :
  WatchTable lits allocated' live' wtab'
  where
    live_ := fun c hc => (hlive c hc).2
    clause := hallocated
    size := fun k v hv => h.size k v ((hsublist k).subset hv)
    watched := fun k v hv => h.watched k v ((hsublist k).subset hv)
    blit := fun k v hv => h.blit k v ((hsublist k).subset hv)
    nodup := fun k => (h.nodup k).sublist ((hsublist k).map Watch.clause)
    exists_ := by
      intro c hc k hk
      obtain ⟨v, hv, rfl⟩ := List.mem_map.mp (h.exists_ c (hlive c hc).1 k hk)
      exact List.mem_map_of_mem (hkeep k v hv hc)

/-- The watch of a garbage clause is dropped. -/
theorem drop (h : WatchTable lits allocated live (Function.update wtab lit (pre ++ w :: post)))
    (hgarbage : ¬ live w.clause) :
  WatchTable lits allocated live (Function.update wtab lit (pre ++ post))
  := by
  have hsublist : ∀ k, (Function.update wtab lit (pre ++ post) k).Sublist
      (Function.update wtab lit (pre ++ w :: post) k) := by
    intro k
    by_cases hk : k = lit
    · subst hk
      rw [Function.update_self, Function.update_self]
      exact (List.sublist_cons_self w post).append_left pre
    · rw [Function.update_of_ne hk, Function.update_of_ne hk]
  apply h.remove hsublist
  · exact fun k v hv => h.clause k v ((hsublist k).subset hv)
  · exact fun c hc => ⟨hc, h.live_ c hc⟩
  · intro k v hv hlive
    by_cases hk : k = lit
    · subst hk
      rw [Function.update_self] at hv ⊢
      apply (h.mem_others v).mpr
      refine ⟨hv, ?_⟩
      intro heq
      exact hgarbage (heq ▸ hlive)
    · rwa [Function.update_of_ne hk] at hv ⊢

/-- The literal `r` of the clause is watched instead of `lit`. -/
theorem move (h : WatchTable lits allocated live wtab) (lit r : Lit) {blit : Lit}
    (ws : List Watch) (hws : ∀ v, v ∈ ws ↔ v ∈ wtab lit ∧ v.clause ≠ c)
    (hnodup : (ws.map Watch.clause).Nodup) (hc : allocated c) (hperm : new.Perm (lits c))
    (hwatched : ∀ k, k ∈ new.take 2 ↔ k ∈ (lits c).take 2 ∧ k ≠ lit ∨ k = r)
    (hr : r ∉ (lits c).take 2) (hne : r ≠ lit) (hblit : blit ∈ lits c ∧ blit ≠ r) :
  WatchTable (Function.update lits c new) allocated live
    (Function.update (Function.update wtab lit ws) r (wtab r ++ [⟨c, blit, new.length⟩]))
  := by
  have hmem : ∀ k v, v ∈ Function.update (Function.update wtab lit ws) r
        (wtab r ++ [⟨c, blit, new.length⟩]) k →
      (v ∈ wtab k ∧ ¬ (k = lit ∧ v.clause = c)) ∨ k = r ∧ v = ⟨c, blit, new.length⟩ := by
    intro k v hv
    by_cases hkr : k = r
    · subst hkr
      rw [Function.update_self] at hv
      obtain hv | hv := List.mem_append.mp hv
      · exact Or.inl ⟨hv, fun heq => hne heq.1⟩
      · exact Or.inr ⟨rfl, List.mem_singleton.mp hv⟩
    · rw [Function.update_of_ne hkr] at hv
      left
      by_cases hk : k = lit
      · subst hk
        rw [Function.update_self] at hv
        obtain ⟨hv, hvc⟩ := (hws v).mp hv
        exact ⟨hv, fun heq => hvc heq.2⟩
      · rw [Function.update_of_ne hk] at hv
        exact ⟨hv, fun heq => hk heq.1⟩
  have hlits : Function.update lits c new c = new := Function.update_self _ _ _
  have hother {c' : Nat} (heq : c' ≠ c) : Function.update lits c new c' = lits c' :=
    Function.update_of_ne heq _ _
  have hperms : ∀ c', (Function.update lits c new c').Perm (lits c') := by
    intro c'
    by_cases heq : c' = c
    · subst heq
      rwa [hlits]
    · rw [hother heq]
  refine ⟨h.live_, ?_, ?_, ?_, ?_, ?_, ?_⟩
  · intro k v hv
    obtain ⟨hv, -⟩ | ⟨rfl, rfl⟩ := hmem k v hv
    · exact h.clause k v hv
    · exact hc
  · intro k v hv
    obtain ⟨hv, -⟩ | ⟨rfl, rfl⟩ := hmem k v hv
    · exact (h.size k v hv).trans (hperms v.clause).length_eq.symm
    · rw [hlits]
  · intro k v hv
    obtain ⟨hv, hnot⟩ | ⟨rfl, rfl⟩ := hmem k v hv
    · have hold := h.watched k v hv
      by_cases heq : v.clause = c
      · rw [heq] at hold ⊢
        rw [hlits, hwatched]
        exact Or.inl ⟨hold, fun hk => hnot ⟨hk, heq⟩⟩
      · rwa [hother heq]
    · rw [hlits]
      exact (hwatched k).mpr (Or.inr rfl)
  · intro k v hv
    rw [(hperms v.clause).mem_iff]
    obtain ⟨hv, -⟩ | ⟨rfl, rfl⟩ := hmem k v hv
    · exact h.blit k v hv
    · exact hblit
  · intro k
    by_cases hkr : k = r
    · subst hkr
      rw [Function.update_self, List.map_append, List.map_singleton]
      apply List.Nodup.append (h.nodup k) (List.nodup_singleton _)
      rw [List.disjoint_singleton]
      intro hmem
      obtain ⟨v, hv, rfl⟩ := List.mem_map.mp hmem
      exact hr (h.watched k v hv)
    · rw [Function.update_of_ne hkr]
      by_cases hk : k = lit
      · subst hk
        rwa [Function.update_self]
      · rw [Function.update_of_ne hk]
        exact h.nodup k
  · intro c' hc' k hk
    have hkeep : k ∈ (lits c').take 2 → (c' = c → k ≠ lit ∧ k ≠ r) →
        c' ∈ (Function.update (Function.update wtab lit ws) r
          (wtab r ++ [⟨c, blit, new.length⟩]) k).map Watch.clause := by
      intro hkw hnot
      obtain ⟨v, hv, rfl⟩ := List.mem_map.mp (h.exists_ c' hc' k hkw)
      apply List.mem_map_of_mem
      by_cases hkr : k = r
      · subst hkr
        rw [Function.update_self]
        exact List.mem_append_left _ hv
      · rw [Function.update_of_ne hkr]
        by_cases hkl : k = lit
        · subst hkl
          rw [Function.update_self, hws]
          exact ⟨hv, fun heq => (hnot heq).1 rfl⟩
        · rwa [Function.update_of_ne hkl]
    by_cases heq : c' = c
    · subst heq
      rw [hlits] at hk
      obtain ⟨hkw, hkl⟩ | rfl := (hwatched k).mp hk
      · apply hkeep hkw
        intro _
        refine ⟨hkl, ?_⟩
        rintro rfl
        exact hr hkw
      · rw [Function.update_self, List.map_append]
        exact List.mem_append_right _ (List.mem_singleton_self _)
    · rw [hother heq] at hk
      exact hkeep hk (fun heq' => absurd heq' heq)

/-- A new clause `c` is watched by its first two literals. -/
theorem watchClause (h : WatchTable lits allocated live wtab) {l₀ l₁ : Lit} {rest : List Lit}
    (hlits : lits c = l₀ :: l₁ :: rest) (hne : l₀ ≠ l₁) (hnew : ¬ allocated c)
    (hallocated : ∀ c', allocated c' → allocated' c') (hc : allocated' c)
    (hlive : ∀ c', live' c' → c' = c ∨ live c') :
  WatchTable lits allocated' live'
    (Function.update (Function.update wtab l₀ (wtab l₀ ++ [⟨c, l₁, (lits c).length⟩])) l₁
      (wtab l₁ ++ [⟨c, l₀, (lits c).length⟩]))
  := by
  have hmem : ∀ k v, v ∈ Function.update
        (Function.update wtab l₀ (wtab l₀ ++ [⟨c, l₁, (lits c).length⟩])) l₁
        (wtab l₁ ++ [⟨c, l₀, (lits c).length⟩]) k →
      v ∈ wtab k ∨ v.clause = c ∧ v.size = (lits c).length
        ∧ (k = l₀ ∧ v.blit = l₁ ∨ k = l₁ ∧ v.blit = l₀) := by
    intro k v hv
    by_cases hk₁ : k = l₁
    · subst hk₁
      rw [Function.update_self, List.mem_append, List.mem_singleton] at hv
      obtain hv | rfl := hv
      · exact Or.inl hv
      · exact Or.inr ⟨rfl, rfl, Or.inr ⟨rfl, rfl⟩⟩
    · rw [Function.update_of_ne hk₁] at hv
      by_cases hk₀ : k = l₀
      · subst hk₀
        rw [Function.update_self, List.mem_append, List.mem_singleton] at hv
        obtain hv | rfl := hv
        · exact Or.inl hv
        · exact Or.inr ⟨rfl, rfl, Or.inl ⟨rfl, rfl⟩⟩
      · rw [Function.update_of_ne hk₀] at hv
        exact Or.inl hv
  have htake : (lits c).take 2 = [l₀, l₁] := by
    rw [hlits]
    rfl
  refine ⟨?_, ?_, ?_, ?_, ?_, ?_, ?_⟩
  · intro c' hc'
    obtain rfl | hold := hlive c' hc'
    · exact hc
    · exact hallocated c' (h.live_ c' hold)
  · intro k v hv
    obtain hv | ⟨rfl, -⟩ := hmem k v hv
    · exact hallocated _ (h.clause k v hv)
    · exact hc
  · intro k v hv
    obtain hv | ⟨rfl, heq, -⟩ := hmem k v hv
    · exact h.size k v hv
    · exact heq
  · intro k v hv
    obtain hv | ⟨rfl, -, hk⟩ := hmem k v hv
    · exact h.watched k v hv
    · rw [htake, List.mem_cons, List.mem_singleton]
      exact hk.imp And.left And.left
  · intro k v hv
    obtain hv | ⟨rfl, -, ⟨rfl, heq⟩ | ⟨rfl, heq⟩⟩ := hmem k v hv
    · exact h.blit k v hv
    · rw [heq, hlits]
      exact ⟨List.mem_cons_of_mem k List.mem_cons_self, hne.symm⟩
    · rw [heq, hlits]
      exact ⟨List.mem_cons_self, hne⟩
  · have happend (lit blit : Lit) :
        ((wtab lit ++ [(⟨c, blit, (lits c).length⟩ : Watch)]).map Watch.clause).Nodup := by
      rw [List.map_append, List.map_singleton]
      apply List.Nodup.append (h.nodup lit) (List.nodup_singleton _)
      rw [List.disjoint_singleton]
      intro hcmem
      obtain ⟨v, hv, rfl⟩ := List.mem_map.mp hcmem
      exact hnew (h.clause lit v hv)
    intro k
    by_cases hk₁ : k = l₁
    · subst hk₁
      rw [Function.update_self]
      exact happend k l₀
    · rw [Function.update_of_ne hk₁]
      by_cases hk₀ : k = l₀
      · subst hk₀
        rw [Function.update_self]
        exact happend k l₁
      · rw [Function.update_of_ne hk₀]
        exact h.nodup k
  · intro c' hc' k hk
    have hold : c' = c ∨ c' ∈ (wtab k).map Watch.clause :=
      (hlive c' hc').imp_right (fun hl => h.exists_ c' hl k hk)
    by_cases hk₁ : k = l₁
    · subst hk₁
      rw [Function.update_self, List.map_append, List.mem_append, List.map_singleton,
        List.mem_singleton]
      exact hold.symm
    · rw [Function.update_of_ne hk₁]
      by_cases hk₀ : k = l₀
      · subst hk₀
        rw [Function.update_self, List.map_append, List.mem_append, List.map_singleton,
          List.mem_singleton]
        exact hold.symm
      · rw [Function.update_of_ne hk₀]
        apply hold.resolve_left
        rintro rfl
        rw [htake, List.mem_cons, List.mem_singleton] at hk
        exact hk.elim hk₀ hk₁

end WatchTable

end Cadical
