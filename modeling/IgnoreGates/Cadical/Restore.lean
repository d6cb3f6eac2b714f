import IgnoreGates.Cadical.ExtensionStack

/-!
# Restoring clauses

New clauses and assumptions may contain complements of witness literals; these literals are
tainted.  Before the next call the removed clauses with such a witness are put back, which may
taint further literals, and satisfied clauses are dropped.  What stays on the extension stack
spares the new clauses.
-/

namespace Cadical

open Logic

namespace External

/-- The options that are read. -/
structure RestoreOptions where
  restoreall : Nat
  restoreflush : Bool

namespace Extension

/-- The end of `internalize`: a literal is tainted when its complement is a witness. -/
def internalize (s : Extension) (elit : Int) : Extension :=
  if elit ∉ s.tainted ∧ -elit ∈ s.witness then
    { s with tainted := insert elit s.tainted }
  else s

end Extension

/-! ### Restoring -/

/-- The witness is copied, and a witness literal whose complement is tainted is looked for. -/
def witnessLoop (tainted : Finset Int) :
    List Int → List Int → Int → Option (List Int × List Int × Int)
  | [], _, _ => none
  | elit :: p, q, tlit =>
      if elit = 0 then some (p, q ++ [elit], tlit)
      else witnessLoop tainted p (q ++ [elit]) (if -elit ∈ tainted then elit else tlit)

/-- The clause, what is behind it, and a literal that satisfies it on root level. -/
def endOfClause (fixed : Int → Int) : List Int → Int → List Int × List Int × Int
  | [], satisfied => ([], [], satisfied)
  | elit :: p, satisfied =>
      if elit = 0 then ([], elit :: p, satisfied)
      else
        let (clause, p, satisfied) :=
          endOfClause fixed p (if satisfied = 0 ∧ 0 < fixed elit then elit else satisfied)
        (elit :: clause, p, satisfied)

/-- The loop of `restore_clauses`, for a bounded number of entries: `p` is what has not been
read, `q` what has been copied, and `fixed` may depend on the clauses restored so far. -/
def restoreLoop (o : RestoreOptions) (fixed : List (List Int) → Int → Int) :
    Nat → List Int → List Int → Extension → List (List Int) →
      Option (List Int × Extension × List (List Int))
  | 0, _, _, _, _ => none
  | _ + 1, [], q, s, restored => some (q, s, restored)
  | n + 1, zero :: p, q, s, restored =>
      match witnessLoop s.tainted p (q ++ [zero]) 0 with
      | none => none
      | some (p, q', tlit) =>
          let (clause, p, satisfied) := endOfClause (fixed restored) p 0
          let satisfied := if o.restoreflush then satisfied else 0
          if satisfied ≠ 0 then
            restoreLoop o fixed n p q s restored
          else if tlit ≠ 0 ∨ o.restoreall ≠ 0 then
            restoreLoop o fixed n p q (clause.foldl Extension.internalize s) (restored ++ [clause])
          else
            restoreLoop o fixed n p (q' ++ clause) s restored

/-- The literals of a witness are marked. -/
def markLoop : List Int → Finset Int → Option (Finset Int × List Int)
  | [], _ => none
  | elit :: i, witness =>
      if elit = 0 then some (witness, i) else markLoop i (insert elit witness)

/-- The witness bits are computed from the array, read backward. -/
def witnessBits : Nat → List Int → Finset Int → Option (Finset Int)
  | 0, _, _ => none
  | n + 1, i, witness =>
      if i = [] then some witness
      else
        match skipLoop i with
        | none => none
        | some i =>
            match markLoop i witness with
            | none => none
            | some (witness, i) => witnessBits n i witness

/-- `External::restore_clauses`, and the clauses that are restored. -/
def restoreClauses (o : RestoreOptions) (fixed : List (List Int) → Int → Int) (s : Extension) :
    Option (Extension × List (List Int)) :=
  match restoreLoop o fixed (s.extension.length + 1) s.extension [] s [] with
  | none => none
  | some (extension, _, restored) =>
      match witnessBits (extension.length + 1) extension.reverse ∅ with
      | none => none
      | some witness => some (⟨extension, witness, ∅⟩, restored)

/-- `Internal::restore_clauses`: there may be nothing to restore. -/
def internalRestoreClauses (o : RestoreOptions) (fixed : List (List Int) → Int → Int)
    (s : Extension) : Option (Extension × List (List Int)) :=
  if o.restoreall ≤ 1 ∧ s.tainted = ∅ then some (s, []) else restoreClauses o fixed s

/-! ### The entries -/

/-- The literals of a clause. -/
def ints (c : List Lit) : List Int :=
  c.map Lit.int

/-- The entries that stay, the clauses that are restored, and the literals that are tainted in
the end, when the clauses `restored` have been restored before. -/
def restoreEntries (o : RestoreOptions) (fixed : List (List Int) → Int → Int) :
    List Entry → Extension → List (List Lit) → List Entry × List (List Lit) × Extension
  | [], s, restored => ([], restored, s)
  | e :: E, s, restored =>
      if o.restoreflush ∧ ∃ l ∈ e.clause, 0 < fixed (restored.map ints) l.int then
        restoreEntries o fixed E s restored
      else if (∃ l ∈ e.witness, -l.int ∈ s.tainted) ∨ o.restoreall ≠ 0 then
        restoreEntries o fixed E ((ints e.clause).foldl Extension.internalize s)
          (restored ++ [e.clause])
      else
        let (kept, restored, s) := restoreEntries o fixed E s restored
        (e :: kept, restored, s)

theorem witnessLoop_append (tainted : Finset Int) (w : List Lit) (p q : List Int) (tlit : Int) :
  ∃ tlit', witnessLoop tainted (w.map Lit.int ++ 0 :: p) q tlit
      = some (p, q ++ w.map Lit.int ++ [0], tlit')
    ∧ (tlit' ≠ 0 ↔ tlit ≠ 0 ∨ ∃ l ∈ w, -l.int ∈ tainted)
  := by
  induction w generalizing q tlit with
  | nil => exact ⟨tlit, by simp [witnessLoop], by simp⟩
  | cons l w ih =>
      obtain ⟨tlit', heq, hiff⟩ := ih (q ++ [l.int]) (if -l.int ∈ tainted then l.int else tlit)
      refine ⟨tlit', ?_, hiff.trans ?_⟩
      · rw [List.map_cons, List.cons_append, witnessLoop, if_neg l.ne_zero, heq]
        simp
      · by_cases hl : -l.int ∈ tainted
        · simp [hl, l.ne_zero]
        · simp [hl]

theorem endOfClause_append (fixed : Int → Int) (c : List Lit) {p : List Int}
    (hp : p = [] ∨ ∃ p', p = 0 :: p') (satisfied : Int) :
  ∃ satisfied', endOfClause fixed (c.map Lit.int ++ p) satisfied
      = (c.map Lit.int, p, satisfied')
    ∧ (satisfied' ≠ 0 ↔ satisfied ≠ 0 ∨ ∃ l ∈ c, 0 < fixed l.int)
  := by
  induction c generalizing satisfied with
  | nil =>
      refine ⟨satisfied, ?_, by simp⟩
      obtain rfl | ⟨p, rfl⟩ := hp
      · rfl
      · rfl
  | cons l c ih =>
      obtain ⟨satisfied', heq, hiff⟩ :=
        ih (if satisfied = 0 ∧ 0 < fixed l.int then l.int else satisfied)
      refine ⟨satisfied', ?_, hiff.trans ?_⟩
      · rw [List.map_cons, List.cons_append, endOfClause, if_neg l.ne_zero, heq]
      · by_cases hl : 0 < fixed l.int
        · by_cases hs : satisfied = 0
          · simp [hl, hs, l.ne_zero]
          · simp [hs]
        · simp [hl]

theorem flatten_cases (E : List Entry) :
  flatten E = [] ∨ ∃ p, flatten E = 0 :: p
  := by
  cases E with
  | nil => exact Or.inl rfl
  | cons e E => exact Or.inr ⟨_, flatten_cons e E⟩

/-- The loop copies the entries that stay, and restores the clauses of others. -/
theorem restoreLoop_flatten (o : RestoreOptions) (fixed : List (List Int) → Int → Int)
    (E kept : List Entry) {n : Nat} (hn : E.length < n) (s : Extension) (restored : List (List Lit)) :
  restoreLoop o fixed n (flatten E) (flatten kept) s (restored.map ints)
    = some (flatten (kept ++ (restoreEntries o fixed E s restored).1),
      (restoreEntries o fixed E s restored).2.2, (restoreEntries o fixed E s restored).2.1.map ints)
  := by
  induction E generalizing kept n s restored with
  | nil =>
      obtain ⟨n, rfl⟩ := Nat.exists_eq_succ_of_ne_zero (Nat.ne_of_gt hn)
      rw [restoreEntries, List.append_nil]
      rfl
  | cons e E ih =>
      obtain ⟨n, rfl⟩ := Nat.exists_eq_succ_of_ne_zero (Nat.ne_of_gt (Nat.zero_lt_of_lt hn))
      rw [List.length_cons] at hn
      have hlt : E.length < n := Nat.lt_of_succ_lt_succ hn
      obtain ⟨tlit, hwitness, htlit⟩ := witnessLoop_append s.tainted e.witness
        (e.clause.map Lit.int ++ flatten E) (flatten kept ++ [0]) 0
      obtain ⟨satisfied, hclause, hsatisfied⟩ := endOfClause_append (fixed (restored.map ints))
        e.clause (flatten_cases E) 0
      simp only [ne_eq, not_true_eq_false, false_or] at htlit hsatisfied
      rw [flatten_cons, restoreLoop, hwitness]
      simp only [hclause]
      rw [restoreEntries]
      have hflush : (if o.restoreflush = true then satisfied else 0) ≠ 0
          ↔ o.restoreflush = true ∧ ∃ l ∈ e.clause, 0 < fixed (restored.map ints) l.int := by
        rw [← hsatisfied]
        split
        · next h => simp [h]
        · next h => simp [h]
      by_cases hdrop : o.restoreflush = true ∧ ∃ l ∈ e.clause, 0 < fixed (restored.map ints) l.int
      · rw [if_pos (hflush.mpr hdrop), if_pos hdrop]
        exact ih kept hlt s restored
      · rw [if_neg (fun h => hdrop (hflush.mp h)), if_neg hdrop]
        by_cases hrestore : (∃ l ∈ e.witness, -l.int ∈ s.tainted) ∨ o.restoreall ≠ 0
        · rw [if_pos (hrestore.imp_left htlit.mpr), if_pos hrestore]
          have hmap : restored.map ints ++ [e.clause.map Lit.int]
              = (restored ++ [e.clause]).map ints := by
            rw [List.map_append]
            rfl
          rw [hmap]
          exact ih kept hlt _ (restored ++ [e.clause])
        · rw [if_neg (fun h => hrestore (h.imp_left htlit.mp)), if_neg hrestore]
          have hcopy : flatten kept ++ [0] ++ e.witness.map Lit.int ++ [0] ++ e.clause.map Lit.int
              = flatten (kept ++ [e]) := by
            rw [flatten_append]
            simp [flatten]
          have hkept := ih (kept ++ [e]) hlt s restored
          rw [hcopy, hkept, List.append_assoc, List.singleton_append]

theorem markLoop_append (w : List Lit) (i : List Int) (witness : Finset Int) :
  ∃ witness', markLoop (w.map Lit.int ++ 0 :: i) witness = some (witness', i)
    ∧ ∀ v, v ∈ witness' ↔ v ∈ witness ∨ ∃ l ∈ w, l.int = v
  := by
  induction w generalizing witness with
  | nil => exact ⟨witness, rfl, by simp⟩
  | cons l w ih =>
      obtain ⟨witness', heq, hiff⟩ := ih (insert l.int witness)
      refine ⟨witness', ?_, fun v => (hiff v).trans ?_⟩
      · rw [List.map_cons, List.cons_append, markLoop, if_neg l.ne_zero, heq]
      · simp only [Finset.mem_insert, List.exists_mem_cons_iff]
        tauto

/-- The witness bits are those of the entries. -/
theorem witnessBits_flatten (E : List Entry) {n : Nat} (hn : E.length < n) (witness : Finset Int) :
  ∃ witness', witnessBits n (flatten E).reverse witness = some witness'
    ∧ ∀ v, v ∈ witness' ↔ v ∈ witness ∨ ∃ e ∈ E, ∃ l ∈ e.witness, l.int = v
  := by
  induction E using List.reverseRecOn generalizing n witness with
  | nil =>
      obtain ⟨n, rfl⟩ := Nat.exists_eq_succ_of_ne_zero (Nat.ne_of_gt hn)
      exact ⟨witness, rfl, by simp⟩
  | append_singleton E e ih =>
      obtain ⟨n, rfl⟩ := Nat.exists_eq_succ_of_ne_zero (Nat.ne_of_gt (Nat.zero_lt_of_lt hn))
      rw [List.length_append, List.length_singleton] at hn
      obtain ⟨marked, hmark, hmarked⟩ :=
        markLoop_append e.witness.reverse (flatten E).reverse witness
      obtain ⟨witness', hbits, hiff⟩ := ih (Nat.lt_of_succ_lt_succ hn) marked
      refine ⟨witness', ?_, fun v => (hiff v).trans ?_⟩
      · rw [witnessBits, flatten_concat, if_neg (by simp), ← List.map_reverse, skipLoop_append]
        simp only
        rw [← List.map_reverse, hmark]
        exact hbits
      · simp only [hmarked, List.mem_reverse, List.mem_append, List.mem_singleton, or_and_right,
          exists_or, exists_eq_left]
        rw [or_assoc]
        exact or_congr_right or_comm

/-- `restore_clauses` never reads outside of the array; it leaves the entries that stay, with
exactly their witness literals marked. -/
theorem restoreClauses_flatten (o : RestoreOptions) (fixed : List (List Int) → Int → Int)
    {s : Extension} {E : List Entry} (h : s.extension = flatten E) :
  ∃ witness, restoreClauses o fixed s
      = some (⟨flatten (restoreEntries o fixed E s []).1, witness, ∅⟩,
        (restoreEntries o fixed E s []).2.1.map ints)
    ∧ ∀ v, v ∈ witness ↔ ∃ e ∈ (restoreEntries o fixed E s []).1, ∃ l ∈ e.witness, l.int = v
  := by
  have hloop := restoreLoop_flatten o fixed E [] (Nat.lt_succ_of_le (length_le_flatten E)) s []
  rw [List.nil_append] at hloop
  obtain ⟨witness, hbits, hiff⟩ := witnessBits_flatten (restoreEntries o fixed E s []).1
    (Nat.lt_succ_of_le (length_le_flatten _)) ∅
  refine ⟨witness, ?_, fun v => (hiff v).trans ?_⟩
  · have hflat : flatten [] = [] := rfl
    rw [hflat, List.map_nil] at hloop
    rw [restoreClauses, h, hloop]
    simp only [hbits]
  · simp

end External

end Cadical
