import Mathlib.Order.Nat
import Mathlib.Data.List.MinMax
import IgnoreGates.CnfTools.CNFFormula

/-!
# The members of a formula

`Members` holds what `CNFFormula` stores, without the normal form that `readClause`
establishes.  Over it the methods of `CNFFormula` that rewrite clauses in place are given as
they are written: `readClause` compacts the sorted literals with two iterators, and
`normalizeVariableNames` hands out new names while it rewrites the clauses.  The first is
shown to be the `readClause` of `CNFFormula`.
-/

namespace CnfTools

/-- The member variables of `CNFFormula`: the clauses and what `nVars` returns. -/
structure Members where
  formula : List Cl
  nVars : Nat
  deriving DecidableEq

/-- What a formula stores. -/
def CNFFormula.members (F : CNFFormula) : Members :=
  ⟨F.formula, F.nVars⟩

/-- The clause contains a literal and its complement. -/
def Cl.Tautological (c : Cl) : Prop :=
  ∃ l ∈ c, ~~~l ∈ c

instance (c : Cl) : Decidable c.Tautological :=
  inferInstanceAs (Decidable (∃ l ∈ c, ~~~l ∈ c))

/-! ### Which lists of literals are stored -/

namespace CNFFormula

/-- The loop of `readClause` returns early only on a literal and its complement. -/
theorem tautological_of_compress {it : Lit} {lits : List Lit} (h : compress it lits = none) :
  Cl.Tautological (it :: lits)
  := by
  induction lits generalizing it with
  | nil => cases h
  | cons jt rest ih =>
      rw [compress] at h
      split at h
      · next hne =>
          split at h
          · next hvar =>
              obtain heq | heq := Logic.Literal.eq_or_eq_neg (L := Lit) hvar
              · exact absurd heq hne
              · refine ⟨jt, by simp, ?_⟩
                rw [heq]
                apply List.mem_cons_self
          · obtain ⟨l, hl, hl'⟩ := ih (Option.map_eq_none_iff.mp h)
            exact ⟨l, List.mem_cons_of_mem _ hl, List.mem_cons_of_mem _ hl'⟩
      · next heq =>
          rw [not_not] at heq
          subst heq
          obtain ⟨l, hl, hl'⟩ := ih h
          exact ⟨l, List.mem_cons_of_mem _ hl, List.mem_cons_of_mem _ hl'⟩

/-- `readClause` stores nothing for the lists with a literal and its complement, and only
for them. -/
theorem sanitize_eq_none_iff {lits : List Lit} :
  sanitize lits = none ↔ Cl.Tautological lits
  := by
  have hmem : ∀ l, l ∈ lits.insertionSort (· ≤ ·) ↔ l ∈ lits :=
    fun l => (List.perm_insertionSort _ lits).mem_iff
  constructor
  · intro h
    rw [sanitize] at h
    split at h
    · cases h
    · next it rest hcons =>
        obtain ⟨l, hl, hl'⟩ := tautological_of_compress h
        rw [← hcons, hmem] at hl hl'
        exact ⟨l, hl, hl'⟩
  · rintro ⟨l, hl, hl'⟩
    cases hc : sanitize lits with
    | none => rfl
    | some c =>
        obtain ⟨hcan, hsame⟩ := sanitize_spec hc
        exact absurd ((hsame _).mpr hl') (hcan.compl_not_mem ((hsame l).mpr hl))

end CNFFormula

/-! ### The loop of `readClause` in place -/

namespace Members

open CNFFormula

/-- The loop of `readClause`: `it` is the position of the last literal kept, `jt` the position
the loop has reached, `dup` counts the literals that repeat the last one kept.  `none` is the
early return on a tautology. -/
def compact (clause : Cl) (it jt dup : Nat) : Option (Cl × Nat) :=
  if jt < clause.length then
    if clause.getD it litUndef ≠ clause.getD jt litUndef then
      if (clause.getD it litUndef).var = (clause.getD jt litUndef).var then none
      else compact (clause.set (it + 1) (clause.getD jt litUndef)) (it + 1) (jt + 1) dup
    else
      compact clause it (jt + 1) (dup + 1)
  else
    some (clause, dup)
  termination_by clause.length - jt
  decreasing_by
    · rw [List.length_set]
      omega
    · omega

/-- `clause->resize(clause->size() - dup)`. -/
def shrink (p : Cl × Nat) : Cl :=
  p.1.take (p.1.length - p.2)

/-- Writing the literal the loop has reached behind the last literal kept moves it in front of
the literals that were passed over. -/
theorem set_kept (kept junk rest : List Lit) (a b : Lit) :
  ∃ junk', junk'.length = junk.length
    ∧ (kept ++ a :: (junk ++ b :: rest)).set (kept.length + 1) b
      = (kept ++ [a]) ++ b :: (junk' ++ rest)
  := by
  cases junk with
  | nil =>
      refine ⟨[], rfl, ?_⟩
      rw [List.set_append_right _ _ (Nat.le_succ _)]
      simp
  | cons c junk =>
      refine ⟨junk ++ [b], by simp, ?_⟩
      rw [List.set_append_right _ _ (Nat.le_succ _)]
      simp

/-- What the loop of `readClause` leaves in place: the literals kept so far, and what
`compress` keeps of the others. -/
theorem compact_eq_compress (kept junk rest : List Lit) (a : Lit) :
  (compact (kept ++ a :: (junk ++ rest)) kept.length (kept.length + 1 + junk.length)
      junk.length).map shrink
    = (compress a rest).map (kept ++ ·)
  := by
  induction rest generalizing kept junk a with
  | nil =>
      rw [compact, if_neg (by simp; omega), compress]
      simp only [Option.map_some, shrink, List.append_nil]
      have hlen : (kept ++ a :: junk).length - junk.length = (kept ++ [a]).length := by
        simp
        omega
      rw [hlen, List.append_cons kept a junk, List.take_left]
  | cons b rest ih =>
      have hlt : kept.length + 1 + junk.length < (kept ++ a :: (junk ++ b :: rest)).length := by
        simp
        omega
      have hit : (kept ++ a :: (junk ++ b :: rest)).getD kept.length litUndef = a := by
        simp
      have hjt : (kept ++ a :: (junk ++ b :: rest)).getD (kept.length + 1 + junk.length) litUndef
          = b := by
        rw [← List.cons_append, ← List.append_assoc, List.getD_append_right]
        · simp
          rw [show kept.length + 1 + junk.length - (kept.length + (junk.length + 1)) = 0 by omega]
          rfl
        · simp
          omega
      rw [compact, if_pos hlt, hit, hjt, compress]
      split
      · split
        · rfl
        · obtain ⟨junk', hlen, hset⟩ := set_kept kept junk rest a b
          have hih := ih (kept ++ [a]) junk' b
          rw [List.length_append, List.length_singleton, hlen] at hih
          rw [hset, show kept.length + 1 + junk.length + 1 = kept.length + 1 + 1 + junk.length
            by omega, hih, Option.map_map]
          congr 1
          funext c
          simp
      · have hih := ih kept (junk ++ [b]) a
        rw [List.length_append, List.length_singleton, List.append_assoc, List.singleton_append]
          at hih
        exact hih

/-- `readClause`. -/
def readClause (F : Members) (lits : List Lit) : Members :=
  let clause := lits.insertionSort (· ≤ ·)
  if clause.length > 0 then
    match compact clause 0 1 0 with
    | none => F
    | some p =>
        { formula := F.formula ++ [shrink p]
          nVars := raise F.nVars (shrink p) }
  else
    { F with formula := F.formula ++ [clause] }

/-- `readClauses`. -/
def readClauses (F : Members) (formula : List (List Lit)) : Members :=
  formula.foldl readClause F

/-- `CNFFormula()`. -/
def empty : Members :=
  ⟨[], 0⟩

/-- `readClause` stores what `sanitize` leaves of the literals. -/
theorem readClause_eq (F : Members) (lits : List Lit) :
  F.readClause lits = match sanitize lits with
    | none => F
    | some c => ⟨F.formula ++ [c], raise F.nVars c⟩
  := by
  rw [readClause, sanitize]
  cases hsort : lits.insertionSort (· ≤ ·) with
  | nil => rfl
  | cons it rest =>
      have hloop := compact_eq_compress [] [] rest it
      simp only [List.nil_append, List.length_nil, Nat.zero_add, Nat.add_zero,
        Option.map_id'] at hloop
      simp only [List.length_cons, gt_iff_lt, Nat.zero_lt_succ, ↓reduceIte]
      cases hcompact : compact (it :: rest) 0 1 0 with
      | none =>
          rw [hcompact] at hloop
          rw [← hloop]
          rfl
      | some p =>
          rw [hcompact] at hloop
          rw [← hloop]
          rfl

/-- The compaction in place and the `readClause` of `CNFFormula` store the same. -/
theorem members_readClause (F : CNFFormula) (lits : List Lit) :
  (F.readClause lits).members = F.members.readClause lits
  := by
  rw [readClause_eq, CNFFormula.readClause]
  split <;> next h => simp only [h] <;> rfl

/-! ### Sequences of calls -/

/-- The largest variable of the clauses, zero if there is none. -/
def largestVar (formula : List Cl) : Nat :=
  (formula.flatten.map Lit.var).foldr max 0

theorem var_le_largestVar {formula : List Cl} {c : Cl} (hc : c ∈ formula) {l : Lit} (hl : l ∈ c) :
  l.var ≤ largestVar formula
  := by
  apply List.le_max_of_le' 0 _ (Nat.le_refl _)
  apply List.mem_map_of_mem
  apply List.mem_flatten_of_mem hc hl

theorem largestVar_le {formula : List Cl} {n : Nat}
    (h : ∀ c ∈ formula, ∀ l ∈ c, l.var ≤ n) :
  largestVar formula ≤ n
  := by
  show List.foldr max ⊥ (formula.flatten.map Lit.var) ≤ n
  apply List.max_le_of_forall_le
  intro v hv
  obtain ⟨l, hl, rfl⟩ := List.mem_map.mp hv
  obtain ⟨c, hc, hlc⟩ := List.mem_flatten.mp hl
  exact h c hc l hlc

/-- The last literal of a stored clause is one of its largest variable. -/
theorem raise_le {n m : Nat} {c : Cl} (hn : n ≤ m) (h : ∀ l ∈ c, l.var ≤ m) :
  raise n c ≤ m
  := by
  rw [raise]
  split
  · exact hn
  · next l hl =>
      apply Nat.max_le.mpr
      exact ⟨hn, h l (List.mem_of_getLast? hl)⟩

/-- A stored clause raises the member variable to the largest variable. -/
theorem raise_largestVar (formula : List Cl) {c : Cl} (hc : Cl.Canonical c) :
  raise (largestVar formula) c = largestVar (formula ++ [c])
  := by
  apply le_antisymm
  · apply raise_le
    · apply largestVar_le
      intro d hd l hl
      apply var_le_largestVar (List.mem_append_left _ hd) hl
    · intro l hl
      apply var_le_largestVar (List.mem_append_right _ List.mem_cons_self) hl
  · apply largestVar_le
    intro d hd l hl
    obtain hd | hd := List.mem_append.mp hd
    · exact (var_le_largestVar hd hl).trans (le_raise _ _)
    · rw [List.mem_singleton.mp hd] at hl
      exact var_le_raise _ hc hl

/-- A sequence of calls of `readClause` appends what is left of the lists, in their order. -/
theorem readClauses_formula (F : Members) (calls : List (List Lit)) :
  (F.readClauses calls).formula = F.formula ++ calls.filterMap sanitize
  := by
  induction calls generalizing F with
  | nil => exact (List.append_nil _).symm
  | cons lits calls ih =>
      rw [readClauses, List.foldl_cons]
      apply (ih _).trans
      rw [readClause_eq, List.filterMap_cons]
      cases sanitize lits with
      | none => rfl
      | some c => simp

/-- A sequence of calls of `readClause` keeps the largest variable. -/
theorem readClauses_nVars {F : Members} (hF : F.nVars = largestVar F.formula)
    (calls : List (List Lit)) :
  (F.readClauses calls).nVars = largestVar (F.readClauses calls).formula
  := by
  induction calls generalizing F with
  | nil => exact hF
  | cons lits calls ih =>
      apply ih
      rw [readClause_eq]
      cases hc : sanitize lits with
      | none => exact hF
      | some c =>
          show raise F.nVars c = _
          rw [hF, raise_largestVar _ (sanitize_spec hc).1]

/-- The lists without a literal and its complement and what is left of them correspond. -/
theorem forall₂_sanitize (calls : List (List Lit)) :
  List.Forall₂ (fun lits c => Cl.Canonical c ∧ ∀ l, l ∈ c ↔ l ∈ lits)
    (calls.filter (fun lits => ¬ Cl.Tautological lits)) (calls.filterMap sanitize)
  := by
  induction calls with
  | nil => exact List.Forall₂.nil
  | cons lits calls ih =>
      rw [List.filterMap_cons]
      cases hc : sanitize lits with
      | none =>
          rw [List.filter_cons_of_neg]
          · exact ih
          · simpa using sanitize_eq_none_iff.mp hc
      | some c =>
          rw [List.filter_cons_of_pos]
          · exact List.Forall₂.cons (sanitize_spec hc) ih
          · rw [decide_eq_true_eq, ← sanitize_eq_none_iff, hc]
            exact Option.some_ne_none c

/-- A sequence of calls of `readClause` stores, in the order of the calls, for each list
without a literal and its complement one clause, which is strictly increasing and has the
literals of the list; the member variable is the largest variable stored. -/
theorem readClauses_canonicalises (calls : List (List Lit)) :
  List.Forall₂ (fun lits c => c.Pairwise (· < ·) ∧ ∀ l, l ∈ c ↔ l ∈ lits)
      (calls.filter (fun lits => ¬ Cl.Tautological lits)) (empty.readClauses calls).formula
    ∧ (empty.readClauses calls).nVars = largestVar (empty.readClauses calls).formula
  := by
  constructor
  · rw [readClauses_formula]
    apply (forall₂_sanitize calls).imp
    rintro lits c ⟨hcan, hmem⟩
    exact ⟨hcan.imp Lit.lt_of_var_lt, hmem⟩
  · apply readClauses_nVars
    rfl

end Members

end CnfTools
