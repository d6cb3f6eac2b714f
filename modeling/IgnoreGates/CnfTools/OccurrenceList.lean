import Mathlib.Data.List.Nodup
import Mathlib.Logic.Function.Basic
import IgnoreGates.CnfTools.CNFFormula
import IgnoreGates.Logic.Definition

/-!
# Occurrence lists

`OccurrenceList` keeps the unit clauses in a list of their own and every other clause in
the list of each of its literals.  `remove` takes clauses out of all lists and
`estimateRoots` hands out the unit clauses or the clauses of the largest literal that still
occurs.

`Lists` says that the index lists exactly the clauses of a set `live` under their literals.
It holds after construction, `remove` keeps it for the smaller set, and on an index with
this property the scan of `remove` always finds its clause.
-/

namespace CnfTools

/-- How a run of the gate analysis can end without a result: the scan of `remove` passes the
end of a list, `within_limits_or_throw` throws, or the bound on the number of loop
iterations is used up. -/
inductive Fault where
  | outOfBounds
  | limitsExceeded
  | outOfFuel
  deriving DecidableEq, Repr

/-- `OccurrenceList`. -/
structure OccurrenceList where
  index : Lit → For
  unitc : For
  maxLiteral : Lit

/-- The lists of clauses, one for each literal. -/
abbrev Index := Lit → For

namespace OccurrenceList

/-! ### Construction -/

/-- The loop of the constructor over the literals of a clause. -/
def pushBack (p : Ptr) : Index → Cl → Index
  | index, [] => index
  | index, l :: c => pushBack p (Function.update index l (index l ++ [p])) c

/-- The body of the constructor's loop over the clauses. -/
def insert (F : CNFFormula) (ol : OccurrenceList) (p : Ptr) : OccurrenceList :=
  if (F.deref p).length = 1 then
    { ol with unitc := ol.unitc ++ [p] }
  else
    { ol with index := pushBack p ol.index (F.deref p) }

/-- The constructor of `OccurrenceList`. -/
def init (F : CNFFormula) : OccurrenceList :=
  F.pointers.foldl (insert F)
    { index := fun _ => [], unitc := [], maxLiteral := Lit.ofVar F.nVars true }

/-- `index.size()`. -/
def size (F : CNFFormula) : Nat :=
  2 + 2 * F.nVars

theorem pushBack_apply {p : Ptr} {c : Cl} (hc : c.Nodup) (index : Index) (l : Lit) :
  pushBack p index c l = if l ∈ c then index l ++ [p] else index l
  := by
  induction c generalizing index with
  | nil => rfl
  | cons k c ih =>
      obtain ⟨hk, hc⟩ := List.nodup_cons.mp hc
      rw [pushBack, ih hc]
      by_cases hkl : l = k
      · subst hkl
        rw [if_neg hk, if_pos List.mem_cons_self, Function.update_self]
      · rw [Function.update_of_ne hkl]
        simp [hkl]

/-- The pointers among `ps` to non-unit clauses with the literal `l`. -/
def occurrences (F : CNFFormula) (ps : For) (l : Lit) : For :=
  ps.filter (fun p => (F.deref p).length ≠ 1 ∧ l ∈ F.deref p)

/-- The pointers among `ps` to unit clauses. -/
def units (F : CNFFormula) (ps : For) : For :=
  ps.filter (fun p => (F.deref p).length = 1)

theorem foldl_insert (F : CNFFormula) (ps : For) (ol : OccurrenceList) :
  ps.foldl (insert F) ol
    = { index := fun l => ol.index l ++ occurrences F ps l
        unitc := ol.unitc ++ units F ps
        maxLiteral := ol.maxLiteral }
  := by
  induction ps generalizing ol with
  | nil => simp [occurrences, units]
  | cons p ps ih =>
      rw [List.foldl_cons, ih, insert]
      by_cases hlen : (F.deref p).length = 1
      · simp [hlen, occurrences, units]
      · simp only [hlen, if_false, occurrences, units, mk.injEq, and_true]
        constructor
        · funext l
          rw [pushBack_apply (F.deref_canonical p).nodup]
          by_cases hl : l ∈ F.deref p
          · simp [hl, hlen]
          · simp [hl]
        · simp [hlen]

theorem init_eq (F : CNFFormula) :
  init F
    = { index := occurrences F F.pointers
        unitc := units F F.pointers
        maxLiteral := Lit.ofVar F.nVars true }
  := by
  rw [init, foldl_insert]
  simp

/-! ### Listing a set of clauses -/

/-- The index lists each clause of `live` once under each of its literals outside `Z`, and
nothing else. -/
structure Lists (F : CNFFormula) (index : Index) (live : Set Ptr) (Z : Set Lit) : Prop where
  nodup : ∀ l, (index l).Nodup
  mem : ∀ l p, p ∈ index l ↔ p ∈ live ∧ l ∈ F.deref p ∧ l ∉ Z

theorem Lists.clear {F : CNFFormula} {index : Index} {live : Set Ptr}
    (h : Lists F index live ∅) (l : Lit) :
  Lists F (Function.update index l []) live {l}
  := by
  constructor
  · intro k
    by_cases hk : k = l
    · rw [hk, Function.update_self]
      exact List.nodup_nil
    · rw [Function.update_of_ne hk]
      exact h.nodup k
  · intro k p
    by_cases hk : k = l
    · subst hk
      simp
    · rw [Function.update_of_ne hk, h.mem k p]
      simp [hk]

/-- If no live clause contains a literal of `Z`, nothing is missing from the index. -/
theorem Lists.fill {F : CNFFormula} {index : Index} {live : Set Ptr} {Z : Set Lit}
    (h : Lists F index live Z) (hZ : ∀ p ∈ live, ∀ l ∈ F.deref p, l ∉ Z) :
  Lists F index live ∅
  := by
  refine ⟨h.nodup, ?_⟩
  intro l p
  rw [h.mem l p]
  constructor
  · rintro ⟨hp, hl, -⟩
    exact ⟨hp, hl, Set.notMem_empty l⟩
  · rintro ⟨hp, hl, -⟩
    exact ⟨hp, hl, hZ p hp l hl⟩

/-! ### Removal -/

/-- The body of the loops of `remove`: nothing happens to an empty list; otherwise the list
is scanned for the clause, which is erased.  A scan that does not find it passes the end. -/
def removeAt (p : Ptr) (index : Index) (l : Lit) : Except Fault Index :=
  if (index l).isEmpty then
    .ok index
  else if p ∈ index l then
    .ok (Function.update index l ((index l).erase p))
  else
    .error .outOfBounds

/-- The loop of `remove` over the literals of one clause. -/
def removeClause (F : CNFFormula) (index : Index) (p : Ptr) : Except Fault Index :=
  (F.deref p).foldlM (removeAt p) index

def remove (F : CNFFormula) (index : Index) (list : For) : Except Fault Index :=
  list.foldlM (removeClause F) index

/-- Where every non-empty list scanned contains the clause, the loop over the literals
erases it from each of their lists. -/
theorem foldlM_removeAt {p : Ptr} {c : Cl} (hc : c.Nodup) {index : Index}
    (h : ∀ l ∈ c, index l ≠ [] → p ∈ index l) :
  c.foldlM (removeAt p) index = .ok (fun l => if l ∈ c then (index l).erase p else index l)
  := by
  induction c generalizing index with
  | nil => simp [pure, Except.pure]
  | cons k c ih =>
      obtain ⟨hk, hc⟩ := List.nodup_cons.mp hc
      have hstep : removeAt p index k = .ok (Function.update index k ((index k).erase p)) := by
        rw [removeAt]
        cases hik : index k with
        | nil =>
            simp only [List.isEmpty_nil, if_true, List.erase_nil, Except.ok.injEq]
            symm
            apply Function.update_eq_self_iff.mpr
            exact hik.symm
        | cons q qs =>
            have hp : p ∈ q :: qs := by
              rw [← hik]
              apply h k List.mem_cons_self
              rw [hik]
              exact List.cons_ne_nil q qs
            simp only [List.isEmpty_cons, Bool.false_eq_true, if_false, if_pos hp]
      rw [List.foldlM_cons, hstep]
      simp only [bind, Except.bind]
      rw [ih hc]
      · congr 1
        funext l
        by_cases hl : l = k
        · subst hl
          rw [if_neg hk, if_pos List.mem_cons_self, Function.update_self]
        · rw [Function.update_of_ne hl]
          simp [hl]
      · intro l hl hne
        have hlk : l ≠ k := by
          rintro rfl
          exact hk hl
        rw [Function.update_of_ne hlk] at hne ⊢
        exact h l (List.mem_cons_of_mem k hl) hne

/-- Removing a live clause leaves an index that lists the other live clauses. -/
theorem Lists.removeClause {F : CNFFormula} {index : Index} {live : Set Ptr} {Z : Set Lit}
    (h : Lists F index live Z) {p : Ptr} (hp : p ∈ live) :
  ∃ index', removeClause F index p = .ok index' ∧ Lists F index' (live \ {p}) Z
  := by
  have hfind : ∀ l ∈ F.deref p, index l ≠ [] → p ∈ index l := by
    intro l hl hne
    obtain ⟨q, hq⟩ := List.exists_mem_of_ne_nil _ hne
    exact (h.mem l p).mpr ⟨hp, hl, ((h.mem l q).mp hq).2.2⟩
  refine ⟨_, foldlM_removeAt (F.deref_canonical p).nodup hfind, ?_, ?_⟩
  · intro l
    split
    · exact (h.nodup l).erase p
    · exact h.nodup l
  · intro l q
    split
    · rw [(h.nodup l).mem_erase_iff, h.mem l q, Set.mem_sdiff, Set.mem_singleton_iff]
      tauto
    · next hl =>
        rw [h.mem l q, Set.mem_sdiff, Set.mem_singleton_iff]
        constructor
        · rintro ⟨hq, hlq, hZ⟩
          refine ⟨⟨hq, ?_⟩, hlq, hZ⟩
          rintro rfl
          exact hl hlq
        · rintro ⟨⟨hq, -⟩, hlq, hZ⟩
          exact ⟨hq, hlq, hZ⟩

/-- Removing live clauses succeeds and leaves an index that lists the other live clauses. -/
theorem Lists.remove {F : CNFFormula} {live : Set Ptr} {Z : Set Lit} {list : For} {index : Index}
    (h : Lists F index live Z) (hlist : ∀ p ∈ list, p ∈ live) (hnodup : list.Nodup) :
  ∃ index', remove F index list = .ok index' ∧ Lists F index' (live \ {p | p ∈ list}) Z
  := by
  induction list generalizing index live with
  | nil =>
      use index, rfl
      simpa using h
  | cons p list ih =>
      obtain ⟨hp, hnodup⟩ := List.nodup_cons.mp hnodup
      obtain ⟨index₁, h₁, hlists₁⟩ := h.removeClause (hlist p List.mem_cons_self)
      obtain ⟨index₂, h₂, hlists₂⟩ := ih hlists₁
        (by
          intro q hq
          refine ⟨hlist q (List.mem_cons_of_mem p hq), ?_⟩
          rintro rfl
          exact hp hq)
        hnodup
      use index₂
      constructor
      · rw [OccurrenceList.remove, List.foldlM_cons, h₁]
        exact h₂
      · convert hlists₂ using 1
        ext q
        simp [not_or, and_assoc]

/-! ### Blocked clauses -/

/-- One row of the merge of `isBlocked`: `a` is the current literal of the first clause,
`next` the merge that continues behind it. -/
def isBlockedRow (o a : Lit) (next : Cl → Bool) : Cl → Bool
  | [] => false
  | b :: c₂ =>
      if a ≠ o ∧ a = ~~~b then true
      else if a < b then next (b :: c₂)
      else isBlockedRow o a next c₂

/-- `isBlocked` for sorted clauses: a merge that looks for a complementary pair. -/
def isBlocked (o : Lit) : Cl → Cl → Bool
  | [], _ => false
  | a :: c₁, c₂ => isBlockedRow o a (isBlocked o c₁) c₂

def isBlockedSet (F : CNFFormula) (index : Index) (o : Lit) : Bool :=
  (index o).all (fun c₁ => (index (~~~o)).all (fun c₂ => isBlocked o (F.deref c₁) (F.deref c₂)))

/-- A row that answers `true` found a pair, or the merge behind it did. -/
theorem isBlockedRow_sound {o a : Lit} {next : Cl → Bool} {c₂ : Cl}
    (h : isBlockedRow o a next c₂ = true) :
  (a ≠ o ∧ ~~~a ∈ c₂) ∨ ∃ c, c <:+ c₂ ∧ next c = true
  := by
  induction c₂ with
  | nil => cases h
  | cons b c₂ ih =>
      rw [isBlockedRow] at h
      split at h
      · next hab =>
          left
          refine ⟨hab.1, ?_⟩
          rw [hab.2, Lit.compl_compl]
          exact List.mem_cons_self
      · split at h
        · right
          exact ⟨b :: c₂, List.suffix_rfl, h⟩
        · obtain ⟨ha, hmem⟩ | ⟨c, hc, hnext⟩ := ih h
          · left
            exact ⟨ha, List.mem_cons_of_mem b hmem⟩
          · right
            exact ⟨c, hc.trans (List.suffix_cons b c₂), hnext⟩

/-- Clauses that `isBlocked` accepts are blocked. -/
theorem isBlocked_sound {o : Lit} {c₁ c₂ : Cl} (h : isBlocked o c₁ c₂ = true) :
  Logic.Clause.Blocked o c₁ c₂
  := by
  induction c₁ generalizing c₂ with
  | nil => cases h
  | cons a c₁ ih =>
      obtain ⟨ha, hmem⟩ | ⟨c, hc, hnext⟩ := isBlockedRow_sound h
      · exact ⟨a, List.mem_cons_self, ha, hmem⟩
      · obtain ⟨l, hl, hlo, hmem⟩ := ih hnext
        exact ⟨l, List.mem_cons_of_mem a hl, hlo, hc.subset hmem⟩

theorem isBlockedSet_sound {F : CNFFormula} {index : Index} {o : Lit}
    (h : isBlockedSet F index o = true) {p q : Ptr} (hp : p ∈ index o) (hq : q ∈ index (~~~o)) :
  Logic.Clause.Blocked o (F.deref p) (F.deref q)
  := by
  apply isBlocked_sound
  exact List.all_eq_true.mp (List.all_eq_true.mp h p hp) q hq

/-- `isBlocked` for clauses in any order: the double loop of the other branch. -/
def isBlockedUnsorted (o : Lit) (c₁ c₂ : Cl) : Bool :=
  c₁.any (fun l₁ => l₁ ≠ o ∧ c₂.any (fun l₂ => l₁ = ~~~l₂))

theorem isBlockedUnsorted_iff {o : Lit} {c₁ c₂ : Cl} :
  isBlockedUnsorted o c₁ c₂ = true ↔ ∃ l ∈ c₁, l ≠ o ∧ ~~~l ∈ c₂
  := by
  simp only [isBlockedUnsorted, List.any_eq_true, decide_eq_true_eq]
  apply exists_congr
  intro l
  apply and_congr_right
  intro _
  apply and_congr_right
  intro _
  constructor
  · rintro ⟨k, hk, rfl⟩
    rw [Lit.compl_compl]
    exact hk
  · intro hl
    exact ⟨~~~l, hl, (Lit.compl_compl l).symm⟩

/-- No literal lies between a literal and its complement. -/
theorem not_lt_lt_compl {k l : Lit} (h : k < l) :
  ¬ l < ~~~k
  := by
  have hcompl := Lit.compl_x k
  rw [Lit.lt_iff] at h ⊢
  split at hcompl <;> omega

/-- A literal that is not larger than another one and not smaller than its complement is one
of the two. -/
theorem eq_or_eq_compl {k l : Lit} (hkl : k ≤ l) (h : ~~~l ≤ k) :
  k = l ∨ k = ~~~l
  := by
  have hcompl := Lit.compl_x l
  rw [Lit.le_iff] at hkl h
  rw [Lit.ext_iff, Lit.ext_iff]
  split at hcompl <;> omega

/-- The row finds a pair with its literal, and it leaves the pairs behind its literal to the
merge that continues: those are not among the literals it has passed. -/
theorem isBlockedRow_complete {o a : Lit} {next : Cl → Bool} {c₁ c₂ : Cl}
    (hc₁ : (a :: c₁).Pairwise (· < ·)) (htaut : ∀ l ∈ a :: c₁, ~~~l ∉ a :: c₁)
    (hc₂ : c₂.Pairwise (· < ·))
    (hnext : ∀ c, c <:+ c₂ → (∃ l ∈ c₁, l ≠ o ∧ ~~~l ∈ c) → next c = true)
    (h : ∃ l ∈ a :: c₁, l ≠ o ∧ ~~~l ∈ c₂) :
  isBlockedRow o a next c₂ = true
  := by
  obtain ⟨ha, -⟩ := List.pairwise_cons.mp hc₁
  induction c₂ with
  | nil =>
      obtain ⟨l, -, -, hl⟩ := h
      cases hl
  | cons b c₂ ih =>
      obtain ⟨hb, hc₂⟩ := List.pairwise_cons.mp hc₂
      rw [isBlockedRow]
      split
      · rfl
      · next hpair =>
          obtain ⟨l, hl, hlo, hmem⟩ := h
          split
          · -- the literal of the row is passed
            next hab =>
              apply hnext (b :: c₂) List.suffix_rfl
              obtain rfl | hl := List.mem_cons.mp hl
              · exfalso
                obtain hlb | hlb := List.mem_cons.mp hmem
                · exact hpair ⟨hlo, by rw [← hlb, Lit.compl_compl]⟩
                · exact not_lt_lt_compl hab (hb _ hlb)
              · exact ⟨l, hl, hlo, hmem⟩
          · -- the literal of the second clause is passed
            next hab =>
              apply ih hc₂ (fun c hc => hnext c (hc.trans (List.suffix_cons b c₂)))
              refine ⟨l, hl, hlo, ?_⟩
              obtain hlb | hlb := List.mem_cons.mp hmem
              · exfalso
                obtain rfl | hl' := List.mem_cons.mp hl
                · exact hpair ⟨hlo, by rw [← hlb, Lit.compl_compl]⟩
                · have hba : ~~~l ≤ a := by
                    rw [hlb]
                    exact Nat.not_lt.mp hab
                  obtain hal | hal := eq_or_eq_compl (Nat.le_of_lt (ha l hl')) hba
                  · exact absurd (ha l hl') (by rw [hal]; exact Nat.lt_irrefl _)
                  · apply htaut l hl
                    rw [← hal]
                    exact List.mem_cons_self
              · exact hlb

/-- On sorted clauses of which the first contains no literal together with its complement, the
merge and the double loop agree. -/
theorem isBlocked_eq_isBlockedUnsorted {o : Lit} {c₁ c₂ : Cl} (hc₁ : c₁.Pairwise (· < ·))
    (htaut : ∀ l ∈ c₁, ~~~l ∉ c₁) (hc₂ : c₂.Pairwise (· < ·)) :
  (isBlocked o c₁ c₂ = true ↔ ∃ l ∈ c₁, l ≠ o ∧ ~~~l ∈ c₂)
    ∧ isBlocked o c₁ c₂ = isBlockedUnsorted o c₁ c₂
  := by
  have hiff : isBlocked o c₁ c₂ = true ↔ ∃ l ∈ c₁, l ≠ o ∧ ~~~l ∈ c₂ := by
    constructor
    · exact isBlocked_sound
    · intro h
      induction c₁ generalizing c₂ with
      | nil =>
          obtain ⟨l, hl, -, -⟩ := h
          cases hl
      | cons a c₁ ih =>
          apply isBlockedRow_complete hc₁ htaut hc₂ _ h
          intro c hc
          apply ih (List.pairwise_cons.mp hc₁).2 _ (hc₂.sublist hc.sublist)
          intro l hl hmem
          exact htaut l (List.mem_cons_of_mem a hl) (List.mem_cons_of_mem a hmem)
  refine ⟨hiff, ?_⟩
  rw [Bool.eq_iff_iff, hiff, isBlockedUnsorted_iff]

/-- The clauses `(1 ∨ 2)` and `(¬1 ∨ ¬2)` are blocked on the variable one through the other. -/
theorem isBlocked_eq_isBlockedUnsorted_pair :
  (isBlocked ⟨2⟩ [⟨2⟩, ⟨4⟩] [⟨3⟩, ⟨5⟩] = true
      ↔ ∃ l ∈ [(⟨2⟩ : Lit), ⟨4⟩], l ≠ ⟨2⟩ ∧ ~~~l ∈ [(⟨3⟩ : Lit), ⟨5⟩])
    ∧ isBlocked ⟨2⟩ [⟨2⟩, ⟨4⟩] [⟨3⟩, ⟨5⟩] = isBlockedUnsorted ⟨2⟩ [⟨2⟩, ⟨4⟩] [⟨3⟩, ⟨5⟩]
  := isBlocked_eq_isBlockedUnsorted (by decide) (by decide) (by decide)

/-! ### Root selection -/

/-- The loop of `estimateRoots`: the number of the largest literal up to `x` with a
non-empty list, or zero. -/
def lower (index : Index) : Nat → Nat
  | 0 => 0
  | x + 1 => if (index ⟨x + 1⟩).isEmpty then lower index x else x + 1

def estimateRoots (F : CNFFormula) (ol : OccurrenceList) :
    Except Fault (For × OccurrenceList) :=
  if !ol.unitc.isEmpty then
    .ok (ol.unitc, { ol with unitc := [] })
  else do
    let maxLiteral : Lit := ⟨lower ol.index ol.maxLiteral.x⟩
    if 0 < maxLiteral.x then
      let result := ol.index maxLiteral
      let index ← remove F (Function.update ol.index maxLiteral []) result
      return (result, { ol with index, maxLiteral })
    else
      return ([], { ol with maxLiteral })

theorem lower_empty {index : Index} {x y : Nat} (hy : y ≤ x) (h : lower index x < y) :
  index ⟨y⟩ = []
  := by
  induction x with
  | zero => omega
  | succ x ih =>
      rw [lower] at h
      split at h
      · next hempty =>
          by_cases hyx : y = x + 1
          · rw [hyx]
            exact List.isEmpty_iff.mp hempty
          · exact ih (by omega) h
      · omega

theorem lower_ne_nil {index : Index} {x : Nat} (h : 0 < lower index x) :
  index ⟨lower index x⟩ ≠ []
  := by
  induction x with
  | zero => exact absurd h (Nat.lt_irrefl 0)
  | succ x ih =>
      rw [lower] at h ⊢
      split at h
      · next hempty =>
          rw [if_pos hempty]
          exact ih h
      · next hempty =>
          rw [if_neg hempty]
          intro hnil
          exact hempty (List.isEmpty_iff.mpr hnil)

/-- The occurrence list holds the clauses of `live` in its index and other, unit clauses in
`unitc`, and the literals above `max_literal` do not occur. -/
structure Holds (F : CNFFormula) (ol : OccurrenceList) (live : Set Ptr) : Prop where
  lists : Lists F ol.index live ∅
  live_length : ∀ p ∈ live, 1 < (F.deref p).length
  unitc_nodup : ol.unitc.Nodup
  unitc_length : ∀ p ∈ ol.unitc, (F.deref p).length = 1
  unitc_not_live : ∀ p ∈ ol.unitc, p ∉ live
  above : ∀ l, ol.maxLiteral < l → ol.index l = []

/-- After construction the index holds the clauses with two or more literals. -/
theorem holds_init (F : CNFFormula) :
  Holds F (init F) {p | 1 < (F.deref p).length}
  := by
  rw [init_eq]
  have hpos : ∀ {p : Ptr} {l : Lit}, l ∈ F.deref p → 0 < (F.deref p).length :=
    fun hl => List.length_pos_of_mem hl
  constructor
  · constructor
    · intro l
      exact List.nodup_range.filter _
    · intro l p
      simp only [occurrences, CNFFormula.pointers, List.mem_filter, List.mem_range,
        decide_eq_true_eq, Set.mem_ofPred_eq, Set.mem_empty_iff_false, not_false_eq_true, and_true]
      constructor
      · rintro ⟨-, hlen, hl⟩
        have := hpos hl
        exact ⟨by omega, hl⟩
      · rintro ⟨hlen, hl⟩
        exact ⟨F.lt_of_mem_deref hl, by omega, hl⟩
  · exact fun p hp => hp
  · exact List.nodup_range.filter _
  · intro p hp
    simpa using (List.mem_filter.mp hp).2
  · intro p hp hlive
    have hlen : (F.deref p).length = 1 := by simpa using (List.mem_filter.mp hp).2
    rw [Set.mem_ofPred_eq, hlen] at hlive
    omega
  · intro l hl
    apply List.filter_eq_nil_iff.mpr
    intro p _ hp
    have hmem : l ∈ F.deref p := by
      simp only [decide_eq_true_eq] at hp
      exact hp.2
    have hle : l.x / 2 ≤ F.nVars := F.deref_var_le hmem
    have hlt : 2 * F.nVars + 1 < l.x := hl
    omega

/-- Removing distinct live clauses succeeds and keeps what the occurrence list holds
otherwise. -/
theorem Holds.remove {F : CNFFormula} {ol : OccurrenceList} {live : Set Ptr} (h : Holds F ol live)
    {list : For} (hlist : ∀ p ∈ list, p ∈ live) (hnodup : list.Nodup) :
  ∃ index, remove F ol.index list = .ok index
    ∧ Holds F { ol with index } (live \ {p | p ∈ list})
  := by
  obtain ⟨index, hrem, hlists⟩ := h.lists.remove hlist hnodup
  use index, hrem
  constructor
  · exact hlists
  · exact fun p hp => h.live_length p hp.1
  · exact h.unitc_nodup
  · exact h.unitc_length
  · exact fun p hp hlive => h.unitc_not_live p hp hlive.1
  · intro l hl
    apply List.eq_nil_iff_forall_not_mem.mpr
    intro p hp
    obtain ⟨hlive, hmem, -⟩ := (hlists.mem l p).mp hp
    have hold := (h.lists.mem l p).mpr ⟨hlive.1, hmem, Set.notMem_empty _⟩
    rw [h.above l hl] at hold
    cases hold

/-- What `estimateRoots` returns and leaves: it succeeds, it splits the clauses held into
the distinct roots and the clauses still held, and without roots nothing is held. -/
theorem estimateRoots_spec {F : CNFFormula} {ol : OccurrenceList} {live : Set Ptr}
    (h : Holds F ol live) :
  ∃ roots ol' live', estimateRoots F ol = .ok (roots, ol') ∧ Holds F ol' live'
    ∧ ol'.unitc = [] ∧ roots.Nodup ∧ live' ⊆ live
    ∧ (∀ p, p ∈ roots ↔ (p ∈ ol.unitc ∨ p ∈ live) ∧ p ∉ live')
    ∧ (roots = [] → live = ∅)
  := by
  rw [estimateRoots]
  cases hunit : ol.unitc with
  | cons u us =>
      refine ⟨u :: us, { ol with unitc := [] }, live, ?_, ?_, rfl, ?_, subset_rfl, ?_, ?_⟩
      · simp
      · constructor
        · exact h.lists
        · exact h.live_length
        · exact List.nodup_nil
        · exact fun p hp => absurd hp List.not_mem_nil
        · exact fun p hp => absurd hp List.not_mem_nil
        · exact h.above
      · rw [← hunit]
        exact h.unitc_nodup
      · intro p
        rw [← hunit]
        constructor
        · intro hp
          exact ⟨Or.inl hp, h.unitc_not_live p hp⟩
        · rintro ⟨hp | hp, hnot⟩
          · exact hp
          · exact absurd hp hnot
      · intro hnil
        cases hnil
  | nil =>
      simp only [List.isEmpty_nil, Bool.not_true, Bool.false_eq_true, if_false]
      generalize hm : lower ol.index ol.maxLiteral.x = m
      have habove : ∀ l : Lit, m < l.x → ol.index l = [] := by
        intro l hl
        by_cases hmax : ol.maxLiteral.x < l.x
        · exact h.above l hmax
        · have hle : l.x ≤ ol.maxLiteral.x := Nat.le_of_not_lt hmax
          rw [← hm] at hl
          exact lower_empty hle hl
      by_cases hpos : 0 < m
      · have hroot : ∀ p ∈ ol.index ⟨m⟩, p ∈ live := fun p hp => ((h.lists.mem _ p).mp hp).1
        obtain ⟨index', hrem, hlists⟩ :=
          (h.lists.clear ⟨m⟩).remove hroot (h.lists.nodup ⟨m⟩)
        -- no clause that stays contains the literal whose list was handed out
        have hfull := hlists.fill (by
          rintro p ⟨hp, hroots⟩ l hl rfl
          exact hroots ((h.lists.mem _ p).mpr ⟨hp, hl, Set.notMem_empty _⟩))
        refine ⟨ol.index ⟨m⟩, { ol with index := index', maxLiteral := ⟨m⟩ },
          live \ {p | p ∈ ol.index ⟨m⟩}, ?_, ?_, hunit, h.lists.nodup ⟨m⟩, Set.sdiff_subset,
          ?_, ?_⟩
        · rw [if_pos hpos, hrem, hunit]
          rfl
        · constructor
          · exact hfull
          · exact fun p hp => h.live_length p hp.1
          · exact h.unitc_nodup
          · exact h.unitc_length
          · exact fun p hp hlive => h.unitc_not_live p hp hlive.1
          · intro l hl
            apply List.eq_nil_iff_forall_not_mem.mpr
            intro p hp
            obtain ⟨hlive, hmem, -⟩ := (hfull.mem l p).mp hp
            have hold := (h.lists.mem l p).mpr ⟨hlive.1, hmem, Set.notMem_empty _⟩
            rw [habove l hl] at hold
            cases hold
        · intro p
          simp only [List.not_mem_nil, false_or, Set.mem_sdiff, Set.mem_ofPred_eq, not_and, not_not]
          constructor
          · intro hp
            exact ⟨hroot p hp, fun _ => hp⟩
          · rintro ⟨hp, himp⟩
            exact himp hp
        · intro hnil
          exact absurd hnil (by rw [← hm]; exact lower_ne_nil (by omega))
      · have hempty : live = ∅ := by
          apply Set.eq_empty_iff_forall_notMem.mpr
          intro p hp
          obtain ⟨l, hl, hpos'⟩ := F.exists_var_pos (h.live_length p hp)
          have hvar : 0 < l.x / 2 := hpos'
          have hlist := (h.lists.mem l p).mpr ⟨hp, hl, Set.notMem_empty _⟩
          rw [habove l (by omega)] at hlist
          cases hlist
        refine ⟨[], { ol with maxLiteral := ⟨m⟩ }, live, ?_, ?_, hunit, List.nodup_nil, subset_rfl,
          ?_, fun _ => hempty⟩
        · rw [if_neg hpos, hunit]
          rfl
        · exact ⟨h.lists, h.live_length, h.unitc_nodup, h.unitc_length, h.unitc_not_live, habove⟩
        · intro p
          simp [hempty]

end OccurrenceList

end CnfTools
