import IgnoreGates.Lists.Chains
import IgnoreGates.Cadical.Checker

/-!
# The hash table of the checker

A clause is sorted and loses its duplicates before it is hashed, so that clauses with the same
literals have the same hash.  The table has every clause in the chain of its hash, also after it
has been enlarged, and `find` finds a clause with the given literals whenever there is one.
-/

namespace Cadical

open Logic

namespace Checker

variable {s : Checker}

/-! ### Sorting -/

/-- Literals are ordered by their variables, and then by their signs. -/
theorem litSmaller_iff (a b : Lit) :
  litSmaller a b = true ↔ a.vidx < b.vidx ∨ a.vidx = b.vidx ∧ a.int < b.int
  := by
  rw [litSmaller]
  split
  · next h => exact ⟨fun _ => Or.inl h, fun _ => rfl⟩
  · split
    · next h h' => exact ⟨nofun, fun hor => by omega⟩
    · next h h' =>
        rw [decide_eq_true_eq]
        omega

theorem not_litSmaller_iff (a b : Lit) :
  ¬ litSmaller a b = true ↔ b = a ∨ litSmaller b a = true
  := by
  rw [litSmaller_iff, litSmaller_iff, Lit.ext_iff]
  constructor
  · intro h
    simp only [Lit.vidx] at h ⊢
    omega
  · intro h
    simp only [Lit.vidx] at h ⊢
    omega

theorem litSmaller_irrefl (a : Lit) :
  ¬ litSmaller a a = true
  := (not_litSmaller_iff a a).mpr (Or.inl rfl)

/-- The order of literals is transitive. -/
theorem litSmaller_trans {a b c : Lit} (hab : litSmaller a b = true)
    (hbc : litSmaller b c = true) :
  litSmaller a c = true
  := by
  rw [litSmaller_iff] at *
  omega

/-- Nothing comes between the two literals of a variable. -/
theorem eq_or_eq_of_between {a l : Lit} (hbelow : ¬ litSmaller a (-l) = true)
    (habove : ¬ litSmaller l a = true) :
  a = -l ∨ a = l
  := by
  rw [litSmaller_iff, Lit.vidx_neg] at hbelow
  rw [litSmaller_iff] at habove
  exact (Lit.eq_or_eq_neg (by omega)).symm

/-- The literals in ascending order, without duplicates. -/
def Sorted (l : List Lit) : Prop :=
  l.Pairwise (fun a b => litSmaller a b = true)

/-- A sorted clause has no repeated literals. -/
theorem Sorted.nodup {l : List Lit} (h : Sorted l) :
  l.Nodup
  := by
  apply h.imp
  rintro a b hab rfl
  exact litSmaller_irrefl a hab

/-- There is only one order. -/
theorem Sorted.eq {l l' : List Lit} (h : Sorted l) (h' : Sorted l')
    (hsame : l.toFinset = l'.toFinset) :
  l = l'
  := by
  apply List.Perm.eq_of_pairwise _ h h'
  · exact List.perm_of_nodup_nodup_toFinset_eq h.nodup h'.nodup hsame
  · intro a b _ _ hab hba
    exact absurd (litSmaller_trans hab hba) (litSmaller_irrefl a)

/-- Sorting puts no literal behind a larger one. -/
theorem pairwise_sort (c : List Lit) :
  (sort c).Pairwise (fun a b => ¬ litSmaller b a = true)
  := by
  have : Std.Total (fun a b => ¬ litSmaller b a = true) := by
    constructor
    intro a b
    rw [litSmaller_iff, litSmaller_iff]
    omega
  have : IsTrans Lit (fun a b => ¬ litSmaller b a = true) := by
    constructor
    intro a b c
    rw [litSmaller_iff, litSmaller_iff, litSmaller_iff]
    omega
  exact List.pairwise_insertionSort _ c

/-- Sorting neither adds nor loses literals. -/
theorem mem_sort {c : List Lit} {k : Lit} :
  k ∈ sort c ↔ k ∈ c
  := (List.perm_insertionSort _ c).mem_iff

/-- A literal is skipped, or the literal in front of it is smaller. -/
theorem tautologicalLoop_some {prev : Option Lit} {rest l : List Lit}
    (hsorted : (prev.toList ++ rest).Pairwise (fun a b => ¬ litSmaller b a = true))
    (h : s.tautologicalLoop prev rest = some l) :
  Sorted (prev.toList ++ l) ∧ ∀ k, k ∈ rest ∨ some k = prev ↔ k ∈ l ∨ some k = prev
  := by
  induction rest generalizing prev l with
  | nil =>
      obtain rfl := Option.some.inj h
      refine ⟨?_, fun _ => Iff.rfl⟩
      cases prev with
      | none => exact List.Pairwise.nil
      | some p => exact List.pairwise_singleton _ p
  | cons lit rest ih =>
      rw [tautologicalLoop] at h
      split at h
      · next hprev =>
          have hrest := hsorted.sublist ((List.sublist_cons_self lit rest).append_left prev.toList)
          obtain ⟨hl, hmem⟩ := ih hrest h
          refine ⟨hl, ?_⟩
          intro k
          rw [← hmem k, List.mem_cons, hprev]
          constructor
          · rintro ((rfl | hk) | hk)
            · exact Or.inr rfl
            · exact Or.inl hk
            · exact Or.inr hk
          · rintro (hk | hk)
            · exact Or.inl (Or.inr hk)
            · exact Or.inr hk
      · next hprev =>
          split at h
          · cases h
          · split at h
            · cases h
            · obtain ⟨l, hl, rfl⟩ := Option.map_eq_some_iff.mp h
              have hrest : ((some lit).toList ++ rest).Pairwise
                  (fun a b => ¬ litSmaller b a = true) :=
                (List.pairwise_append.mp hsorted).2.1
              obtain ⟨hl, hmem⟩ := ih hrest hl
              refine ⟨?_, ?_⟩
              · cases prev with
                | none => exact hl
                | some p =>
                    have hp : litSmaller p lit = true := by
                      have hnot := (List.pairwise_cons.mp hsorted).1 lit List.mem_cons_self
                      apply ((not_litSmaller_iff lit p).mp hnot).resolve_left
                      rintro rfl
                      exact hprev rfl
                    apply List.Pairwise.cons _ hl
                    intro k hk
                    obtain rfl | hk := List.mem_cons.mp hk
                    · exact hp
                    · exact litSmaller_trans hp ((List.pairwise_cons.mp hl).1 k hk)
              · intro k
                have hk := hmem k
                rw [Option.some_inj] at hk
                rw [List.mem_cons, List.mem_cons, or_comm (a := k = lit), hk,
                  or_comm (a := k = lit)]

/-- The loop rejects a literal that is true, or the complement of another one. -/
theorem tautologicalLoop_eq_none_iff {prev : Option Lit} {rest : List Lit}
    (hsorted : (prev.toList ++ rest).Pairwise (fun a b => ¬ litSmaller b a = true))
    (hprev : ∀ p, prev = some p → p ∉ s.trail) :
  s.tautologicalLoop prev rest = none
    ↔ ∃ l ∈ rest, prev = some (-l) ∨ -l ∈ rest ∨ l ∈ s.trail
  := by
  induction rest generalizing prev with
  | nil => exact ⟨nofun, fun ⟨l, hl, _⟩ => absurd hl List.not_mem_nil⟩
  | cons lit rest ih =>
      rw [tautologicalLoop]
      split
      · next heq =>
          rw [ih (hsorted.sublist ((List.sublist_cons_self lit rest).append_left _)) hprev]
          constructor
          · rintro ⟨l, hl, hcases⟩
            exact ⟨l, List.mem_cons_of_mem lit hl,
              hcases.imp_right (Or.imp_left (List.mem_cons_of_mem lit))⟩
          · rintro ⟨l, hl, hcases⟩
            obtain rfl | hl := List.mem_cons.mp hl
            · obtain hneg | hneg | htrail := hcases
              · rw [heq, Option.some_inj] at hneg
                exact absurd hneg.symm l.neg_ne
              · have hne := l.neg_ne
                refine ⟨-l, (List.mem_cons.mp hneg).resolve_left hne, Or.inl ?_⟩
                rw [heq, Lit.neg_neg]
              · exact absurd htrail (hprev l heq)
            · refine ⟨l, hl, ?_⟩
              obtain hneg | hneg | htrail := hcases
              · exact Or.inl hneg
              · obtain hneg | hneg := List.mem_cons.mp hneg
                · exact Or.inl (heq.trans (congrArg some hneg.symm))
                · exact Or.inr (Or.inl hneg)
              · exact Or.inr (Or.inr htrail)
      · next hne =>
          split
          · next heq => exact ⟨fun _ => ⟨lit, List.mem_cons_self, Or.inl heq⟩, fun _ => rfl⟩
          · next hne' =>
              split
              · next hval =>
                  have htrail := (vals_pos_iff _ _).mp hval
                  exact ⟨fun _ => ⟨lit, List.mem_cons_self, Or.inr (Or.inr htrail)⟩, fun _ => rfl⟩
              · next hval =>
                  have htrail : lit ∉ s.trail := fun hmem => hval ((vals_pos_iff _ _).mpr hmem)
                  have hrest : ((some lit).toList ++ rest).Pairwise
                      (fun a b => ¬ litSmaller b a = true) := (List.pairwise_append.mp hsorted).2.1
                  rw [Option.map_eq_none_iff, ih hrest (fun p hp => Option.some.inj hp ▸ htrail)]
                  constructor
                  · rintro ⟨l, hl, hcases⟩
                    refine ⟨l, List.mem_cons_of_mem lit hl, ?_⟩
                    obtain heq | hneg | htrail := hcases
                    · rw [← Option.some.inj heq]
                      exact Or.inr (Or.inl List.mem_cons_self)
                    · exact Or.inr (Or.inl (List.mem_cons_of_mem lit hneg))
                    · exact Or.inr (Or.inr htrail)
                  · rintro ⟨l, hl, hcases⟩
                    obtain rfl | hl := List.mem_cons.mp hl
                    · obtain hneg | hneg | hmem := hcases
                      · exact absurd hneg hne'
                      · refine ⟨-l, (List.mem_cons.mp hneg).resolve_left l.neg_ne, Or.inl ?_⟩
                        rw [Lit.neg_neg]
                      · exact absurd hmem htrail
                    · refine ⟨l, hl, ?_⟩
                      obtain hneg | hneg | hmem := hcases
                      · -- `lit` is between `-l`, which is `prev`, and `l`
                        rw [hneg] at hsorted hne hne'
                        have hbelow := (List.pairwise_cons.mp hsorted).1 lit List.mem_cons_self
                        have habove := (List.pairwise_cons.mp
                          (List.pairwise_cons.mp hsorted).2).1 l hl
                        obtain rfl | rfl := eq_or_eq_of_between hbelow habove
                        · exact absurd rfl hne
                        · exact absurd rfl hne'
                      · obtain hneg | hneg := List.mem_cons.mp hneg
                        · exact Or.inl (congrArg some hneg.symm)
                        · exact Or.inr (Or.inl hneg)
                      · exact Or.inr (Or.inr hmem)

/-- A clause is tautological if and only if it has complementary literals or a true one. -/
theorem tautological_eq_none_iff (c : List Lit) :
  s.tautological c = none ↔ (∃ l ∈ c, -l ∈ c) ∨ ∃ l ∈ c, l ∈ s.trail
  := by
  have hsorted : ((none : Option Lit).toList ++ sort c).Pairwise
      (fun a b => ¬ litSmaller b a = true) := pairwise_sort c
  rw [tautological, tautologicalLoop_eq_none_iff hsorted
    (fun _ h => absurd h.symm (Option.some_ne_none _))]
  simp only [mem_sort, reduceCtorEq, false_or]
  constructor
  · rintro ⟨l, hl, hcases⟩
    exact hcases.imp (fun h => ⟨l, hl, h⟩) (fun h => ⟨l, hl, h⟩)
  · rintro (⟨l, hl, h⟩ | ⟨l, hl, h⟩)
    · exact ⟨l, hl, Or.inl h⟩
    · exact ⟨l, hl, Or.inr h⟩

/-- The simplified clause has the same literals, none of them true. -/
structure Simplified (s : Checker) (c l : List Lit) : Prop where
  sorted : Sorted l
  same : l.toFinset = c.toFinset
  neg_not_mem : ∀ k ∈ l, -k ∉ l
  not_mem_trail : ∀ k ∈ l, k ∉ s.trail

/-- Simplifying a clause removes repeated literals only. -/
theorem Simplified.mem_iff {c l : List Lit} (h : s.Simplified c l) (k : Lit) :
  k ∈ l ↔ k ∈ c
  := by
  rw [← List.mem_toFinset, h.same, List.mem_toFinset]

/-- A clause that is not tautological is sorted without repeated literals. -/
theorem tautological_eq_some {c l : List Lit} (h : s.tautological c = some l) :
  s.Simplified c l
  := by
  obtain ⟨hsorted, hmem⟩ := tautologicalLoop_some (pairwise_sort c) h
  simp only [reduceCtorEq, or_false, mem_sort] at hmem
  have hnone := (tautological_eq_none_iff (s := s) c).not.mp (by rw [h]; exact Option.some_ne_none l)
  rw [not_or] at hnone
  refine ⟨hsorted, ?_, ?_, ?_⟩
  · ext k
    rw [List.mem_toFinset, List.mem_toFinset, hmem]
  · intro k hk hneg
    exact hnone.1 ⟨k, (hmem k).mpr hk, (hmem (-k)).mpr hneg⟩
  · intro k hk htrail
    exact hnone.2 ⟨k, (hmem k).mpr hk, htrail⟩

/-! ### Chains -/

/-- The reduced hash is a position of the table. -/
theorem reduceLoop_lt {size r : Nat} (hsize : 0 < size) {shifts : List Nat} {res : Nat}
    (h : reduceLoop size shifts res = some r) :
  r < size
  := by
  induction shifts generalizing res with
  | nil => cases h
  | cons shift shifts ih =>
      rw [reduceLoop] at h
      split at h
      · exact ih h
      · obtain rfl := Option.some.inj h
        have hle : res &&& (size - 1) ≤ size - 1 := Nat.and_le_right
        omega

/-- The loop of `reduce_hash` ends when `shift` is zero. -/
theorem reduceLoop_isSome {size : Nat} (hsize : 0 < size) {shifts : List Nat} (h : 0 ∈ shifts)
    (res : Nat) :
  (reduceLoop size shifts res).isSome
  := by
  induction shifts generalizing res with
  | nil => cases h
  | cons shift shifts ih =>
      rw [reduceLoop]
      split
      · next hlt =>
          apply ih
          obtain rfl | h := List.mem_cons.mp h
          · exact absurd hlt (Nat.not_lt.mpr hsize)
          · exact h
      · rfl

/-- Every hash can be reduced. -/
theorem exists_reduceHash {size : Nat} (hsize : 0 < size) (hash : Nat) :
  ∃ h < size, reduceHash hash size = some h
  := by
  have hsome : (reduceLoop size [32, 16, 8, 4, 2, 1, 0] hash).isSome :=
    reduceLoop_isSome hsize (by simp) hash
  obtain ⟨h, heq⟩ := Option.isSome_iff_exists.mp hsome
  exact ⟨h, reduceLoop_lt hsize heq, heq⟩

/-- The chain of a clause in a table of the given size. -/
def index (memory : Nat → CheckerClause) (size c : Nat) : Option Nat :=
  reduceHash (memory c).hash size

/-- What the table is after some clauses have been put into it. -/
structure Links (memory : Nat → CheckerClause) (table table' : List (List Nat)) (new : List Nat) :
    Prop where
  length : table'.length = table.length
  hashed : Chains.Hashed (index memory table.length) table →
    Chains.Hashed (index memory table'.length) table'
  flatten : table'.flatten.Perm (new ++ table.flatten)

/-- Linking a clause into an empty chain. -/
theorem links_link (memory : Nat → CheckerClause) {table : List (List Nat)}
    (hpos : 0 < table.length) (c : Nat) :
  Links memory table (link memory table c) [c]
  := by
  obtain ⟨h, hlt, heq⟩ := exists_reduceHash hpos (memory c).hash
  rw [link, heq]
  refine ⟨List.length_modify _ _ _, ?_, Chains.flatten_modify_cons hlt c⟩
  intro hhashed
  rw [List.length_modify]
  exact hhashed.modify_cons hlt heq

/-- Linking the clauses one after the other. -/
theorem links_foldl (memory : Nat → CheckerClause) {table : List (List Nat)}
    (hpos : 0 < table.length) (new : List Nat) :
  Links memory table (new.foldl (link memory) table) new
  := by
  induction new generalizing table with
  | nil => exact ⟨rfl, id, List.Perm.refl _⟩
  | cons c new ih =>
      have hc := links_link memory hpos c
      have hnew := ih (hc.length.symm ▸ hpos)
      refine ⟨hnew.length.trans hc.length, hnew.hashed ∘ hc.hashed, ?_⟩
      exact hnew.flatten.trans ((hc.flatten.append_left new).trans List.perm_middle)

/-! ### The invariant of the table -/

/-- The clauses of the table and the garbage clauses are different ones that have been allocated.
The clauses have two literals at least, and the hash of the sorted literals. -/
structure WfTable (s : Checker) : Prop where
  hashed : Chains.Hashed (index s.memory s.clauses.length) s.clauses
  nodup : (s.clauses.flatten ++ s.garbage).Nodup
  lt : ∀ c ∈ s.clauses.flatten ++ s.garbage, c < s.numAllocated
  numClauses : s.numClauses = s.clauses.flatten.length
  numGarbage : s.numGarbage = s.garbage.length
  load : s.numClauses ≤ s.clauses.length
  length : ∀ c < s.numAllocated, 2 ≤ (s.lits c).length
  lits_nodup : ∀ c < s.numAllocated, (s.lits c).Nodup
  vidx_lt : ∀ c < s.numAllocated, ∀ k ∈ s.lits c, k.vidx < s.sizeVars
  hash : ∀ c < s.numAllocated, ∃ l, Sorted l ∧ l.Perm (s.lits c)
    ∧ (s.memory c).hash = computeHash l
  size : ∀ c ∈ s.clauses.flatten, (s.memory c).size = (s.lits c).length
  garbage : ∀ c ∈ s.garbage, (s.memory c).size = 0

/-- The clauses of the table. -/
def Stored (s : Checker) (c : Nat) : Prop :=
  c ∈ s.clauses.flatten

/-- The number of clauses of the table with these literals. -/
def count (s : Checker) (c : List Lit) : Nat :=
  s.clauses.flatten.countP (fun d => (s.lits d).toFinset = c.toFinset)

/-- A clause counts if and only if a stored clause has the same literals. -/
theorem count_pos_iff (s : Checker) (c : List Lit) :
  0 < s.count c ↔ ∃ d, s.Stored d ∧ (s.lits d).toFinset = c.toFinset
  := by
  rw [count, List.countP_pos_iff]
  simp only [decide_eq_true_eq]
  rfl

/-- The stored clauses have been allocated. -/
theorem WfTable.stored_lt (h : s.WfTable) {c : Nat} (hc : s.Stored c) :
  c < s.numAllocated
  := h.lt c (List.mem_append_left _ hc)

/-- The literals of a clause are in another order, and only the literals have changed. -/
structure Reorders (s s' : Checker) : Prop where
  sizeVars : s'.sizeVars = s.sizeVars
  numAllocated : s'.numAllocated = s.numAllocated
  inconsistent : s'.inconsistent = s.inconsistent
  numClauses : s'.numClauses = s.numClauses
  numGarbage : s'.numGarbage = s.numGarbage
  clauses : s'.clauses = s.clauses
  garbage : s'.garbage = s.garbage
  lits : ∀ c, (s'.lits c).Perm (s.lits c)
  hash : ∀ c, (s'.memory c).hash = (s.memory c).hash
  size : ∀ c, (s'.memory c).size = (s.memory c).size

theorem Reorders.refl (s : Checker) :
  s.Reorders s
  := ⟨rfl, rfl, rfl, rfl, rfl, rfl, rfl, fun _ => List.Perm.refl _, fun _ => rfl, fun _ => rfl⟩

theorem Reorders.trans {s' s'' : Checker} (h : s.Reorders s') (h' : s'.Reorders s'') :
  s.Reorders s''
  := ⟨h'.sizeVars.trans h.sizeVars, h'.numAllocated.trans h.numAllocated,
    h'.inconsistent.trans h.inconsistent, h'.numClauses.trans h.numClauses,
    h'.numGarbage.trans h.numGarbage, h'.clauses.trans h.clauses, h'.garbage.trans h.garbage,
    fun c => (h'.lits c).trans (h.lits c), fun c => (h'.hash c).trans (h.hash c),
    fun c => (h'.size c).trans (h.size c)⟩

/-- Reordering literals stores the same clauses. -/
theorem Reorders.stored {s' : Checker} (h : s.Reorders s') (c : Nat) :
  s'.Stored c ↔ s.Stored c
  := by
  rw [Stored, Stored, h.clauses]

/-- Reordering literals keeps the counts. -/
theorem Reorders.count {s' : Checker} (h : s.Reorders s') (c : List Lit) :
  s'.count c = s.count c
  := by
  rw [Checker.count, Checker.count, h.clauses]
  congr 1
  funext d
  rw [List.toFinset_eq_of_perm _ _ (h.lits d)]

/-- Reordering literals keeps the table well formed. -/
theorem Reorders.wfTable {s' : Checker} (h : s.Reorders s') (hs : s.WfTable) :
  s'.WfTable
  where
    hashed := by
      have hindex : index s'.memory s'.clauses.length = index s.memory s.clauses.length := by
        funext c
        rw [index, index, h.hash, h.clauses]
      rw [hindex, h.clauses]
      exact hs.hashed
    nodup := by
      rw [h.clauses, h.garbage]
      exact hs.nodup
    lt := by
      rw [h.clauses, h.garbage, h.numAllocated]
      exact hs.lt
    numClauses := by
      rw [h.numClauses, h.clauses]
      exact hs.numClauses
    numGarbage := by
      rw [h.numGarbage, h.garbage]
      exact hs.numGarbage
    load := by
      rw [h.numClauses, h.clauses]
      exact hs.load
    length := by
      intro c hc
      rw [(h.lits c).length_eq]
      exact hs.length c (h.numAllocated ▸ hc)
    lits_nodup := by
      intro c hc
      rw [(h.lits c).nodup_iff]
      exact hs.lits_nodup c (h.numAllocated ▸ hc)
    vidx_lt := by
      intro c hc k hk
      rw [h.sizeVars]
      exact hs.vidx_lt c (h.numAllocated ▸ hc) k ((h.lits c).subset hk)
    hash := by
      intro c hc
      obtain ⟨l, hl, hperm, heq⟩ := hs.hash c (h.numAllocated ▸ hc)
      exact ⟨l, hl, hperm.trans (h.lits c).symm, (h.hash c).trans heq⟩
    size := by
      intro c hc
      rw [h.size, (h.lits c).length_eq]
      exact hs.size c (h.clauses ▸ hc)
    garbage := by
      intro c hc
      rw [h.size]
      exact hs.garbage c (h.garbage ▸ hc)

/-! ### Searching -/

/-- A clause that is found is in the chain and has the same literals. -/
theorem WfTable.find_some (h : s.WfTable) {l : List Lit} {i d : Nat}
    (hfind : s.find l (computeHash l) (s.clauses.getD i []) = some d) :
  d ∈ s.clauses.getD i [] ∧ (s.lits d).toFinset = l.toFinset
  := by
  have hmem := List.mem_of_find?_eq_some hfind
  have hspec := List.find?_some hfind
  rw [decide_eq_true_eq] at hspec
  have hd : s.Stored d := Chains.mem_flatten_of_mem_getD hmem
  refine ⟨hmem, ?_⟩
  have hsub := (h.lits_nodup d (h.stored_lt hd)).subperm hspec.2.2
  apply List.toFinset_eq_of_perm
  apply hsub.perm_of_length_le
  rw [← hspec.2.1, h.size d hd]

/-- A clause with the same literals is found. -/
theorem WfTable.find_none (h : s.WfTable) {l : List Lit} {i : Nat}
    (hindex : reduceHash (computeHash l) s.clauses.length = some i)
    (hfind : s.find l (computeHash l) (s.clauses.getD i []) = none) (hl : Sorted l) :
  s.count l = 0
  := by
  by_contra hne
  obtain ⟨d, hd, hsame⟩ := (s.count_pos_iff l).mp (Nat.pos_of_ne_zero hne)
  obtain ⟨l', hl', hperm, hhash⟩ := h.hash d (h.stored_lt hd)
  obtain rfl : l' = l := by
    apply hl'.eq hl
    rw [List.toFinset_eq_of_perm _ _ hperm, hsame]
  have hmem : d ∈ s.clauses.getD i [] := by
    apply h.hashed.mem_getD hd
    rw [index, hhash]
    exact hindex
  apply List.find?_eq_none.mp hfind d hmem
  rw [decide_eq_true_eq, hhash, h.size d hd, hperm.length_eq]
  exact ⟨rfl, rfl, fun k hk => hperm.symm.subset hk⟩

/-! ### Importing a clause -/

theorem le_enlargeLoop (idx n m : Nat) :
  m ≤ enlargeLoop idx n m
  := by
  induction n generalizing m with
  | zero => exact le_rfl
  | succ n ih =>
      rw [enlargeLoop]
      split
      · exact (Nat.le_mul_of_pos_left m Nat.two_pos).trans (ih (2 * m))
      · exact le_rfl

/-- Doubling often enough exceeds every index. -/
theorem lt_enlargeLoop {idx n m : Nat} (h : idx < m * 2 ^ n) :
  idx < enlargeLoop idx n m
  := by
  induction n generalizing m with
  | zero => simpa [enlargeLoop] using h
  | succ n ih =>
      rw [enlargeLoop]
      split
      · apply ih
        calc idx
          _ < m * 2 ^ (n + 1) := h
          _ = 2 * m * 2 ^ n := by rw [Nat.pow_succ, ← Nat.mul_assoc, Nat.mul_right_comm, Nat.mul_comm m]
      · next hlt => exact Nat.lt_of_not_le hlt

/-- Importing a literal makes room for its variable, and changes nothing else. -/
theorem importLiteral_spec (s : Checker) (lit : Lit) :
  s.sizeVars ≤ (s.importLiteral lit).sizeVars ∧ lit.vidx < (s.importLiteral lit).sizeVars
    ∧ s.importLiteral lit = { s with sizeVars := (s.importLiteral lit).sizeVars }
  := by
  rw [importLiteral]
  split
  · have hpow : lit.vidx < 2 ^ lit.vidx := Nat.lt_two_pow_self
    rw [enlargeVars]
    refine ⟨?_, ?_, rfl⟩
    · apply le_trans _ (le_enlargeLoop _ _ _)
      split <;> omega
    · apply lt_enlargeLoop
      apply hpow.trans_le
      apply Nat.le_mul_of_pos_left
      split <;> omega
  · next h => exact ⟨le_rfl, Nat.not_le.mp h, rfl⟩

/-- Importing a clause makes room for its variables, and changes nothing else. -/
theorem importClause_spec (s : Checker) (c : List Lit) :
  s.sizeVars ≤ (s.importClause c).sizeVars
    ∧ (∀ k ∈ c, k.vidx < (s.importClause c).sizeVars)
    ∧ s.importClause c = { s with sizeVars := (s.importClause c).sizeVars }
  := by
  induction c generalizing s with
  | nil => exact ⟨le_rfl, List.forall_mem_nil _, rfl⟩
  | cons lit c ih =>
      obtain ⟨hle, hlt, heq⟩ := s.importLiteral_spec lit
      obtain ⟨hle', hlt', heq'⟩ := ih (s.importLiteral lit)
      change s.sizeVars ≤ ((s.importLiteral lit).importClause c).sizeVars
        ∧ (∀ k ∈ lit :: c, k.vidx < ((s.importLiteral lit).importClause c).sizeVars)
        ∧ (s.importLiteral lit).importClause c
          = { s with sizeVars := ((s.importLiteral lit).importClause c).sizeVars }
      generalize (s.importLiteral lit).importClause c = s'' at hle' hlt' heq' ⊢
      generalize s.importLiteral lit = s' at hle hlt heq hle' heq'
      refine ⟨hle.trans hle', ?_, heq'.trans (by rw [heq])⟩
      · intro k hk
        obtain rfl | hk := List.mem_cons.mp hk
        · exact hlt.trans_le hle'
        · exact hlt' k hk

/-- With room for more variables the table is still well formed. -/
theorem WfTable.set_sizeVars (h : s.WfTable) {n : Nat} (hn : s.sizeVars ≤ n) :
  { s with sizeVars := n }.WfTable
  := ⟨h.hashed, h.nodup, h.lt, h.numClauses, h.numGarbage, h.load, h.length, h.lits_nodup,
    fun c hc k hk => (h.vidx_lt c hc k hk).trans_le hn, h.hash, h.size, h.garbage⟩

/-! ### Inserting a clause -/

/-- The table is twice as large. -/
theorem WfTable.enlargeClauses (h : s.WfTable) (hfull : s.numClauses = s.clauses.length) :
  s.enlargeClauses.WfTable ∧ s.enlargeClauses.clauses.flatten.Perm s.clauses.flatten
    ∧ s.numClauses < s.enlargeClauses.clauses.length
  := by
  generalize hsize : (if s.clauses.length ≠ 0 then 2 * s.clauses.length else 1) = size
  have hlt : s.numClauses < size := by
    rw [← hsize]
    split <;> omega
  have hlength : (List.replicate size ([] : List Nat)).length = size := List.length_replicate
  have hlinks := links_foldl s.memory (by omega : 0 < (List.replicate size []).length)
    s.clauses.flatten
  have hflatten := hlinks.flatten
  rw [List.flatten_replicate_nil, List.append_nil] at hflatten
  have heq : s.enlargeClauses = { s with
      clauses := s.clauses.flatten.foldl (link s.memory) (List.replicate size []) } := by
    rw [Checker.enlargeClauses, hsize]
  rw [heq]
  refine ⟨⟨hlinks.hashed (Chains.Hashed.replicate_nil _ _), ?_, ?_, ?_, h.numGarbage, ?_, h.length,
    h.lits_nodup, h.vidx_lt, h.hash, ?_, h.garbage⟩, hflatten, ?_⟩
  · exact (hflatten.append_right s.garbage).nodup_iff.mpr h.nodup
  · intro c hc
    exact h.lt c ((hflatten.append_right s.garbage).subset hc)
  · exact h.numClauses.trans hflatten.length_eq.symm
  · rw [hlinks.length, hlength]
    exact hlt.le
  · intro c hc
    exact h.size c (hflatten.subset hc)
  · rwa [hlinks.length, hlength]

/-- The clause with the literals `literals` has been put into the table. -/
structure Inserted (s s' : Checker) (l literals : List Lit) : Prop where
  sizeVars : s'.sizeVars = s.sizeVars
  numAllocated : s'.numAllocated = s.numAllocated + 1
  inconsistent : s'.inconsistent = s.inconsistent
  garbage : s'.garbage = s.garbage
  trail : s'.trail = s.trail
  nextToPropagate : s'.nextToPropagate = s.nextToPropagate
  memory : s'.memory
    = Function.update s.memory s.numAllocated ⟨computeHash l, literals.length, literals⟩
  flatten : s'.clauses.flatten.Perm (s.numAllocated :: s.clauses.flatten)

theorem Inserted.lits_self {s' : Checker} {l literals : List Lit}
    (h : s.Inserted s' l literals) :
  s'.lits s.numAllocated = literals
  := by
  rw [lits, h.memory, Function.update_self]

/-- The clauses that were there keep their literals. -/
theorem Inserted.lits_of_ne {s' : Checker} {l literals : List Lit}
    (h : s.Inserted s' l literals) {c : Nat} (hc : c ≠ s.numAllocated) :
  s'.lits c = s.lits c
  := by
  rw [lits, h.memory, Function.update_of_ne hc, lits]

/-- The new clause is stored beside those that were there. -/
theorem Inserted.stored {s' : Checker} {l literals : List Lit}
    (h : s.Inserted s' l literals) (c : Nat) :
  s'.Stored c ↔ c = s.numAllocated ∨ s.Stored c
  := by
  rw [Stored, h.flatten.mem_iff, List.mem_cons]
  rfl

/-- The new clause is counted once more. -/
theorem Inserted.count {s' : Checker} {l literals : List Lit} (h : s.Inserted s' l literals)
    (hs : s.WfTable) (c : List Lit) :
  s'.count c = s.count c + if literals.toFinset = c.toFinset then 1 else 0
  := by
  rw [Checker.count, h.flatten.countP_eq, List.countP_cons, h.lits_self, Checker.count]
  congr 1
  · apply List.countP_congr
    intro d hd
    rw [h.lits_of_ne (Nat.ne_of_lt (hs.stored_lt hd))]
  · simp only [decide_eq_true_eq]

/-- The table is well formed with the new clause. -/
theorem Inserted.wfTable {s' : Checker} {l literals : List Lit} (h : s.Inserted s' l literals)
    (hs : s.WfTable) (hl : Sorted l) (hperm : literals.Perm l) (htwo : 2 ≤ l.length)
    (hlt : ∀ k ∈ l, k.vidx < s.sizeVars)
    (hhashed : Chains.Hashed (index s'.memory s'.clauses.length) s'.clauses)
    (hnum : s'.numClauses = s.numClauses + 1) (hgarbage : s'.numGarbage = s.numGarbage)
    (hload : s'.numClauses ≤ s'.clauses.length) :
  s'.WfTable
  := by
  have hnew : ∀ c < s.numAllocated + 1, c = s.numAllocated ∨ c < s.numAllocated := by omega
  have hmem {c : Nat} (hc : c ≠ s.numAllocated) : s'.memory c = s.memory c := by
    rw [h.memory, Function.update_of_ne hc]
  have happend : (s'.clauses.flatten ++ s'.garbage).Perm
      (s.numAllocated :: (s.clauses.flatten ++ s.garbage)) := by
    rw [h.garbage]
    exact h.flatten.append_right s.garbage
  refine ⟨hhashed, ?_, ?_, ?_, ?_, hload, ?_, ?_, ?_, ?_, ?_, ?_⟩
  · rw [happend.nodup_iff, List.nodup_cons]
    exact ⟨fun hmem => Nat.lt_irrefl _ (hs.lt _ hmem), hs.nodup⟩
  · intro c hc
    rw [h.numAllocated]
    obtain rfl | hc := List.mem_cons.mp (happend.subset hc)
    · exact Nat.lt_succ_self _
    · exact (hs.lt c hc).trans (Nat.lt_succ_self _)
  · rw [hnum, h.flatten.length_eq, List.length_cons, hs.numClauses]
  · rw [hgarbage, h.garbage]
    exact hs.numGarbage
  · intro c hc
    obtain rfl | hc := hnew c (h.numAllocated ▸ hc)
    · rw [h.lits_self, hperm.length_eq]
      exact htwo
    · rw [h.lits_of_ne (Nat.ne_of_lt hc)]
      exact hs.length c hc
  · intro c hc
    obtain rfl | hc := hnew c (h.numAllocated ▸ hc)
    · rw [h.lits_self, hperm.nodup_iff]
      exact hl.nodup
    · rw [h.lits_of_ne (Nat.ne_of_lt hc)]
      exact hs.lits_nodup c hc
  · intro c hc k hk
    rw [h.sizeVars]
    obtain rfl | hc := hnew c (h.numAllocated ▸ hc)
    · rw [h.lits_self] at hk
      exact hlt k (hperm.subset hk)
    · rw [h.lits_of_ne (Nat.ne_of_lt hc)] at hk
      exact hs.vidx_lt c hc k hk
  · intro c hc
    obtain rfl | hc := hnew c (h.numAllocated ▸ hc)
    · refine ⟨l, hl, ?_, ?_⟩
      · rw [h.lits_self]
        exact hperm.symm
      · rw [h.memory, Function.update_self]
    · rw [h.lits_of_ne (Nat.ne_of_lt hc), hmem (Nat.ne_of_lt hc)]
      exact hs.hash c hc
  · intro c hc
    obtain rfl | hc := (h.stored c).mp hc
    · rw [h.lits_self, h.memory, Function.update_self]
    · have hne := Nat.ne_of_lt (hs.stored_lt hc)
      rw [h.lits_of_ne hne, hmem hne]
      exact hs.size c hc
  · intro c hc
    rw [h.garbage] at hc
    rw [hmem (Nat.ne_of_lt (hs.lt c (List.mem_append_right _ hc)))]
    exact hs.garbage c hc

end Checker

end Cadical
