import Mathlib.Data.List.Sort
import IgnoreGates.CnfTools.SolverTypes

/-!
# Formulas

`CNFFormula` owns the clause objects.  `readClause` sorts the literals of a clause, drops
repeated ones and drops the whole clause when it contains a literal and its complement.
What it leaves is carried as a field of the structure: the variables of a stored clause
increase strictly and are bounded by `nVars`.
-/

namespace CnfTools

/-- The variables of the clause increase strictly: the clause is sorted and contains no
literal twice and no literal together with its complement. -/
def Cl.Canonical (c : Cl) : Prop :=
  c.Pairwise (fun k l => k.var < l.var)

instance (c : Cl) : Decidable c.Canonical :=
  inferInstanceAs (Decidable (c.Pairwise _))

theorem Cl.Canonical.nodup {c : Cl} (h : Cl.Canonical c) :
  c.Nodup
  := by
  apply h.imp
  rintro k _ hlt rfl
  exact lt_irrefl _ hlt

theorem Cl.Canonical.compl_not_mem {c : Cl} (h : Cl.Canonical c) {l : Lit} (hl : l ∈ c) :
  ~~~l ∉ c
  := by
  intro hl'
  have hvar := List.Pairwise.forall_of_forall_of_flip
    (R := fun k l : Lit => k.var = l.var → k = l) (fun _ _ _ => rfl)
    (h.imp (fun hlt heq => absurd heq (ne_of_lt hlt)))
    (h.imp (fun hlt heq => absurd heq.symm (ne_of_lt hlt)))
  exact Lit.compl_ne l (hvar hl' hl (Lit.var_compl l))

/-- `CNFFormula`: the clause objects in the order in which `readClause` stored them, and
the member variable that `nVars` returns. -/
structure CNFFormula where
  formula : List Cl
  nVars : Nat
  canonical : ∀ c ∈ formula, Cl.Canonical c
  var_le : ∀ c ∈ formula, ∀ l ∈ c, l.var ≤ nVars

namespace CNFFormula

def empty : CNFFormula where
  formula := []
  nVars := 0
  canonical := fun _ h => absurd h List.not_mem_nil
  var_le := fun _ h => absurd h List.not_mem_nil

def nClauses (F : CNFFormula) : Nat :=
  F.formula.length

/-- The literals of the clause object a pointer points to. -/
def deref (F : CNFFormula) (p : Ptr) : Cl :=
  F.formula.getD p []

/-- The pointers to the clause objects, in order. -/
def pointers (F : CNFFormula) : For :=
  List.range F.nClauses

theorem deref_mem_or (F : CNFFormula) (p : Ptr) :
  F.deref p ∈ F.formula ∨ F.deref p = []
  := by
  rw [deref, List.getD_eq_getElem?_getD]
  by_cases hp : p < F.formula.length
  · left
    rw [List.getElem?_eq_getElem hp, Option.getD_some]
    apply List.getElem_mem
  · right
    rw [List.getElem?_eq_none (Nat.le_of_not_lt hp), Option.getD_none]

theorem deref_of_le (F : CNFFormula) {p : Ptr} (h : F.nClauses ≤ p) :
  F.deref p = []
  := by
  rw [deref, List.getD_eq_getElem?_getD, List.getElem?_eq_none h, Option.getD_none]

theorem deref_canonical (F : CNFFormula) (p : Ptr) :
  Cl.Canonical (F.deref p)
  := by
  obtain h | h := F.deref_mem_or p
  · exact F.canonical _ h
  · rw [h]
    exact List.Pairwise.nil

/-- A clause object with two or more literals mentions a variable other than zero. -/
theorem exists_var_pos (F : CNFFormula) {p : Ptr} (h : 1 < (F.deref p).length) :
  ∃ l ∈ F.deref p, 0 < l.var
  := by
  have hcan := F.deref_canonical p
  cases hc : F.deref p with
  | nil =>
      rw [hc] at h
      cases h
  | cons k c =>
      cases c with
      | nil =>
          rw [hc] at h
          exact absurd h (Nat.lt_irrefl 1)
      | cons l c =>
          rw [hc] at hcan
          have hlt := (List.pairwise_cons.mp hcan).1 l List.mem_cons_self
          exact ⟨l, by simp, Nat.zero_lt_of_lt hlt⟩

theorem deref_var_le (F : CNFFormula) {p : Ptr} {l : Lit} (h : l ∈ F.deref p) :
  l.var ≤ F.nVars
  := by
  obtain hp | hp := F.deref_mem_or p
  · exact F.var_le _ hp l h
  · rw [hp] at h
    cases h

theorem lt_of_mem_deref (F : CNFFormula) {p : Ptr} {l : Lit} (h : l ∈ F.deref p) :
  p < F.nClauses
  := by
  by_contra hp
  rw [F.deref_of_le (Nat.le_of_not_lt hp)] at h
  cases h

/-- The clauses of the formula. -/
def clauses (F : CNFFormula) : Set (Logic.Clause Lit) :=
  {c | c ∈ F.formula}

/-- The clauses a list of pointers points to. -/
def clausesAt (F : CNFFormula) (ps : For) : Set (Logic.Clause Lit) :=
  {c | ∃ p ∈ ps, F.deref p = c}

theorem deref_mem_clausesAt (F : CNFFormula) {p : Ptr} {ps : For} (h : p ∈ ps) :
  F.deref p ∈ F.clausesAt ps
  := ⟨p, h, rfl⟩

/-! ### Reading a clause -/

/-- The loop of `readClause` over the sorted literals: `it` is the last literal kept, the
list holds the literals from `jt` on.  `none` is the early return on a tautology. -/
def compress (it : Lit) : List Lit → Option (List Lit)
  | [] => some [it]
  | jt :: rest =>
      if it ≠ jt then
        if it.var = jt.var then none else (compress jt rest).map (it :: ·)
      else
        compress it rest

/-- The literals `readClause` stores for a list of literals, `none` if it stores nothing. -/
def sanitize (lits : List Lit) : Option Cl :=
  match lits.insertionSort (· ≤ ·) with
  | [] => some []
  | it :: rest => compress it rest

/-- On sorted literals the loop of `readClause` leaves the same set of literals, on
strictly increasing variables. -/
theorem compress_spec {it : Lit} {lits c : List Lit}
    (hsorted : (it :: lits).Pairwise (· ≤ ·)) (h : compress it lits = some c) :
  Cl.Canonical c ∧ ∀ l, l ∈ c ↔ l ∈ it :: lits
  := by
  induction lits generalizing it c with
  | nil =>
      obtain rfl := Option.some.inj h
      exact ⟨List.pairwise_singleton _ _, fun l => Iff.rfl⟩
  | cons jt rest ih =>
      obtain ⟨hit, hrest⟩ := List.pairwise_cons.mp hsorted
      rw [compress] at h
      split at h
      · next hne =>
          split at h
          · cases h
          · next hvar =>
              obtain ⟨c', hc', rfl⟩ := Option.map_eq_some_iff.mp h
              obtain ⟨hcan, hmem⟩ := ih hrest hc'
              constructor
              · apply List.pairwise_cons.mpr
                refine ⟨?_, hcan⟩
                intro l hl
                have hjl : jt ≤ l := by
                  obtain rfl | hl := List.mem_cons.mp ((hmem l).mp hl)
                  · exact Nat.le_refl _
                  · exact (List.pairwise_cons.mp hrest).1 l hl
                have hij : it ≤ jt := hit jt List.mem_cons_self
                have h₁ : it.x / 2 ≤ jt.x / 2 := Nat.div_le_div_right hij
                have h₂ : jt.x / 2 ≤ l.x / 2 := Nat.div_le_div_right hjl
                have h₃ : it.x / 2 ≠ jt.x / 2 := hvar
                show it.x / 2 < l.x / 2
                omega
              · intro l
                rw [List.mem_cons, hmem l, ← List.mem_cons]
      · next heq =>
          rw [not_not] at heq
          subst heq
          obtain ⟨hcan, hmem⟩ := ih (List.pairwise_cons.mpr
            ⟨fun l hl => hit l (List.mem_cons_of_mem _ hl), (List.pairwise_cons.mp hrest).2⟩) h
          refine ⟨hcan, ?_⟩
          intro l
          rw [hmem l]
          simp

theorem insertionSort_sorted (lits : List Lit) :
  (lits.insertionSort (· ≤ ·)).Pairwise (· ≤ ·)
  := by
  have : Std.Total (α := Lit) (· ≤ ·) := ⟨fun k l => Nat.le_total k.x l.x⟩
  have : IsTrans Lit (· ≤ ·) := ⟨fun _ _ _ h h' => Nat.le_trans h h'⟩
  apply List.pairwise_insertionSort

/-- What `readClause` stores has strictly increasing variables and the given literals. -/
theorem sanitize_spec {lits : List Lit} {c : Cl} (h : sanitize lits = some c) :
  Cl.Canonical c ∧ ∀ l, l ∈ c ↔ l ∈ lits
  := by
  have hsorted := insertionSort_sorted lits
  have hmem : ∀ l, l ∈ lits.insertionSort (· ≤ ·) ↔ l ∈ lits :=
    fun l => (List.perm_insertionSort _ lits).mem_iff
  rw [sanitize] at h
  split at h
  · next hnil =>
      obtain rfl := Option.some.inj h
      refine ⟨List.Pairwise.nil, ?_⟩
      intro l
      rw [← hmem l, hnil]
  · next it rest hcons =>
      rw [hcons] at hsorted
      obtain ⟨hcan, hc⟩ := compress_spec hsorted h
      refine ⟨hcan, ?_⟩
      intro l
      rw [hc l, ← hmem l, hcons]

/-- The largest variable so far and in the stored clause, read off its last literal. -/
def raise (n : Nat) (c : Cl) : Nat :=
  match c.getLast? with
  | none => n
  | some l => max n l.var

theorem le_raise (n : Nat) (c : Cl) :
  n ≤ raise n c
  := by
  rw [raise]
  split
  · exact Nat.le_refl _
  · exact Nat.le_max_left _ _

theorem var_le_raise (n : Nat) {c : Cl} (h : Cl.Canonical c) {l : Lit} (hl : l ∈ c) :
  l.var ≤ raise n c
  := by
  obtain ⟨c', k, rfl⟩ : ∃ c' k, c = c' ++ [k] := by
    rcases List.eq_nil_or_concat c with rfl | ⟨c', k, rfl⟩
    · cases hl
    · exact ⟨c', k, List.concat_eq_append⟩
  rw [raise, List.getLast?_concat]
  apply le_trans _ (Nat.le_max_right _ _)
  obtain hl | hl := List.mem_append.mp hl
  · exact Nat.le_of_lt ((List.pairwise_append.mp h).2.2 l hl k List.mem_cons_self)
  · rw [List.mem_singleton.mp hl]

/-- `readClause`: stores the sanitized clause behind the others. -/
def readClause (F : CNFFormula) (lits : List Lit) : CNFFormula :=
  match h : sanitize lits with
  | none => F
  | some c =>
      { formula := F.formula ++ [c]
        nVars := raise F.nVars c
        canonical := by
          intro d hd
          obtain hd | hd := List.mem_append.mp hd
          · exact F.canonical d hd
          · rw [List.mem_singleton.mp hd]
            exact (sanitize_spec h).1
        var_le := by
          intro d hd l hl
          obtain hd | hd := List.mem_append.mp hd
          · exact (F.var_le d hd l hl).trans (le_raise _ _)
          · rw [List.mem_singleton.mp hd] at hl
            exact var_le_raise _ (sanitize_spec h).1 hl }

/-- The formula that `readDimacsFromFile` builds from the clauses it reads. -/
def readDimacs (clauses : List (List Int)) : CNFFormula :=
  clauses.foldl (fun F clause => F.readClause (clause.map Lit.ofDimacs)) empty

end CNFFormula

end CnfTools
