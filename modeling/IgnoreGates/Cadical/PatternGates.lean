import Mathlib.Data.List.Nodup
import IgnoreGates.Cadical.BinaryGates
import IgnoreGates.Logic.Parity

/-!
# If-then-else and XOR gates

These gates are found by looking for clauses with given unassigned literals, where all
assigned literals are skipped, also the true ones.  The unassigned literals of the clauses
of such a gate form a pattern: any assignment falsifies one of the clauses apart from the
pivot, and some assignment falsifies a given one only.  Hence the gate clauses define the
pivot exactly when none of them is satisfied at the root level.
-/

namespace Cadical

open Logic

namespace Eliminator

variable (s : Eliminator)

/-! ### Patterns -/

/-- The unassigned literals of a clause other than those of the pivot are false. -/
def FalsifiedOff (σ : Assignment Nat) (pivot : Lit) (c : Nat) : Prop :=
  ∀ l ∈ s.free c, l.vidx ≠ pivot.vidx → σ.value l = false

/-- A clause that is not garbage, with the pivot or its complement and two unassigned literals
at least besides. -/
structure Eligible (pivot : Lit) (c : Nat) : Prop where
  garbage : s.garbage c = false
  mem : pivot ∈ s.clause c ∨ -pivot ∈ s.clause c
  free : 3 ≤ (s.free c).length

/-- The unassigned literals of the clauses form a pattern around the pivot. -/
structure Pattern (pivot : Lit) (gates : List Nat) : Prop where
  eligible : ∀ c ∈ gates, s.Eligible pivot c
  exists_falsified : ∀ σ, s.Extends σ → ∃ c ∈ gates, s.FalsifiedOff σ pivot c
  exists_unique : ∀ c ∈ gates, ∃ σ, s.Extends σ ∧ ∀ d ∈ gates, s.FalsifiedOff σ pivot d → d = c

variable {s}

theorem mem_free {c : Nat} {l : Lit} :
  l ∈ s.free c ↔ l ∈ s.clause c ∧ s.val l = none
  := by
  rw [free, List.mem_filter, decide_eq_true_iff]

/-- A pattern defines the pivot exactly when none of its clauses is satisfied. -/
theorem Pattern.defined_iff (hs : s.Connected) {pivot : Lit} (hpivot : s.val pivot = none)
    {gates : List Nat} (hgates : ∀ c, s.gate c = true ↔ c ∈ gates) (h : s.Pattern pivot gates) :
  s.Defined pivot ↔ ∀ c ∈ gates, ¬ s.Satisfied (s.clause c)
  := by
  have hoff : ∀ l, s.val l ≠ none → l.vidx ≠ pivot.vidx := by
    intro l hl hvar
    apply hl
    rw [val_eq_none_congr hvar, hpivot]
  rw [Eliminator.defined_iff hs hpivot]
  constructor
  · rintro hall c hc ⟨l, hl, htrue⟩
    obtain ⟨σ, hσ, hunique⟩ := h.exists_unique c hc
    apply hall σ hσ
    intro d hd
    by_cases hdc : d = c
    · subst hdc
      exact ⟨l, hl, hoff l (by simp [htrue]), hσ.value htrue⟩
    · have hnot := mt (hunique d ((hgates d).mp hd)) hdc
      simp only [FalsifiedOff, not_forall, Bool.not_eq_false] at hnot
      obtain ⟨k, hk, hne, hval⟩ := hnot
      exact ⟨k, (mem_free.mp hk).1, hne, hval⟩
  · intro hnone σ hσ hall
    obtain ⟨c, hc, hfalse⟩ := h.exists_falsified σ hσ
    obtain ⟨l, hl, hne, hval⟩ := hall c ((hgates c).mpr hc)
    cases hl' : s.val l with
    | none =>
        rw [hfalse l (mem_free.mpr ⟨hl, hl'⟩) hne] at hval
        cases hval
    | some b =>
        cases b with
        | false =>
            rw [hσ.value hl'] at hval
            cases hval
        | true => exact hnone c hc ⟨l, hl, hl'⟩

/-- Giving a literal a value. -/
theorem value_make_signed (σ : Assignment Nat) (lit : Lit) (b : Bool) :
  (σ.make (if b then lit else -lit)).value lit = b
  := by
  cases b with
  | true => exact Assignment.make_value_self σ lit
  | false =>
      have hneg : (σ.make (-lit)).value (-lit) = !(σ.make (-lit)).value lit :=
        Assignment.value_neg _ lit
      rw [Assignment.make_value_self] at hneg
      simpa using hneg.symm

/-- Unassigned literals of different variables can be given any values. -/
theorem exists_extends {lits : List Lit} (hnodup : (lits.map Lit.vidx).Nodup)
    (hfree : ∀ l ∈ lits, s.val l = none) (f : Nat → Bool) :
  ∃ σ : Assignment Nat, s.Extends σ ∧ ∀ i l, lits[i]? = some l → σ.value l = f i
  := by
  induction lits generalizing f with
  | nil =>
      refine ⟨fun v => (s.vals v).getD false, ?_, by simp⟩
      intro v b hv
      simp only [hv, Option.getD_some]
  | cons lit lits ih =>
      obtain ⟨hlit, hnodup⟩ := List.nodup_cons.mp hnodup
      obtain ⟨hnone, hfree⟩ := List.forall_mem_cons.mp hfree
      obtain ⟨σ, hσ, hval⟩ := ih hnodup hfree (fun i => f (i + 1))
      have hvar : (if f 0 then lit else -lit).vidx = lit.vidx := by
        split
        · rfl
        · exact Lit.vidx_neg lit
      use σ.make (if f 0 then lit else -lit)
      constructor
      · apply hσ.make
        rwa [val_eq_none_congr hvar]
      · intro i l hl
        cases i with
        | zero =>
            cases hl
            exact value_make_signed σ lit (f 0)
        | succ i =>
            rw [Assignment.make_value_of_ne, hval i l hl]
            change l.vidx ≠ _
            rw [show Literal.var (if f 0 then lit else -lit) = lit.vidx from hvar]
            intro heq
            apply hlit
            rw [← heq]
            exact List.mem_map_of_mem (List.mem_of_getElem? hl)

variable (s)

/-- `get_ternary_clause` -/
def getTernaryClause (d : Nat) : Option (Lit × Lit × Lit) :=
  if s.garbage d then none
  else if (s.clause d).length < 3 then none
  else
    match s.free d with
    | [a, b, c] => some (a, b, c)
    | _ => none

/-- `match_ternary_clause` -/
def matchTernaryClause (d : Nat) (a b c : Lit) : Bool :=
  !s.garbage d && (s.free d).all (fun lit => lit = a || lit = b || lit = c)
    && (s.free d).length == 3

/-- `find_ternary_clause` -/
def findTernaryClause (a b c : Lit) : Option Nat :=
  let (b, c) := if (s.occs b).length > (s.occs c).length then (c, b) else (b, c)
  let (a, b) := if (s.occs a).length > (s.occs b).length then (b, a) else (a, b)
  (s.occs a).find? (fun d => s.matchTernaryClause d a b c)

variable {s}

/-- A ternary clause is not garbage and has three unassigned literals. -/
theorem getTernaryClause_some {d : Nat} {a b c : Lit}
    (h : s.getTernaryClause d = some (a, b, c)) :
  s.garbage d = false ∧ s.free d = [a, b, c]
  := by
  rw [getTernaryClause] at h
  split at h
  · cases h
  · next hgarbage =>
      split at h
      · cases h
      split at h
      · next heq =>
          cases h
          exact ⟨Bool.not_eq_true _ ▸ hgarbage, heq⟩
      · cases h

variable (s)

/-- `get_clause` -/
def getClause (c : Nat) : Option (List Lit) :=
  if s.garbage c then none else some (s.free c)

/-- `is_clause` -/
def isClause (c : Nat) (lits : List Lit) : Bool :=
  !s.garbage c && lits.length ≤ (s.clause c).length && (s.free c).all (· ∈ lits)
    && (s.free c).length == lits.length

/-- The loop of `find_clause` that picks the first literal with the fewest occurrences. -/
def bestLiteral : List Lit → Option Lit → Option Lit
  | [], best => best
  | lit :: lits, none => bestLiteral lits (some lit)
  | lit :: lits, some best =>
      bestLiteral lits
        (some (if (s.occs best).length ≤ (s.occs lit).length then best else lit))

/-- `find_clause` -/
def findClause (lits : List Lit) : Option Nat :=
  match s.bestLiteral lits none with
  | none => none
  | some best => (s.occs best).find? (fun c => s.isClause c lits)

/-- `parity` of a number with 32 bits -/
def parity : Nat → Bool :=
  oddParity 32

/-- The loop of `find_xor_gate` that negates the literals whose signs change. -/
def changeSigns (prev signs : Nat) (lits : List Lit) : List Lit :=
  lits.mapIdx (fun j lit => if prev.testBit j = signs.testBit j then lit else -lit)

/-- The loop of `find_xor_gate` over the additional clauses that are needed. -/
def xorLoop : Nat → Nat → List Lit → Option (List Nat)
  | 0, _, _ => some []
  | needed + 1, prev, lits =>
      let signs := nextEven parity prev
      let lits := changeSigns prev signs lits
      match s.findClause lits with
      | none => none
      | some e => (xorLoop needed signs lits).map (e :: ·)

/-- The body of the loop of `find_xor_gate` over the clauses with the pivot. -/
def xorGate (d : Nat) : Option (List Nat) :=
  match s.getClause d with
  | none => none
  | some lits =>
      let arity := lits.length - 1
      if lits.length < 3 then none
      else if s.opts.elimxorlim < arity then none
      else (s.xorLoop (2 ^ arity - 1) 0 lits).map (· ++ [d])

variable {s}

/-- The literals with the signs given by the bits of a number. -/
def signed (signs : Nat) (lits : List Lit) : List Lit :=
  lits.mapIdx (fun j lit => if signs.testBit j then -lit else lit)

theorem mem_signed {signs : Nat} {lits : List Lit} {l : Lit} :
  l ∈ signed signs lits ↔
    ∃ j k, lits[j]? = some k ∧ l = if signs.testBit j then -k else k
  := by
  rw [signed, List.mem_iff_getElem?]
  simp only [List.getElem?_mapIdx, Option.map_eq_some_iff]
  constructor
  · rintro ⟨j, k, hk, rfl⟩
    exact ⟨j, k, hk, rfl⟩
  · rintro ⟨j, k, hk, rfl⟩
    exact ⟨j, k, hk, rfl⟩

end Eliminator

end Cadical
