import IgnoreGates.CnfTools.SolverTypes
import IgnoreGates.Logic.Definition

/-!
# Clauses in dense mode

In dense mode a literal watches all irredundant clauses it occurs in: a binary clause through
its other literal, and a large clause through its position in the arena.  Root-level values
may be assigned without having been propagated, so clauses may contain true and false
literals.  The extractors look at a clause through its unassigned literals, and mark it as
garbage when they meet a true one.
-/

namespace Kissat

open Logic

/-! ### Literals -/

/-- An internal literal `2 * idx + sign`, packed as the literals of cnftools are. -/
abbrev Lit := CnfTools.Lit

/-- `LIT`: the positive literal of a variable. -/
def LIT (idx : Nat) : Lit :=
  CnfTools.Lit.ofVar idx false

/-- `IDX`: the variable of a literal. -/
def IDX (lit : Lit) : Nat :=
  lit.var

/-- `NOT`: the lowest bit is flipped. -/
def NOT (lit : Lit) : Lit :=
  ~~~lit

/-- `STRIP`: the lowest bit is cleared. -/
def STRIP (lit : Lit) : Lit :=
  ⟨lit.x / 2 * 2⟩

@[simp]
theorem IDX_NOT (lit : Lit) :
  IDX (NOT lit) = IDX lit
  := CnfTools.Lit.var_compl lit

@[simp]
theorem NOT_NOT (lit : Lit) :
  NOT (NOT lit) = lit
  := CnfTools.Lit.compl_compl lit

theorem NOT_ne (lit : Lit) :
  NOT lit ≠ lit
  := CnfTools.Lit.compl_ne lit

/-- Literals of the same variable are equal or complementary. -/
theorem eq_or_eq_NOT {k l : Lit} (h : IDX k = IDX l) :
  k = l ∨ k = NOT l
  := Literal.eq_or_eq_neg h

@[simp]
theorem value_NOT (σ : Assignment Nat) (lit : Lit) :
  σ.value (NOT lit) = !σ.value lit
  := Assignment.value_neg σ lit

/-- The literal itself, or its complement. -/
def side (lit : Lit) (negative : Bool) : Lit :=
  if negative then NOT lit else lit

theorem side_false (lit : Lit) :
  side lit false = lit
  := rfl

theorem side_side (lit : Lit) (m n : Bool) :
  side (side lit m) n = side lit (m ^^ n)
  := by
  cases m <;> cases n <;> simp [side]

/-- The side of a literal has the value of the literal or the opposite one. -/
theorem value_side (σ : Assignment Nat) (lit : Lit) (negative : Bool) :
  σ.value (side lit negative) = (σ.value lit ^^ negative)
  := by
  cases negative <;> simp [side]

theorem side_not (lit : Lit) (negative : Bool) :
  side lit (!negative) = NOT (side lit negative)
  := by
  cases negative <;> simp [side]

@[simp]
theorem IDX_side (lit : Lit) (negative : Bool) :
  IDX (side lit negative) = IDX lit
  := by
  cases negative <;> simp [side]

/-! ### The solver -/

/-- `union watch` in dense mode: the other literal of a binary clause, or the reference of a
large one. -/
inductive Watch where
  | binary (lit : Lit)
  | large (ref : Nat)
  deriving DecidableEq

/-- The options and bounds that the extractors read. -/
structure Options where
  extract : Bool
  equivalences : Bool
  ands : Bool
  ifthenelse : Bool
  xors : Bool
  definitions : Bool
  definitioncores : Nat
  /-- `bounds.eliminate.occurrences` -/
  occurrences : Nat
  /-- `bounds.eliminate.clause_size` -/
  clslim : Nat
  /-- `bounds.xor.clause_size` -/
  xorClauseSize : Nat

/-- What looking at a clause may change: the garbage marks of the clauses, and
`resolve_gate`. -/
structure Flags where
  garbage : Nat → Bool
  resolveGate : Bool

/-- `kissat_eliminate_clause`: marks the clause as garbage. -/
def Flags.eliminateClause (f : Flags) (ref : Nat) : Flags :=
  { f with garbage := Function.update f.garbage ref true }

/-- The types of gates that are printed. -/
inductive GateType where
  | EQV
  | AND
  | ITE
  | XOR
  | DEF
  deriving DecidableEq, Repr

/-- The part of the solver that the extractors use: the literals of the large clauses
(`arena`), the watches of each literal, the root-level values of the variables, the marks of
literals, the two stacks of gate clauses, and the printed lines.  `terminated` says after how
many steps the flag of asynchronous termination is seen. -/
structure Solver where
  options : Options
  terminated : Nat → Bool
  arena : Nat → List Lit
  watches : Lit → List Watch
  values : Nat → Option Bool
  flags : Flags
  marks : Lit → Bool
  gates : Bool → List Watch
  printed : List (Nat × GateType)

/-- `PUSH_STACK (solver->gates[negative], w)` for each of the watches. -/
def pushGates (gates : Bool → List Watch) (negative : Bool) (ws : List Watch) :
    Bool → List Watch :=
  fun b => if b = negative then gates b ++ ws else gates b

/-- The gates of a side are those that have been there and, on the side pushed to, the watches. -/
theorem mem_pushGates {gates : Bool → List Watch} {negative b : Bool} {ws : List Watch}
    {w : Watch} :
  w ∈ pushGates gates negative ws b ↔ w ∈ gates b ∨ b = negative ∧ w ∈ ws
  := by
  rw [pushGates]
  split
  · next h => simp [h]
  · next h => simp [h]

namespace Solver

variable (s : Solver)

/-- `values[lit]`, where zero is `none`. -/
def value (lit : Lit) : Option Bool :=
  (s.values (IDX lit)).map (· ^^ lit.sign)

/-- `watch_to_clause`: the literals of the clause that a watch of `lit` refers to. -/
def watchToClause (lit : Lit) : Watch → List Lit
  | .binary other => [lit, other]
  | .large ref => s.arena ref

theorem value_eq_none_iff {lit : Lit} :
  s.value lit = none ↔ s.values (IDX lit) = none
  := Option.map_eq_none_iff

theorem value_eq_none_congr {k l : Lit} (h : IDX k = IDX l) :
  s.value k = none ↔ s.value l = none
  := by
  rw [value_eq_none_iff, value_eq_none_iff, h]

/-- A literal is unassigned if and only if its complement is. -/
@[simp]
theorem value_NOT_eq_none_iff {lit : Lit} :
  s.value (NOT lit) = none ↔ s.value lit = none
  := s.value_eq_none_congr (IDX_NOT lit)

/-- Each watch of a literal refers to a clause with that literal, without duplicate and
complementary literals. -/
structure Connected : Prop where
  mem : ∀ lit, ∀ w ∈ s.watches lit, lit ∈ s.watchToClause lit w
  nodup : ∀ lit, ∀ w ∈ s.watches lit, (s.watchToClause lit w).Nodup
  not_taut : ∀ lit, ∀ w ∈ s.watches lit, ∀ l ∈ s.watchToClause lit w,
    NOT l ∉ s.watchToClause lit w

/-- No literal is marked. -/
def Unmarked : Prop :=
  ∀ lit, s.marks lit = false

/-- The stacks of gate clauses are empty. -/
def NoGates : Prop :=
  ∀ negative, s.gates negative = []

/-- The assignment extends the root-level values. -/
def Extends (σ : Assignment Nat) : Prop :=
  ∀ idx b, s.values idx = some b → σ idx = b

/-- The clauses that the gates of `lit` refer to. -/
def gateClauses (lit : Lit) : Set (Clause Lit) :=
  {c | ∃ negative, ∃ w ∈ s.gates negative, c = s.watchToClause (side lit negative) w}

variable {s}

/-- An assignment that extends the root-level values gives every assigned literal its value. -/
theorem Extends.value_eq {σ : Assignment Nat} (h : s.Extends σ) {lit : Lit} {b : Bool}
    (hlit : s.value lit = some b) :
  σ.value lit = b
  := by
  rw [value, Option.map_eq_some_iff] at hlit
  obtain ⟨a, ha, hab⟩ := hlit
  have hσ : σ (Literal.var lit) = a := h _ a ha
  rw [← hab, Assignment.value, hσ]
  rfl

/-- With the same arena, a watch stands for the same clause. -/
theorem watchToClause_congr {t : Solver} (harena : t.arena = s.arena) (lit : Lit) (w : Watch) :
  t.watchToClause lit w = s.watchToClause lit w
  := by
  cases w with
  | binary other => rfl
  | large ref => exact congrFun harena ref

/-- Watches may be removed. -/
theorem Connected.of_subset {t : Solver} (hs : s.Connected) (harena : t.arena = s.arena)
    (hwatches : ∀ lit, ∀ w ∈ t.watches lit, w ∈ s.watches lit) :
  t.Connected
  := by
  constructor <;> intro lit w hw <;> rw [watchToClause_congr harena]
  · exact hs.mem lit w (hwatches lit w hw)
  · exact hs.nodup lit w (hwatches lit w hw)
  · exact hs.not_taut lit w (hwatches lit w hw)

/-- Two solvers have the same clauses and values. -/
structure Same (s t : Solver) : Prop where
  options : t.options = s.options
  arena : t.arena = s.arena
  watches : t.watches = s.watches
  values : t.values = s.values

namespace Same

variable {t u : Solver}

theorem refl (s : Solver) :
  Same s s
  := ⟨rfl, rfl, rfl, rfl⟩

theorem trans (h : Same s t) (h' : Same t u) :
  Same s u
  := ⟨h'.options.trans h.options, h'.arena.trans h.arena, h'.watches.trans h.watches,
    h'.values.trans h.values⟩

/-- The same clauses are watched. -/
theorem watchToClause (h : Same s t) (lit : Lit) (w : Watch) :
  t.watchToClause lit w = s.watchToClause lit w
  := watchToClause_congr h.arena lit w

theorem value (h : Same s t) (lit : Lit) :
  t.value lit = s.value lit
  := by
  rw [Solver.value, Solver.value, h.values]

/-- The watches stay connected. -/
theorem connected (h : Same s t) (hs : s.Connected) :
  t.Connected
  := by
  apply hs.of_subset h.arena
  intro lit w hw
  rwa [h.watches] at hw

end Same

/-! ### Looking at the unassigned literals of a clause -/

/-- What a pass over the literals of a clause finds: a true literal, a literal that does not
fit, or a result. -/
inductive Scan (α : Type) where
  | satisfied
  | failed
  | done (a : α)
  deriving DecidableEq

variable (s)

/-- The loop of `match_ternary_ref` and `match_lits_ref` over the literals of a clause: each
unassigned literal has to fit, and they are counted. -/
def matchLiterals (fits : Lit → Bool) : List Lit → Nat → Scan Nat
  | [], found => .done found
  | other :: rest, found =>
      match s.value other with
      | some true => .satisfied
      | some false => matchLiterals fits rest found
      | none => if fits other then matchLiterals fits rest (found + 1) else .failed

/-- The other literals of the watched clause are false, or fit. -/
def Within (lit : Lit) (w : Watch) (fits : Lit → Prop) : Prop :=
  ∀ l ∈ s.watchToClause lit w, IDX l ≠ IDX lit → s.value l = some false ∨ fits l

variable {s}

/-- When all literals have been matched, each of them is false or fits. -/
theorem matchLiterals_done {fits : Lit → Bool} {c : List Lit} {found n : Nat}
    (h : s.matchLiterals fits c found = .done n) :
  ∀ l ∈ c, s.value l = some false ∨ fits l = true
  := by
  induction c generalizing found with
  | nil => simp
  | cons other rest ih =>
      rw [matchLiterals] at h
      rw [List.forall_mem_cons]
      split at h
      · cases h
      · next hother => exact ⟨Or.inl hother, ih h⟩
      · split at h
        · next hfits => exact ⟨Or.inr hfits, ih h⟩
        · cases h

/-- An assignment that extends the values and satisfies a clause apart from its watching
literal makes a literal true that fits. -/
theorem Within.exists_true {lit : Lit} {w : Watch} {fits : Lit → Prop}
    (h : s.Within lit w fits) {σ : Assignment Nat} (hσ : s.Extends σ)
    (hsat : Clause.SatOff σ (IDX lit) (s.watchToClause lit w)) :
  ∃ l, fits l ∧ IDX l ≠ IDX lit ∧ σ.value l = true
  := by
  obtain ⟨l, hl, hvar, hval⟩ := hsat
  obtain hfalse | hfits := h l hl hvar
  · rw [hσ.value_eq hfalse] at hval
    cases hval
  · exact ⟨l, hfits, hvar, hval⟩

/-- What fits may be weakened. -/
theorem Within.mono {lit : Lit} {w : Watch} {fits fits' : Lit → Prop}
    (h : s.Within lit w fits) (himp : ∀ l, IDX l ≠ IDX lit → fits l → fits' l) :
  s.Within lit w fits'
  := by
  intro l hl hvar
  obtain hfalse | hfits := h l hl hvar
  · exact Or.inl hfalse
  · exact Or.inr (himp l hvar hfits)

/-- A binary clause that is satisfied apart from its watching literal has its other literal
true. -/
theorem satOff_binary {σ : Assignment Nat} {idx : Nat} {lit other : Lit} (hlit : IDX lit = idx)
    (h : Clause.SatOff σ idx (s.watchToClause lit (.binary other))) :
  σ.value other = true
  := by
  obtain ⟨l, hl, hvar, hval⟩ := h
  obtain rfl | rfl | hl := List.mem_cons.mp hl |>.imp_right List.mem_cons.mp
  · exact absurd hlit hvar
  · exact hval
  · cases hl

/-! ### What an extractor promises -/

/-- The gate clauses are watched by the two literals of the variable of `lit`, and no
assignment that extends the root-level values satisfies all of them apart from it. -/
structure Found (s : Solver) (lit : Lit) (gates : Bool → List Watch) : Prop where
  mem : ∀ negative, ∀ w ∈ gates negative, w ∈ s.watches (side lit negative)
  refuted : ∀ σ : Assignment Nat, s.Extends σ →
    ¬ ∀ negative, ∀ w ∈ gates negative,
      Clause.SatOff σ (IDX lit) (s.watchToClause (side lit negative) w)

/-- An extractor leaves the clauses and values as they are and no literal marked, and if it
succeeds for an unassigned literal it has found gate clauses. -/
structure Extracted (s : Solver) (lit : Lit) (r : Bool × Solver) : Prop where
  same : Same s r.2
  printed : r.2.printed = s.printed
  unmarked : r.2.Unmarked
  gates : r.1 = false → r.2.gates = s.gates
  found : r.1 = true → s.value lit = none → Found s lit r.2.gates

/-! ### Searching the watches of a literal -/

/-- The loops of `find_ternary_clause` and `find_lits_watch`: the first watch that matches,
with its position. -/
def findWatch (matchesWatch : Watch → Flags → Bool × Flags) :
    List Watch → Nat → Flags → Option (Nat × Watch) × Flags
  | [], _, f => (none, f)
  | w :: ws, i, f =>
      match matchesWatch w f with
      | (true, f) => (some (i, w), f)
      | (false, f) => findWatch matchesWatch ws (i + 1) f

/-- Whether a watch belongs to a large clause. -/
def isLarge : Watch → Bool
  | .binary _ => false
  | .large _ => true

/-- The number of watches that `findWatch` has looked at. -/
def stepsOf (ws : List Watch) : Option (Nat × Watch) → Nat
  | some (i, _) => i + 1
  | none => ws.length

/-- The watch that is found is one of the list, and it matches. -/
theorem findWatch_some {matchesWatch : Watch → Flags → Bool × Flags} {ws : List Watch}
    {i j : Nat} {f f' : Flags} {w : Watch}
    (h : findWatch matchesWatch ws i f = (some (j, w), f')) :
  i ≤ j ∧ ws[j - i]? = some w ∧ ∃ g, (matchesWatch w g).1 = true
  := by
  induction ws generalizing i f with
  | nil => cases h
  | cons v ws ih =>
      rw [findWatch] at h
      split at h
      · next g hv =>
          cases h
          exact ⟨le_rfl, by simp, f, by rw [hv]⟩
      · next g hv =>
          obtain ⟨hij, hget, hmatch⟩ := ih h
          refine ⟨by omega, ?_, hmatch⟩
          rw [show j - i = (j - (i + 1)) + 1 by omega, List.getElem?_cons_succ]
          exact hget

end Solver

end Kissat
