import IgnoreGates.Kissat.Ands
import IgnoreGates.Kissat.Definition
import IgnoreGates.Kissat.IfThenElse
import IgnoreGates.Kissat.Xors

/-!
# Finding gates

The extractors are tried one after the other, and the first that succeeds prints the
variable with its type.  Whichever it is, the gate clauses determine the variable from the
other ones under the root-level values.
-/

namespace Kissat

open Logic

namespace Solver

variable (s : Solver) (K : Kitten)

/-- The line that is printed for a gate of a literal. -/
def print (lit : Lit) (type : GateType) : Solver :=
  { s with printed := s.printed ++ [(IDX lit, type)] }

/-- One of the branches of `kissat_find_gates`: an extractor succeeds, or the next one is
tried. -/
def ifFound (lit : Lit) (type : GateType) (r : Bool × Solver)
    (otherwise : Solver → Option (Bool × Solver)) : Option (Bool × Solver) :=
  match r with
  | (true, s) => some (true, s.print lit type)
  | (false, s) => otherwise s

/-- The `else if` chain of `kissat_find_gates`. -/
def firstGate (lit : Lit) : Option (Bool × Solver) :=
  let notLit := NOT lit
  ifFound lit .EQV (s.kissatFindEquivalenceGate lit) fun s =>
  ifFound lit .AND (s.kissatFindAndGate lit false) fun s =>
  ifFound lit .AND (s.kissatFindAndGate notLit true) fun s =>
  ifFound lit .ITE (s.kissatFindIfThenElseGate lit false) fun s =>
  ifFound lit .ITE (s.kissatFindIfThenElseGate notLit true) fun s =>
  ifFound lit .XOR (s.kissatFindXorGate lit false) fun s =>
  ifFound lit .XOR (s.kissatFindXorGate notLit true) fun s => do
    let r ← s.kissatFindDefinition K lit
    ifFound lit .DEF r fun s => some (false, s)

/-- `kissat_find_gates`; there is no result if the program is aborted. -/
def kissatFindGates (lit : Lit) : Option (Bool × Solver) :=
  let s := { s with flags := { s.flags with resolveGate := false } }
  if !s.options.extract then some (false, s)
  else if s.watches (NOT lit) = [] then some (false, s)
  else s.firstGate K lit

/-- The clauses are connected, and no marks or gate clauses are left from before. -/
structure Ready (s : Solver) : Prop where
  connected : s.Connected
  unmarked : s.Unmarked
  no_gates : s.NoGates

variable {s K}

theorem Same.found {t : Solver} (h : Same s t) {lit : Lit} {gates : Bool → List Watch}
    (hfound : Found t lit gates) :
  Found s lit gates
  := by
  constructor
  · intro negative w hw
    rw [← h.watches]
    exact hfound.mem negative w hw
  · intro σ hσ hsat
    apply hfound.refuted σ
    · intro idx b hb
      rw [h.values] at hb
      exact hσ idx b hb
    · intro negative w hw
      rw [h.watchToClause]
      exact hsat negative w hw

/-- What is found by an extractor that is tried later is found for the solver before. -/
theorem Same.defined {t : Solver} (h : Same s t) (hprinted : t.printed = s.printed)
    (hgates : t.gates = s.gates) {lit : Lit} {r : Bool × Solver} (hr : Defined t lit r) :
  Defined s lit r
  := by
  constructor
  · exact hr.options.trans h.options
  · exact hr.arena.trans h.arena
  · exact hr.watches.trans h.watches
  · exact hr.printed.trans hprinted
  · exact hr.unmarked
  · intro hfalse
    obtain ⟨hg, hv⟩ := hr.gates hfalse
    exact ⟨hg.trans hgates, hv.trans h.values⟩
  · obtain hv | ⟨n, hn, hv⟩ := hr.values
    · exact Or.inl (hv.trans h.values)
    · refine Or.inr ⟨n, ?_, ?_⟩
      · intro σ hσ
        apply hn σ
        intro w hw
        rw [h.watchToClause]
        rw [h.watches] at hw
        exact hσ w hw
      · rw [hv, kissatLearnedUnit, kissatLearnedUnit, h.values]
  · intro htrue
    exact h.found (hr.found htrue)

/-- The result of `kissat_find_gates`: a success prints the variable and has found gate
clauses. -/
structure Outcome (s : Solver) (lit : Lit) (r : Bool × Solver) : Prop where
  options : r.2.options = s.options
  arena : r.2.arena = s.arena
  watches : r.2.watches = s.watches
  unmarked : r.2.Unmarked
  failed : r.1 = false → r.2.gates = s.gates ∧ r.2.values = s.values ∧ r.2.printed = s.printed
  printed : r.1 = true → ∃ type, r.2.printed = s.printed ++ [(IDX lit, type)]
  values : r.2.values = s.values ∨ ∃ n, (∀ σ : Assignment Nat,
      (∀ w ∈ s.watches (side lit n), Clause.Sat σ (s.watchToClause (side lit n) w)) →
        σ.value (side lit n) = true)
    ∧ r.2.values = (s.kissatLearnedUnit (side lit n)).values
  found : r.1 = true → s.value lit = none → Found s lit r.2.gates

/-- What the extractors that have failed leave as it was. -/
structure Unchanged (s t : Solver) : Prop where
  same : Same s t
  printed : t.printed = s.printed
  gates : t.gates = s.gates
  unmarked : t.Unmarked

namespace Unchanged

variable {t : Solver}

theorem ready (h : Unchanged s t) (hs : s.Ready) :
  t.Ready
  := by
  refine ⟨h.same.connected hs.connected, h.unmarked, ?_⟩
  intro negative
  rw [h.gates]
  exact hs.no_gates negative

theorem outcome_false (h : Unchanged s t) (lit : Lit) :
  Outcome s lit (false, t)
  := by
  constructor
  · exact h.same.options
  · exact h.same.arena
  · exact h.same.watches
  · exact h.unmarked
  · exact fun _ => ⟨h.gates, h.same.values, h.printed⟩
  · simp
  · exact Or.inl h.same.values
  · simp

/-- A branch either succeeds or leaves the rest of the chain to be tried. -/
theorem ifFound {lit : Lit} {type : GateType} {r e : Bool × Solver}
    {otherwise : Solver → Option (Bool × Solver)} (hs : s.Ready) (h : Unchanged s t)
    (hextracted : t.Ready → Extracted t lit e)
    (hrest : ∀ u, Unchanged s u → otherwise u = some r → Outcome s lit r)
    (hr : Solver.ifFound lit type e otherwise = some r) :
  Outcome s lit r
  := by
  obtain ⟨found, u⟩ := e
  have he := hextracted (h.ready hs)
  have hsame := h.same.trans he.same
  have hprinted := he.printed.trans h.printed
  cases found with
  | true =>
      cases hr
      constructor
      · exact hsame.options
      · exact hsame.arena
      · exact hsame.watches
      · exact he.unmarked
      · simp
      · intro _
        exact ⟨type, by rw [print, hprinted]⟩
      · exact Or.inl hsame.values
      · intro _ hlit
        apply h.same.found
        apply he.found rfl
        rw [h.same.value]
        exact hlit
  | false =>
      apply hrest u ⟨hsame, hprinted, (he.gates rfl).trans h.gates, he.unmarked⟩ hr

/-- The last branch of the chain. -/
theorem if_defined {lit : Lit} {r e : Bool × Solver} (h : Unchanged s t) (he : Defined t lit e)
    (hr : Solver.ifFound lit .DEF e (fun s => some (false, s)) = some r) :
  Outcome s lit r
  := by
  obtain ⟨found, u⟩ := e
  have hs := h.same.defined h.printed h.gates he
  cases found with
  | true =>
      cases hr
      constructor
      · exact hs.options
      · exact hs.arena
      · exact hs.watches
      · exact hs.unmarked
      · simp
      · intro _
        exact ⟨.DEF, by rw [print, hs.printed]⟩
      · exact hs.values
      · exact fun _ _ => hs.found rfl
  | false =>
      cases hr
      obtain ⟨hgates, hvalues⟩ := hs.gates rfl
      apply outcome_false ⟨⟨hs.options, hs.arena, hs.watches, hvalues⟩, hs.printed, hgates,
        hs.unmarked⟩

end Unchanged

variable {clauses : K.State → Set (Nat × List Lit)}

/-- Each extractor of the chain is called on a solver that those before it have left
unchanged. -/
theorem firstGate_outcome (hK : K.Sound clauses) (hs : s.Ready) {t : Solver}
    (ht : Unchanged s t) {lit : Lit} {r : Bool × Solver} (h : t.firstGate K lit = some r) :
  Outcome s lit r
  := by
  rw [firstGate] at h
  apply ht.ifFound hs (fun hready =>
    findEquivalence_gate_extracted hready.unmarked hready.no_gates lit) _ h
  intro t ht h
  apply ht.ifFound hs (fun hready =>
    findAndGate_extracted hready.unmarked hready.no_gates lit false) _ h
  intro t ht h
  apply ht.ifFound hs (fun hready =>
    findAndGate_extracted hready.unmarked hready.no_gates lit true) _ h
  intro t ht h
  apply ht.ifFound hs (fun hready =>
    findIfThenElse_gate_extracted hready.connected hready.unmarked hready.no_gates lit false) _ h
  intro t ht h
  apply ht.ifFound hs (fun hready =>
    findIfThenElse_gate_extracted hready.connected hready.unmarked hready.no_gates lit true) _ h
  intro t ht h
  apply ht.ifFound hs (fun hready =>
    findXorGate_extracted hready.connected hready.unmarked hready.no_gates lit false) _ h
  intro t ht h
  apply ht.ifFound hs (fun hready =>
    findXorGate_extracted hready.connected hready.unmarked hready.no_gates lit true) _ h
  intro t ht h
  have hready := ht.ready hs
  obtain ⟨e, he, hr⟩ := Option.bind_eq_some_iff.mp h
  exact ht.if_defined (find_definition_spec hK hready.unmarked hready.no_gates he) hr

theorem find_gates_outcome (hK : K.Sound clauses) (hs : s.Ready) {lit : Lit}
    {r : Bool × Solver} (h : s.kissatFindGates K lit = some r) :
  Outcome s lit r
  := by
  have hstart : Unchanged s { s with flags := { s.flags with resolveGate := false } } :=
    ⟨⟨rfl, rfl, rfl, rfl⟩, rfl, rfl, hs.unmarked⟩
  rw [kissatFindGates] at h
  dsimp only at h
  split at h
  · cases h
    exact hstart.outcome_false lit
  split at h
  · cases h
    exact hstart.outcome_false lit
  · exact firstGate_outcome hK hs hstart h

/-! ### Soundness of gate extraction -/

/-- Gate extraction is sound: under the root-level values the gate clauses determine the
variable. -/
theorem find_gates_sound (hK : K.Sound clauses) (hs : s.Ready) {lit : Lit} {t : Solver}
    (h : s.kissatFindGates K lit = some (true, t)) :
  ¬ ∃ σ τ : Assignment Nat, s.Extends σ ∧ s.Extends τ
    ∧ σ (IDX lit) ≠ τ (IDX lit) ∧ (∀ idx, idx ≠ IDX lit → σ idx = τ idx)
    ∧ Models σ (t.gateClauses lit) ∧ Models τ (t.gateClauses lit)
  := by
  have hr := find_gates_outcome hK hs h
  rintro ⟨σ, τ, hσ, hτ, hne, hagree, hσt, hτt⟩
  have hlit : s.value lit = none := by
    rw [value_eq_none_iff]
    cases hvalue : s.values (IDX lit) with
    | none => rfl
    | some b => exact absurd ((hσ _ b hvalue).trans (hτ _ b hvalue).symm) hne
  have hfound := hr.found rfl hlit
  apply hfound.refuted σ hσ
  intro negative w hw
  have hmem := hfound.mem negative w hw
  have hclause := watchToClause_congr hr.arena (side lit negative) w
  have hgate : s.watchToClause (side lit negative) w ∈ t.gateClauses lit :=
    ⟨negative, w, hw, hclause.symm⟩
  rw [← IDX_side lit negative] at hne hagree ⊢
  exact Clause.satOff_of_sat (hs.connected.not_taut _ w hmem) hne hagree
    (hσt _ hgate) (hτt _ hgate)

end Solver

/-! ### A kitten that tries all assignments -/

namespace Exhaustive

/-- Its clauses, and whether they have been found unsatisfiable. -/
structure State where
  clauses : List (Nat × List Lit)
  unsat : Bool

/-- The values of the first variables are the bits of `a`. -/
def satisfied (a : Nat) (clauses : List (Nat × List Lit)) : Bool :=
  clauses.all (fun c => c.2.any (fun l => a.testBit l.var ^^ l.sign))

/-- A bound on the variables of the clauses. -/
def vars (clauses : List (Nat × List Lit)) : Nat :=
  (clauses.flatMap (fun c => c.2.map CnfTools.Lit.var)).foldr max 0 + 1

/-- No assignment of the variables satisfies the clauses. -/
def unsatisfiable (clauses : List (Nat × List Lit)) : Bool :=
  (List.range (2 ^ (vars clauses + 1))).all (fun a => !satisfied a clauses)

/-- All clauses are the core of unsatisfiable clauses. -/
def kitten : Kitten where
  State := State
  clear := ⟨[], false⟩
  clause := fun k id lits => ⟨k.clauses ++ [(id, lits)], false⟩
  solve := fun k =>
    if unsatisfiable k.clauses then (20, ⟨k.clauses, true⟩) else (10, ⟨k.clauses, false⟩)
  computeClausalCore := fun k => if k.unsat then some k else none
  shrinkToClausalCore := fun k => ⟨k.clauses, false⟩
  shuffle := fun k => k
  traverseClausalCore := fun k => k.clauses.map Prod.fst

theorem var_lt_vars {clauses : List (Nat × List Lit)} {c : Nat × List Lit} (hc : c ∈ clauses)
    {l : Lit} (hl : l ∈ c.2) :
  l.var < vars clauses
  := by
  rw [vars, Nat.lt_succ_iff]
  have hmem : l.var ∈ clauses.flatMap (fun c => c.2.map CnfTools.Lit.var) :=
    List.mem_flatMap.mpr ⟨c, hc, List.mem_map_of_mem hl⟩
  generalize clauses.flatMap (fun c => c.2.map CnfTools.Lit.var) = vs at hmem
  induction vs with
  | nil => cases hmem
  | cons v vs ih =>
      rw [List.foldr_cons]
      obtain heq | hmem := List.mem_cons.mp hmem
      · rw [heq]
        exact le_max_left _ _
      · exact (ih hmem).trans (le_max_right _ _)

/-- Clauses that no number satisfies are not satisfied by any assignment. -/
theorem unsat_of_unsatisfiable {clauses : List (Nat × List Lit)}
    (h : unsatisfiable clauses = true) (τ : Assignment Nat) :
  ∃ c ∈ clauses, ¬ Clause.Sat τ c.2
  := by
  obtain ⟨a, ha, -, hbits⟩ := exists_even_testBit (vars clauses) τ
  have hfalse := List.all_eq_true.mp h a (List.mem_range.mpr ha)
  rw [Bool.not_eq_true', satisfied, List.all_eq_false] at hfalse
  obtain ⟨c, hc, hsat⟩ := hfalse
  refine ⟨c, hc, ?_⟩
  rintro ⟨l, hl, hval⟩
  apply hsat
  apply List.any_eq_true.mpr
  refine ⟨l, hl, ?_⟩
  rw [hbits _ (var_lt_vars hc hl)]
  exact hval

theorem sound :
  kitten.Sound (fun k => {c | c ∈ k.clauses})
  := by
  have hsolve : ∀ k : State, (kitten.solve k).2.clauses = k.clauses := by
    intro k
    simp only [kitten]
    split <;> rfl
  have hcore : ∀ k t : State, kitten.computeClausalCore (kitten.solve k).2 = some t →
      unsatisfiable k.clauses = true ∧ t.clauses = k.clauses := by
    intro k t h
    simp only [kitten] at h
    split at h
    · next hunsat =>
        cases h
        exact ⟨hunsat, rfl⟩
    · cases h
  constructor
  · ext c
    simp [kitten]
  · intro k id lits
    ext c
    simp [kitten, or_comm]
  · intro k
    exact congrArg (fun cs => {c | c ∈ cs}) (hsolve k)
  · intro k t h
    simp only [kitten] at h
    split at h
    · cases h
      rfl
    · cases h
  · intro k t h id hid
    obtain ⟨-, hclauses⟩ := hcore k t h
    obtain ⟨c, hc, rfl⟩ := List.mem_map.mp hid
    rw [hclauses] at hc
    exact ⟨c.2, hc⟩
  · intro k t h τ
    obtain ⟨hunsat, hclauses⟩ := hcore k t h
    obtain ⟨c, hc, hsat⟩ := unsat_of_unsatisfiable hunsat τ
    refine ⟨c.1, ?_, c.2, hc, hsat⟩
    apply List.mem_map_of_mem
    rw [hclauses]
    exact hc
  · intro k
    exact subset_rfl
  · intro k
    rfl

/-- The clauses `x ∨ a`, `¬ x ∨ ¬ a ∨ b` and `¬ x ∨ ¬ a ∨ ¬ b`, which define `x` but are none
of the other gates. -/
def solver : Solver where
  options := {
    extract := true
    equivalences := true
    ands := true
    ifthenelse := true
    xors := true
    definitions := true
    definitioncores := 2
    occurrences := 1000
    clslim := 100
    xorClauseSize := 5 }
  terminated := fun _ => false
  arena := fun ref => if ref = 0 then [⟨1⟩, ⟨3⟩, ⟨4⟩] else [⟨1⟩, ⟨3⟩, ⟨5⟩]
  watches := fun lit =>
    match lit.x with
    | 0 => [.binary ⟨2⟩]
    | 1 => [.large 0, .large 1]
    | 2 => [.binary ⟨0⟩]
    | 3 => [.large 0, .large 1]
    | 4 => [.large 0]
    | 5 => [.large 1]
    | _ => []
  values := fun _ => none
  flags := { garbage := fun _ => false, resolveGate := false }
  marks := fun _ => false
  gates := fun _ => []
  printed := []

theorem solver_ready :
  solver.Ready
  := by
  have hwatches : ∀ lit, ∀ w ∈ solver.watches lit,
      lit ∈ solver.watchToClause lit w ∧ (solver.watchToClause lit w).Nodup
        ∧ ∀ l ∈ solver.watchToClause lit w, NOT l ∉ solver.watchToClause lit w := by
    rintro ⟨_ | _ | _ | _ | _ | _ | x⟩
    · decide
    · decide
    · decide
    · decide
    · decide
    · decide
    · intro w hw
      cases hw
  refine ⟨⟨?_, ?_, ?_⟩, fun _ => rfl, fun _ => rfl⟩
  · exact fun lit w hw => (hwatches lit w hw).1
  · exact fun lit w hw => (hwatches lit w hw).2.1
  · exact fun lit w hw => (hwatches lit w hw).2.2

theorem found_for_solver :
  ((solver.kissatFindGates kitten ⟨0⟩).map Prod.fst) = some true
  := by decide +kernel

/-- The definition of `x` is found, and determines it. -/
theorem find_gates_sound_solver :
  ∃ t : Solver, solver.kissatFindGates kitten ⟨0⟩ = some (true, t)
    ∧ ¬ ∃ σ τ : Assignment Nat, solver.Extends σ ∧ solver.Extends τ
      ∧ σ 0 ≠ τ 0 ∧ (∀ idx, idx ≠ 0 → σ idx = τ idx)
      ∧ Models σ (t.gateClauses ⟨0⟩) ∧ Models τ (t.gateClauses ⟨0⟩)
  := by
  obtain ⟨⟨found, t⟩, h, rfl⟩ := Option.map_eq_some_iff.mp found_for_solver
  exact ⟨t, h, Solver.find_gates_sound sound solver_ready h⟩

end Exhaustive

end Kissat
