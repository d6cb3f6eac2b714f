import Mathlib.Data.List.Forall2
import IgnoreGates.Kissat.Dense

/-!
# Definitions found by kitten

The clauses of a literal and of its complement are exported, without the two literals, to the
sub-solver kitten, which numbers the variables anew.  If kitten shows that they are
unsatisfiable, the clauses of its core are the gate clauses, found by their position among
the exported clauses.  Kitten itself is a parameter, of which only its answers and its cores
are assumed to be right.
-/

namespace Kissat

open Logic

/-- The functions of kitten that the extractor calls.  Computing a core is an invalid use
unless the last call to `solve` has answered that the clauses are unsatisfiable; then the
program is aborted. -/
structure Kitten where
  State : Type
  clear : State
  clause : State → Nat → List Lit → State
  solve : State → Nat × State
  computeClausalCore : State → Option State
  shrinkToClausalCore : State → State
  shuffle : State → State
  traverseClausalCore : State → List Nat

/-- The answers of kitten are right: `clauses` are the clauses that it has with their
identifiers, and a core that it computes consists of clauses that it has and is
unsatisfiable. -/
structure Kitten.Sound (K : Kitten) (clauses : K.State → Set (Nat × List Lit)) : Prop where
  clear : clauses K.clear = ∅
  clause : ∀ k id lits, clauses (K.clause k id lits) = insert (id, lits) (clauses k)
  solve : ∀ k, clauses (K.solve k).2 = clauses k
  core_clauses : ∀ k t, K.computeClausalCore k = some t → clauses t = clauses k
  core_mem : ∀ k t, K.computeClausalCore (K.solve k).2 = some t →
    ∀ id ∈ K.traverseClausalCore t, ∃ lits, (id, lits) ∈ clauses k
  core_unsat : ∀ k t, K.computeClausalCore (K.solve k).2 = some t →
    ∀ τ : Assignment Nat, ∃ id ∈ K.traverseClausalCore t, ∃ lits, (id, lits) ∈ clauses k
      ∧ ¬ Clause.Sat τ lits
  shrink : ∀ k, clauses (K.shrinkToClausalCore k) ⊆ clauses k
  shuffle : ∀ k, clauses (K.shuffle k) = clauses k

/-! ### Numbering the variables -/

/-- The numbers given to variables so far: `map` has the number plus one, and `analyzed` the
variables in the order of their numbers. -/
structure Mapping where
  map : Nat → Nat
  analyzed : List Nat

namespace Mapping

/-- No variable is numbered. -/
def empty : Mapping where
  map := fun _ => 0
  analyzed := []

/-- `add_mapped_literal` -/
def addMappedLiteral (m : Mapping) (lit : Lit) : Lit × Mapping :=
  let idx := IDX lit
  let m :=
    if m.map idx = 0 then
      { map := Function.update m.map idx (m.analyzed.length + 1)
        analyzed := m.analyzed ++ [idx] }
    else m
  let midx := m.map idx - 1
  (CnfTools.Lit.ofVar midx lit.sign, m)

/-- The literals of a clause are mapped one after the other. -/
def addMappedLiterals (m : Mapping) : List Lit → List Lit × Mapping
  | [] => ([], m)
  | lit :: lits =>
      let (mlit, m) := m.addMappedLiteral lit
      let (mclause, m) := m.addMappedLiterals lits
      (mlit :: mclause, m)

/-- A numbered variable is found at its number. -/
def Wf (m : Mapping) : Prop :=
  ∀ idx, m.map idx ≠ 0 → m.analyzed[m.map idx - 1]? = some idx

/-- The literal `mlit` of kitten stands for `lit`. -/
def StandsFor (m : Mapping) (mlit lit : Lit) : Prop :=
  m.analyzed[mlit.var]? = some (IDX lit) ∧ mlit.sign = lit.sign

/-- Numbers that have been given stay. -/
def Le (m n : Mapping) : Prop :=
  m.analyzed <+: n.analyzed

variable {m n : Mapping}

theorem StandsFor.mono {mlit lit : Lit} (h : m.StandsFor mlit lit) (hmn : m.Le n) :
  n.StandsFor mlit lit
  := by
  obtain ⟨hget, hsign⟩ := h
  obtain ⟨rest, hrest⟩ := hmn
  refine ⟨?_, hsign⟩
  have hlt := (List.getElem?_eq_some_iff.mp hget).1
  rw [← hrest, List.getElem?_append_left hlt]
  exact hget

theorem addMappedLiteral_spec (hm : m.Wf) {lit mlit : Lit}
    (h : m.addMappedLiteral lit = (mlit, n)) :
  n.Wf ∧ m.Le n ∧ n.StandsFor mlit lit
  := by
  rw [addMappedLiteral] at h
  split at h
  · next hzero =>
      cases h
      refine ⟨?_, List.prefix_append _ _, ?_⟩
      · intro idx hidx
        dsimp only at hidx ⊢
        rw [Function.update_apply] at hidx ⊢
        split
        · next heq =>
            subst heq
            simp
        · next hne =>
            rw [if_neg hne] at hidx
            have hget := hm idx hidx
            rw [List.getElem?_append_left (List.getElem?_eq_some_iff.mp hget).1]
            exact hget
      · simp [StandsFor]
  · next hne =>
      cases h
      refine ⟨hm, List.prefix_rfl, ?_⟩
      rw [StandsFor, CnfTools.Lit.ofVar_var, CnfTools.Lit.ofVar_sign]
      exact ⟨hm _ hne, rfl⟩

theorem addMappedLiterals_spec (hm : m.Wf) {lits mclause : List Lit}
    (h : m.addMappedLiterals lits = (mclause, n)) :
  n.Wf ∧ m.Le n ∧ List.Forall₂ n.StandsFor mclause lits
  := by
  induction lits generalizing m mclause with
  | nil =>
      cases h
      exact ⟨hm, List.prefix_rfl, List.Forall₂.nil⟩
  | cons lit lits ih =>
      rw [addMappedLiterals] at h
      dsimp only at h
      cases h
      obtain ⟨hm', hle, hstands⟩ := addMappedLiteral_spec hm rfl
      obtain ⟨hn, hle', hrest⟩ := ih hm' rfl
      exact ⟨hn, hle.trans hle', List.Forall₂.cons (hstands.mono hle') hrest⟩

/-- The assignment of kitten's variables that an assignment gives. -/
def assignment (m : Mapping) (σ : Assignment Nat) : Assignment Nat :=
  fun midx => σ (m.analyzed.getD midx 0)

theorem StandsFor.value {mlit lit : Lit} (h : m.StandsFor mlit lit) (σ : Assignment Nat) :
  (m.assignment σ).value mlit = σ.value lit
  := by
  obtain ⟨hget, hsign⟩ := h
  have hidx : m.assignment σ mlit.var = σ (IDX lit) := by
    rw [assignment, List.getD_eq_getElem?_getD, hget]
    rfl
  change (m.assignment σ mlit.var ^^ mlit.sign) = (σ (IDX lit) ^^ lit.sign)
  rw [hidx, hsign]

/-- The mapped clause is satisfied if the clause is. -/
theorem sat_of_standsFor {mclause lits : List Lit}
    (h : List.Forall₂ m.StandsFor mclause lits) {σ : Assignment Nat} (hsat : Clause.Sat σ lits) :
  Clause.Sat (m.assignment σ) mclause
  := by
  induction h with
  | nil =>
      obtain ⟨l, hl, -⟩ := hsat
      cases hl
  | cons hstands hrest ih =>
      obtain ⟨l, hl, hval⟩ := hsat
      obtain rfl | hl := List.mem_cons.mp hl
      · exact ⟨_, List.mem_cons_self, (hstands.value σ).trans hval⟩
      · obtain ⟨k, hk, hkval⟩ := ih ⟨l, hl, hval⟩
        exact ⟨k, List.mem_cons_of_mem _ hk, hkval⟩

end Mapping

namespace Solver

variable (s : Solver) (K : Kitten)

/-! ### The extractor -/

/-- The literals of a watched clause that are exported. -/
def exportedLiterals (lit : Lit) : Watch → List Lit
  | .binary other => [other]
  | .large ref => (s.arena ref).filter (· ≠ lit)

/-- The inner loop of `kissat_find_definition` over the watches of one of the two literals. -/
def exportClauses (lit : Lit) :
    List Watch → Mapping → Nat → K.State → Mapping × Nat × K.State
  | [], m, exported, k => (m, exported, k)
  | w :: ws, m, exported, k =>
      let (mclause, m) := m.addMappedLiterals (s.exportedLiterals lit w)
      exportClauses lit ws m (exported + 1) (K.clause k exported mclause)

/-- The core is computed `n` more times, each time of the clauses of the last core. -/
def moreCores : Nat → K.State → Option K.State
  | 0, k => some k
  | n + 1, k => do
      let k := K.shuffle (K.shrinkToClausalCore k)
      let (_, k) := K.solve k
      let k ← K.computeClausalCore k
      moreCores n k

/-- `traverse_definition_core`: the watch with an identifier, and the stack it belongs to. -/
def traverseDefinitionCore (lit : Lit) (id : Nat) : Option (Bool × Watch) :=
  let sizeWatches0 := (s.watches lit).length
  if id < sizeWatches0 then (s.watches lit)[id]?.map (false, ·)
  else (s.watches (NOT lit))[id - sizeWatches0]?.map (true, ·)

/-- The watches of one of the stacks that belong to the identifiers of the core. -/
def coreSide (lit : Lit) (core : List Nat) (sign : Bool) : List Watch :=
  (core.filterMap (s.traverseDefinitionCore lit)).filterMap
    (fun p => if p.1 = sign then some p.2 else none)

/-- `kissat_learned_unit` -/
def kissatLearnedUnit (unit : Lit) : Solver :=
  { s with values := Function.update s.values (IDX unit) (some (!unit.sign)) }

/-- `kissat_find_definition`; there is no result if the program is aborted. -/
def kissatFindDefinition (lit : Lit) : Option (Bool × Solver) :=
  if !s.options.definitions then some (false, s)
  else do
    let (m, exported, k) := s.exportClauses K lit (s.watches lit) Mapping.empty 0 K.clear
    let (_, _, k) := s.exportClauses K (NOT lit) (s.watches (NOT lit)) m exported k
    let (status, k) := K.solve k
    if status = 20 then
      let k ← K.computeClausalCore k
      let k ← moreCores K (s.options.definitioncores - 1) k
      let core := K.traverseClausalCore k
      let t := { s with
        gates := fun sign => s.gates sign ++ s.coreSide lit core sign
        flags := { s.flags with resolveGate := true } }
      if t.gates false = [] then some (true, t.kissatLearnedUnit (NOT lit))
      else if t.gates true = [] then some (true, t.kissatLearnedUnit lit)
      else some (true, t)
    else some (false, s)

variable {s K} {clauses : K.State → Set (Nat × List Lit)}

/-! ### The exported clauses -/

/-- The clauses are exported ones, with their identifiers, in mapped variables. -/
def Exported (s : Solver) (lit : Lit) (m : Mapping) (c : Set (Nat × List Lit)) : Prop :=
  ∀ id mclause, (id, mclause) ∈ c → ∃ sign w,
    s.traverseDefinitionCore lit id = some (sign, w)
      ∧ List.Forall₂ m.StandsFor mclause (s.exportedLiterals (side lit sign) w)

theorem Exported.mono {lit : Lit} {m n : Mapping} {c : Set (Nat × List Lit)}
    (h : s.Exported lit m c) (hmn : m.Le n) :
  s.Exported lit n c
  := by
  intro id mclause hmem
  obtain ⟨sign, w, hw, hstands⟩ := h id mclause hmem
  exact ⟨sign, w, hw, hstands.imp (fun _ _ hl => hl.mono hmn)⟩

theorem exportClauses_spec (hK : K.Sound clauses) (lit : Lit) (sign : Bool) {ws : List Watch}
    {m m' : Mapping} {exported exported' : Nat} {k k' : K.State} (hm : m.Wf)
    (hws : ∀ j w, ws[j]? = some w →
      s.traverseDefinitionCore lit (exported + j) = some (sign, w))
    (hexported : s.Exported lit m (clauses k))
    (h : s.exportClauses K (side lit sign) ws m exported k = (m', exported', k')) :
  m'.Wf ∧ exported' = exported + ws.length ∧ s.Exported lit m' (clauses k')
  := by
  induction ws generalizing m exported k with
  | nil =>
      cases h
      exact ⟨hm, rfl, hexported⟩
  | cons w ws ih =>
      rw [exportClauses] at h
      have hspec := @Mapping.addMappedLiterals_spec m
      generalize hclause : m.addMappedLiterals (s.exportedLiterals (side lit sign) w) = r at h
      obtain ⟨mclause, m₁⟩ := r
      obtain ⟨hm₁, hle, hstands⟩ := hspec hm hclause
      have hrest : ∀ j v, ws[j]? = some v →
          s.traverseDefinitionCore lit (exported + 1 + j) = some (sign, v) := by
        intro j v hv
        rw [Nat.add_right_comm, Nat.add_assoc]
        exact hws (j + 1) v hv
      have hadded : s.Exported lit m₁ (clauses (K.clause k exported mclause)) := by
        rw [hK.clause]
        rintro id c (heq | hmem)
        · cases heq
          exact ⟨sign, w, hws 0 w rfl, hstands⟩
        · exact hexported.mono hle id c hmem
      obtain ⟨hm', hlen, hexp⟩ := ih hm₁ hrest hadded h
      refine ⟨hm', ?_, hexp⟩
      rw [hlen, List.length_cons, Nat.add_right_comm, Nat.add_assoc]

/-- Computing cores again leaves a core of the exported clauses. -/
theorem moreCores_spec (hK : K.Sound clauses) {c : Set (Nat × List Lit)} {n : Nat}
    {k t : K.State} (hk : clauses k ⊆ c)
    (hcore : ∀ τ : Assignment Nat, ∃ id ∈ K.traverseClausalCore k, ∃ lits, (id, lits) ∈ c
      ∧ ¬ Clause.Sat τ lits)
    (hmem : ∀ id ∈ K.traverseClausalCore k, ∃ lits, (id, lits) ∈ c)
    (h : moreCores K n k = some t) :
  (∀ τ : Assignment Nat, ∃ id ∈ K.traverseClausalCore t, ∃ lits, (id, lits) ∈ c
      ∧ ¬ Clause.Sat τ lits)
    ∧ ∀ id ∈ K.traverseClausalCore t, ∃ lits, (id, lits) ∈ c
  := by
  induction n generalizing k with
  | zero =>
      cases h
      exact ⟨hcore, hmem⟩
  | succ n ih =>
      rw [moreCores] at h
      obtain ⟨u, hu, h⟩ := Option.bind_eq_some_iff.mp h
      have hsub : clauses (K.shuffle (K.shrinkToClausalCore k)) ⊆ c := by
        rw [hK.shuffle]
        exact (hK.shrink k).trans hk
      apply ih _ _ _ h
      · rw [hK.core_clauses _ _ hu, hK.solve]
        exact hsub
      · intro τ
        obtain ⟨id, hid, lits, hlits, hsat⟩ := hK.core_unsat _ _ hu τ
        exact ⟨id, hid, lits, hsub hlits, hsat⟩
      · intro id hid
        obtain ⟨lits, hlits⟩ := hK.core_mem _ _ hu id hid
        exact ⟨lits, hsub hlits⟩

/-! ### The definition -/

theorem mem_coreSide {lit : Lit} {core : List Nat} {sign : Bool} {w : Watch} :
  w ∈ s.coreSide lit core sign
    ↔ ∃ id ∈ core, s.traverseDefinitionCore lit id = some (sign, w)
  := by
  simp only [coreSide, List.mem_filterMap]
  constructor
  · rintro ⟨⟨b, v⟩, ⟨id, hid, htraverse⟩, hv⟩
    split at hv
    · next heq =>
        cases hv
        cases heq
        exact ⟨id, hid, htraverse⟩
    · cases hv
  · rintro ⟨id, hid, htraverse⟩
    exact ⟨(sign, w), ⟨id, hid, htraverse⟩, if_pos rfl⟩

theorem traverseDefinitionCore_mem {lit : Lit} {id : Nat} {sign : Bool} {w : Watch}
    (h : s.traverseDefinitionCore lit id = some (sign, w)) :
  w ∈ s.watches (side lit sign)
  := by
  rw [traverseDefinitionCore] at h
  split at h
  · obtain ⟨v, hv, heq⟩ := Option.map_eq_some_iff.mp h
    cases heq
    exact List.mem_of_getElem? hv
  · obtain ⟨v, hv, heq⟩ := Option.map_eq_some_iff.mp h
    cases heq
    exact List.mem_of_getElem? hv

/-- A clause that is satisfied apart from its watching literal has a true exported literal. -/
theorem sat_exportedLiterals {lit : Lit} {sign : Bool} {w : Watch} {σ : Assignment Nat}
    (h : Clause.SatOff σ (IDX lit) (s.watchToClause (side lit sign) w)) :
  Clause.Sat σ (s.exportedLiterals (side lit sign) w)
  := by
  cases w with
  | binary other => exact ⟨other, List.mem_singleton_self _, satOff_binary (IDX_side lit sign) h⟩
  | large ref =>
      obtain ⟨l, hl, hvar, hval⟩ := h
      refine ⟨l, List.mem_filter.mpr ⟨hl, decide_eq_true ?_⟩, hval⟩
      rintro rfl
      exact hvar (IDX_side lit sign)

/-- What the extractor of definitions promises: as `Extracted`, but a core of clauses of only
one of the two literals makes that literal a unit. -/
structure Defined (s : Solver) (lit : Lit) (r : Bool × Solver) : Prop where
  options : r.2.options = s.options
  arena : r.2.arena = s.arena
  watches : r.2.watches = s.watches
  printed : r.2.printed = s.printed
  unmarked : r.2.Unmarked
  gates : r.1 = false → r.2.gates = s.gates ∧ r.2.values = s.values
  values : r.2.values = s.values ∨ ∃ n, (∀ σ : Assignment Nat,
      (∀ w ∈ s.watches (side lit n), Clause.Sat σ (s.watchToClause (side lit n) w)) →
        σ.value (side lit n) = true)
    ∧ r.2.values = (s.kissatLearnedUnit (side lit n)).values
  found : r.1 = true → Found s lit r.2.gates

/-- The clauses of the core cannot all be satisfied apart from the literal. -/
theorem core_refuted {lit : Lit} {m : Mapping} {c : Set (Nat × List Lit)} {core : List Nat}
    (hexported : s.Exported lit m c)
    (hcore : ∀ τ : Assignment Nat, ∃ id ∈ core, ∃ lits, (id, lits) ∈ c ∧ ¬ Clause.Sat τ lits)
    {σ : Assignment Nat}
    (hsat : ∀ sign, ∀ w ∈ s.coreSide lit core sign,
      Clause.Sat σ (s.exportedLiterals (side lit sign) w)) :
  False
  := by
  obtain ⟨id, hid, lits, hmem, hfalse⟩ := hcore (m.assignment σ)
  obtain ⟨sign, w, hw, hstands⟩ := hexported id lits hmem
  apply hfalse
  exact Mapping.sat_of_standsFor hstands (hsat sign w (mem_coreSide.mpr ⟨id, hid, hw⟩))

/-- If the core has no clauses of one of the two literals, the other one is implied by its
clauses. -/
theorem core_unit {lit : Lit} {m : Mapping} {c : Set (Nat × List Lit)} {core : List Nat}
    (hexported : s.Exported lit m c)
    (hcore : ∀ τ : Assignment Nat, ∃ id ∈ core, ∃ lits, (id, lits) ∈ c ∧ ¬ Clause.Sat τ lits)
    {n : Bool} (hn : s.coreSide lit core (!n) = []) {σ : Assignment Nat}
    (hσ : ∀ w ∈ s.watches (side lit n), Clause.Sat σ (s.watchToClause (side lit n) w)) :
  σ.value (side lit n) = true
  := by
  by_contra hval
  apply core_refuted hexported hcore (σ := σ)
  intro sign w hw
  obtain rfl | rfl := Bool.eq_or_eq_not sign n
  · obtain ⟨id, -, htraverse⟩ := mem_coreSide.mp hw
    obtain ⟨l, hl, hlval⟩ := hσ w (traverseDefinitionCore_mem htraverse)
    have hne : l ≠ side lit sign := by
      rintro rfl
      exact hval hlval
    refine ⟨l, ?_, hlval⟩
    cases w with
    | binary other =>
        obtain rfl | hl := List.mem_cons.mp hl
        · exact absurd rfl hne
        · exact hl
    | large ref => exact List.mem_filter.mpr ⟨hl, decide_eq_true hne⟩
  · rw [hn] at hw
    cases hw

theorem find_definition_spec (hK : K.Sound clauses) (hunmarked : s.Unmarked)
    (hgates : s.NoGates) {lit : Lit} {r : Bool × Solver}
    (h : s.kissatFindDefinition K lit = some r) :
  Defined s lit r
  := by
  rw [kissatFindDefinition] at h
  split at h
  · cases h
    exact ⟨rfl, rfl, rfl, rfl, hunmarked, fun _ => ⟨rfl, rfl⟩, Or.inl rfl, fun h => by cases h⟩
  generalize hpos : s.exportClauses K lit (s.watches lit) Mapping.empty 0 K.clear = e at h
  obtain ⟨m₁, exported₁, k₁⟩ := e
  dsimp only at h
  generalize hneg : s.exportClauses K (NOT lit) (s.watches (NOT lit)) m₁ exported₁ k₁ = e at h
  obtain ⟨m, exported, k⟩ := e
  dsimp only at h
  split at h
  swap
  · cases h
    exact ⟨rfl, rfl, rfl, rfl, hunmarked, fun _ => ⟨rfl, rfl⟩, Or.inl rfl, fun h => by cases h⟩
  obtain ⟨k₂, hcompute, h⟩ := Option.bind_eq_some_iff.mp h
  obtain ⟨k₃, hmore, h⟩ := Option.bind_eq_some_iff.mp h
  -- the exported clauses of the two literals
  obtain ⟨hm₁, hlen, hexp₁⟩ := exportClauses_spec hK lit false
    (fun idx h => absurd rfl h) (by
      intro j w hw
      rw [Nat.zero_add, traverseDefinitionCore, if_pos (List.getElem?_eq_some_iff.mp hw).1, hw]
      rfl)
    (by
      rw [hK.clear]
      intro id c hc
      cases hc) hpos
  obtain ⟨-, -, hexp⟩ := exportClauses_spec hK lit true hm₁ (by
      intro j w hw
      rw [hlen, Nat.zero_add, traverseDefinitionCore, if_neg (by omega), Nat.add_sub_cancel_left,
        hw]
      rfl) hexp₁ hneg
  -- the last core is one of the exported clauses
  obtain ⟨hcore, hmem⟩ := moreCores_spec hK (le_of_eq ((hK.core_clauses _ _ hcompute).trans
    (hK.solve k))) (hK.core_unsat k k₂ hcompute) (hK.core_mem k k₂ hcompute) hmore
  generalize K.traverseClausalCore k₃ = core at hcore hmem h
  have hfound : Found s lit (fun sign => s.gates sign ++ s.coreSide lit core sign) := by
    constructor
    · intro sign w hw
      rw [hgates, List.nil_append] at hw
      obtain ⟨id, -, htraverse⟩ := mem_coreSide.mp hw
      exact traverseDefinitionCore_mem htraverse
    · intro σ _ hsat
      apply core_refuted hexp hcore (σ := σ)
      intro sign w hw
      apply sat_exportedLiterals
      apply hsat sign w
      rw [hgates, List.nil_append]
      exact hw
  split at h
  · next hnil =>
      cases h
      have hnil := (List.append_eq_nil_iff.mp hnil).2
      exact ⟨rfl, rfl, rfl, rfl, hunmarked, (by simp),
        Or.inr ⟨true, fun σ => core_unit (n := true) hexp hcore hnil, rfl⟩, fun _ => hfound⟩
  split at h
  · next hnil =>
      cases h
      have hnil := (List.append_eq_nil_iff.mp hnil).2
      exact ⟨rfl, rfl, rfl, rfl, hunmarked, (by simp),
        Or.inr ⟨false, fun σ => core_unit (n := false) hexp hcore hnil, rfl⟩, fun _ => hfound⟩
  · cases h
    exact ⟨rfl, rfl, rfl, rfl, hunmarked, (by simp), Or.inl rfl, fun _ => hfound⟩

end Solver

end Kissat
