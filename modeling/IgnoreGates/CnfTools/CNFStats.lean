import Mathlib.Tactic.IntervalCases
import IgnoreGates.CnfTools.CNFFormula
import IgnoreGates.CnfTools.Distribution

/-!
# The feature record

`CNFStats::analyze` fills the vector `record` in two functions, and `BaseFeatureNames` lists
the names of its entries.  The names announce the features in another order than that in which
the blocks of statistics are pushed, the weighted degrees are truncated to integers, and the
array `clause_sizes` is not initialised.  Names and values agree exactly when nothing of this
matters: the array happens to hold zeros and no clause contains a literal.

Runs in which a resource limit ends the analysis are left out.
-/

namespace CnfTools.CNFStats

/-- `++` on an entry of a vector. -/
def increment {I : Type} [DecidableEq I] (entry : I → Nat) (i : I) : I → Nat :=
  Function.update entry i (entry i + 1)

/-- The loop that increments the entries of the variables of a clause. -/
def incrementVars (entry : Nat → Nat) (clause : Cl) : Nat → Nat :=
  clause.foldl (fun entry lit => increment entry lit.var) entry

/-- The counter `neg` after the loop over a clause. -/
def negatives (clause : Cl) : Nat :=
  clause.foldl (fun neg lit => if lit.sign then neg + 1 else neg) 0

/-- The vector with `n` entries. -/
def entries (n : Nat) (entry : Nat → Nat) : List Nat :=
  (List.range n).map entry

/-- `max > 0 ? min / max : 0`. -/
def ratio (pos neg : Nat) : ℚ :=
  if 0 < max pos neg then (min pos neg : ℚ) / (max pos neg : ℚ) else 0

/-! ### `analyze_occurrences` -/

/-- The local variables of `analyze_occurrences`. -/
structure Occurrences where
  clauseSizes : Nat → Nat
  horn : Nat
  invHorn : Nat
  positive : Nat
  negative : Nat
  variableHorn : Nat → Nat
  variableInvHorn : Nat → Nat
  clauseOccurrences : List Nat
  variableOccurrences : Nat → Nat

namespace Occurrences

/-- Before the loop: the array `clause_sizes` holds what its memory held. -/
def init (clauseSizes : Nat → Nat) : Occurrences where
  clauseSizes
  horn := 0
  invHorn := 0
  positive := 0
  negative := 0
  variableHorn := fun _ => 0
  variableInvHorn := fun _ => 0
  clauseOccurrences := []
  variableOccurrences := fun _ => 0

/-- The tests of the number of negative literals. -/
def visitHorn (s : Occurrences) (clause : Cl) (neg : Nat) : Occurrences :=
  if neg ≤ 1 then
    { s with
      positive := if neg = 0 then s.positive + 1 else s.positive
      horn := s.horn + 1
      variableHorn := incrementVars s.variableHorn clause }
  else s

/-- The tests of the number of positive literals. -/
def visitInvHorn (s : Occurrences) (clause : Cl) (neg : Nat) : Occurrences :=
  if clause.length - neg ≤ 1 then
    { s with
      negative := if clause.length - neg = 0 then s.negative + 1 else s.negative
      invHorn := s.invHorn + 1
      variableInvHorn := incrementVars s.variableInvHorn clause }
  else s

/-- The body of the loop over the clauses. -/
def visit (s : Occurrences) (clause : Cl) : Occurrences :=
  let s :=
    { s with
      clauseSizes :=
        if clause.length < 10 then increment s.clauseSizes clause.length else s.clauseSizes
      clauseOccurrences := s.clauseOccurrences ++ [clause.length]
      variableOccurrences := incrementVars s.variableOccurrences clause }
  (s.visitHorn clause (negatives clause)).visitInvHorn clause (negatives clause)

end Occurrences

noncomputable def analyzeOccurrences (F : CNFFormula) (clauseSizes : Nat → Nat) : List ℝ :=
  let s := F.formula.foldl Occurrences.visit (Occurrences.init clauseSizes)
  let record : List ℝ := [(F.nClauses : ℝ), (F.nVars : ℝ)]
  let record := record ++ (List.range' 1 9).map (fun i => (s.clauseSizes i : ℝ))
  let record := record ++ [(s.horn : ℝ), (s.invHorn : ℝ), (s.positive : ℝ), (s.negative : ℝ)]
  let record := pushDistribution record (entries (F.nVars + 1) s.variableHorn)
  let record := pushDistribution record (entries (F.nVars + 1) s.variableInvHorn)
  let record := pushDistribution record (entries (F.nVars + 1) s.variableOccurrences)
  pushDistribution record s.clauseOccurrences

/-! ### `analyze_degrees` -/

/-- The local variables of the first loop of `analyze_degrees`. -/
structure Degrees where
  literalOccurrences : Lit → Nat
  variableDegree : Nat → Nat
  posNegPerClause : List ℚ

namespace Degrees

def init : Degrees where
  literalOccurrences := fun _ => 0
  variableDegree := fun _ => 0
  posNegPerClause := []

/-- `degree += 1.0 / pow(2, size)`, where `degree` is an unsigned number. -/
def addWeight (degree size : Nat) : Nat :=
  (truncate ((degree : ℚ) + 1 / 2 ^ size)).toNat

/-- The body of the loop over the literals of a clause. -/
def visitLit (size : Nat) (s : Degrees) (lit : Lit) : Degrees :=
  { s with
    literalOccurrences := increment s.literalOccurrences lit
    variableDegree :=
      Function.update s.variableDegree lit.var (addWeight (s.variableDegree lit.var) size) }

/-- The body of the loop over the clauses. -/
def visit (s : Degrees) (clause : Cl) : Degrees :=
  let s := clause.foldl (visitLit clause.length) s
  let neg := negatives clause
  { s with posNegPerClause := s.posNegPerClause ++ [ratio (clause.length - neg) neg] }

end Degrees

/-- The loop over the variables: it begins with the variable 0. -/
def posNegPerVariable (F : CNFFormula) (literalOccurrences : Lit → Nat) : List ℚ :=
  (List.range F.nVars).map (fun v =>
    ratio (literalOccurrences (Lit.ofVar v false)) (literalOccurrences (Lit.ofVar v true)))

/-- The last loop over the clauses. -/
def clauseDegree (F : CNFFormula) (literalOccurrences : Lit → Nat) : List Nat :=
  F.formula.map (fun clause =>
    clause.foldl (fun degree lit => degree + literalOccurrences (~~~lit)) 0)

noncomputable def analyzeDegrees (F : CNFFormula) (record : List ℝ) : List ℝ :=
  let s := F.formula.foldl Degrees.visit Degrees.init
  let record := pushDistribution record (entries (F.nVars + 1) s.variableDegree)
  let record := pushDistribution record s.posNegPerClause
  let record := pushDistribution record (posNegPerVariable F s.literalOccurrences)
  pushDistribution record (clauseDegree F s.literalOccurrences)

/-- The vector that `analyze` leaves in `record`, where `runtime` is the time taken. -/
noncomputable def analyze (F : CNFFormula) (clauseSizes : Nat → Nat) (runtime : ℝ) : List ℝ :=
  analyzeDegrees F (analyzeOccurrences F clauseSizes) ++ [runtime]

def BaseFeatureNames : List String :=
  ["clauses", "variables",
    "clause_size_1", "clause_size_2", "clause_size_3", "clause_size_4", "clause_size_5",
    "clause_size_6", "clause_size_7", "clause_size_8", "clause_size_9",
    "horn_clauses", "inv_horn_clauses", "positive_clauses", "negative_clauses",
    "horn_vars_mean", "horn_vars_variance", "horn_vars_min", "horn_vars_max",
    "horn_vars_entropy",
    "inv_horn_vars_mean", "inv_horn_vars_variance", "inv_horn_vars_min", "inv_horn_vars_max",
    "inv_horn_vars_entropy",
    "vg_degrees_mean", "vg_degrees_variance", "vg_degrees_min", "vg_degrees_max",
    "vg_degrees_entropy",
    "balance_clause_mean", "balance_clause_variance", "balance_clause_min",
    "balance_clause_max", "balance_clause_entropy",
    "balance_vars_mean", "balance_vars_variance", "balance_vars_min", "balance_vars_max",
    "balance_vars_entropy",
    "vcg_vdegrees_mean", "vcg_vdegrees_variance", "vcg_vdegrees_min", "vcg_vdegrees_max",
    "vcg_vdegrees_entropy",
    "vcg_cdegrees_mean", "vcg_cdegrees_variance", "vcg_cdegrees_min", "vcg_cdegrees_max",
    "vcg_cdegrees_entropy",
    "cg_degrees_mean", "cg_degrees_variance", "cg_degrees_min", "cg_degrees_max",
    "cg_degrees_entropy", "base_features_runtime"]

/-! ### What the names announce -/

/-- The number of clauses with the property. -/
def clausesWith (F : CNFFormula) (p : Cl → Bool) : Nat :=
  F.formula.countP p

/-- The number of positive literals of a clause. -/
def posCount (clause : Cl) : Nat :=
  clause.countP (fun l => !l.sign)

/-- The number of negative literals of a clause. -/
def negCount (clause : Cl) : Nat :=
  clause.countP Lit.sign

/-- The values of a quantity of the variables `1`, …, `n_vars`. -/
def perVariable {T : Type} (F : CNFFormula) (quantity : Nat → T) : List T :=
  (List.range' 1 F.nVars).map quantity

/-- The number of occurrences of a variable in the clauses with the property. -/
def occurrencesIn (F : CNFFormula) (p : Cl → Bool) (v : Nat) : Nat :=
  ((F.formula.filter p).flatten).countP (fun l => l.var = v)

/-- The sum of `2 ^ -size` over the clauses of a variable. -/
def weightedDegree (F : CNFFormula) (v : Nat) : ℚ :=
  ((F.formula.filter (fun c => c.any (fun l => l.var = v))).map (fun c => 1 / 2 ^ c.length)).sum

/-- The number of occurrences of a literal. -/
def litOccurrences (F : CNFFormula) (l : Lit) : Nat :=
  F.formula.flatten.count l

/-- The values announced, under their names. -/
noncomputable def announced (F : CNFFormula) (runtime : ℝ) : List (String × ℝ) :=
  [("clauses", (F.nClauses : ℝ)), ("variables", (F.nVars : ℝ)),
    ("clause_size_1", (clausesWith F (fun c => c.length = 1) : ℝ)),
    ("clause_size_2", (clausesWith F (fun c => c.length = 2) : ℝ)),
    ("clause_size_3", (clausesWith F (fun c => c.length = 3) : ℝ)),
    ("clause_size_4", (clausesWith F (fun c => c.length = 4) : ℝ)),
    ("clause_size_5", (clausesWith F (fun c => c.length = 5) : ℝ)),
    ("clause_size_6", (clausesWith F (fun c => c.length = 6) : ℝ)),
    ("clause_size_7", (clausesWith F (fun c => c.length = 7) : ℝ)),
    ("clause_size_8", (clausesWith F (fun c => c.length = 8) : ℝ)),
    ("clause_size_9", (clausesWith F (fun c => c.length = 9) : ℝ)),
    ("horn_clauses", (clausesWith F (fun c => posCount c ≤ 1) : ℝ)),
    ("inv_horn_clauses", (clausesWith F (fun c => negCount c ≤ 1) : ℝ)),
    ("positive_clauses", (clausesWith F (fun c => negCount c = 0) : ℝ)),
    ("negative_clauses", (clausesWith F (fun c => posCount c = 0) : ℝ))]
  ++ ["horn_vars_mean", "horn_vars_variance", "horn_vars_min", "horn_vars_max",
    "horn_vars_entropy"].zip
      (exactSummary (perVariable F (occurrencesIn F (fun c => posCount c ≤ 1))))
  ++ ["inv_horn_vars_mean", "inv_horn_vars_variance", "inv_horn_vars_min", "inv_horn_vars_max",
    "inv_horn_vars_entropy"].zip
      (exactSummary (perVariable F (occurrencesIn F (fun c => negCount c ≤ 1))))
  ++ ["vg_degrees_mean", "vg_degrees_variance", "vg_degrees_min", "vg_degrees_max",
    "vg_degrees_entropy"].zip (exactSummary (perVariable F (weightedDegree F)))
  ++ ["balance_clause_mean", "balance_clause_variance", "balance_clause_min",
    "balance_clause_max", "balance_clause_entropy"].zip
      (exactSummary (F.formula.map (fun c => ratio (posCount c) (negCount c))))
  ++ ["balance_vars_mean", "balance_vars_variance", "balance_vars_min", "balance_vars_max",
    "balance_vars_entropy"].zip
      (exactSummary (perVariable F (fun v =>
        ratio (litOccurrences F (Lit.ofVar v false)) (litOccurrences F (Lit.ofVar v true)))))
  ++ ["vcg_vdegrees_mean", "vcg_vdegrees_variance", "vcg_vdegrees_min", "vcg_vdegrees_max",
    "vcg_vdegrees_entropy"].zip
      (exactSummary (perVariable F (occurrencesIn F (fun _ => true))))
  ++ ["vcg_cdegrees_mean", "vcg_cdegrees_variance", "vcg_cdegrees_min", "vcg_cdegrees_max",
    "vcg_cdegrees_entropy"].zip (exactSummary (F.formula.map List.length))
  ++ ["cg_degrees_mean", "cg_degrees_variance", "cg_degrees_min", "cg_degrees_max",
    "cg_degrees_entropy"].zip
      (exactSummary (F.formula.map (fun c => (c.map (fun l => litOccurrences F (~~~l))).sum)))
  ++ [("base_features_runtime", runtime)]

/-- Position by position the record has the value that the name announces. -/
def RecordAgrees (F : CNFFormula) (clauseSizes : Nat → Nat) (runtime : ℝ) : Prop :=
  (analyze F clauseSizes runtime).length = BaseFeatureNames.length
    ∧ BaseFeatureNames.zip (analyze F clauseSizes runtime) = announced F runtime

/-! ### Formulas without literals -/

theorem ratio_zero :
  ratio 0 0 = 0
  := rfl

theorem entries_zero (n : Nat) :
  entries n (fun _ => 0) = List.replicate n 0
  := by
  rw [entries, List.map_const', List.length_range]

/-- The first loop over clauses without literals. -/
theorem foldl_visit_replicate (m : Nat) (s : Occurrences) :
  (List.replicate m []).foldl Occurrences.visit s
    = { s with
        clauseSizes := Function.update s.clauseSizes 0 (s.clauseSizes 0 + m)
        horn := s.horn + m
        invHorn := s.invHorn + m
        positive := s.positive + m
        negative := s.negative + m
        clauseOccurrences := s.clauseOccurrences ++ List.replicate m 0 }
  := by
  induction m generalizing s with
  | zero => simp
  | succ m ih =>
      rw [List.replicate_succ, List.foldl_cons, ih]
      simp only [Occurrences.visit, Occurrences.visitHorn, Occurrences.visitInvHorn, negatives,
        incrementVars, increment, List.foldl_nil, List.length_nil, Nat.zero_le, if_true,
        Nat.sub_zero, Nat.zero_lt_succ, Function.update_self, Function.update_idem,
        List.append_assoc, List.singleton_append, List.replicate_succ, Occurrences.mk.injEq]
      refine ⟨?_, ?_, ?_, ?_, ?_, trivial, trivial, trivial, trivial⟩
      · congr 1
        omega
      all_goals omega

/-- The second loop over clauses without literals. -/
theorem foldl_degrees_replicate (m : Nat) (s : Degrees) :
  (List.replicate m []).foldl Degrees.visit s
    = { s with posNegPerClause := s.posNegPerClause ++ List.replicate m 0 }
  := by
  induction m generalizing s with
  | zero => simp
  | succ m ih =>
      rw [List.replicate_succ, List.foldl_cons, ih]
      simp [Degrees.visit, negatives, ratio_zero, List.replicate_succ]

/-- The five statistics of values that are all zero. -/
def zeros : List ℝ :=
  [0, 0, 0, 0, 0]

/-- The record of a formula whose clauses contain no literal. -/
theorem analyze_of_empty {F : CNFFormula} {m : Nat} (hF : F.formula = List.replicate m [])
    (clauseSizes : Nat → Nat) (runtime : ℝ) :
  analyze F clauseSizes runtime
    = [(m : ℝ), (F.nVars : ℝ)] ++ (List.range' 1 9).map (fun i => (clauseSizes i : ℝ))
      ++ [(m : ℝ), (m : ℝ), (m : ℝ), (m : ℝ)]
      ++ zeros ++ zeros ++ zeros ++ zeros ++ zeros ++ zeros ++ zeros ++ zeros ++ [runtime]
  := by
  have hsizes : (List.range' 1 9).map (fun i =>
        ((Function.update clauseSizes 0 (clauseSizes 0 + m) i : Nat) : ℝ))
      = (List.range' 1 9).map (fun i => (clauseSizes i : ℝ)) := by
    apply List.map_congr_left
    intro i hi
    rw [Function.update_of_ne]
    rintro rfl
    cases (List.mem_range'_1.mp hi).1
  have hclauses : F.nClauses = m := by
    rw [CNFFormula.nClauses, hF, List.length_replicate]
  have hbalance : posNegPerVariable F (fun _ => 0) = List.replicate F.nVars 0 := by
    simp only [posNegPerVariable, ratio_zero]
    rw [List.map_const', List.length_range]
  have hdegree : clauseDegree F (fun _ => 0) = List.replicate m 0 := by
    rw [clauseDegree, hF, List.map_replicate]
    rfl
  simp only [analyze, analyzeDegrees, analyzeOccurrences, hF, foldl_visit_replicate,
    foldl_degrees_replicate, Occurrences.init, Degrees.init, pushDistribution, entries_zero,
    hsizes, hclauses, hbalance, hdegree, List.nil_append, Nat.zero_add,
    summary_replicate isZero_nat, summary_replicate isZero_rat]
  rfl

theorem perVariable_const {T : Type} {F : CNFFormula} {quantity : Nat → T} {z : T}
    (h : ∀ v, quantity v = z) :
  perVariable F quantity = List.replicate F.nVars z
  := by
  have hconst : quantity = fun _ => z := funext h
  rw [perVariable, hconst, List.map_const', List.length_range']

/-- The values announced for a formula whose clauses contain no literal. -/
theorem announced_of_empty {F : CNFFormula} {m : Nat} (hF : F.formula = List.replicate m [])
    (runtime : ℝ) :
  announced F runtime
    = BaseFeatureNames.zip
      ([(m : ℝ), (F.nVars : ℝ)] ++ List.replicate 9 0 ++ [(m : ℝ), (m : ℝ), (m : ℝ), (m : ℝ)]
        ++ zeros ++ zeros ++ zeros ++ zeros ++ zeros ++ zeros ++ zeros ++ zeros ++ [runtime])
  := by
  have hclauses : F.nClauses = m := by
    rw [CNFFormula.nClauses, hF, List.length_replicate]
  have hwith : ∀ p : Cl → Bool, clausesWith F p = if p [] then m else 0 := by
    intro p
    rw [clausesWith, hF, List.countP_replicate]
  have hflat : ∀ p : Cl → Bool, ((List.replicate m ([] : Cl)).filter p).flatten = [] := by
    intro p
    rw [List.filter_replicate]
    split <;> simp
  have hvars : ∀ p : Cl → Bool, perVariable F (occurrencesIn F p) = List.replicate F.nVars 0 := by
    intro p
    apply perVariable_const
    intro v
    rw [occurrencesIn, hF, hflat, List.countP_nil]
  have hweighted : perVariable F (weightedDegree F) = List.replicate F.nVars 0 := by
    apply perVariable_const
    intro v
    simp [weightedDegree, hF]
  have hlit : ∀ l, litOccurrences F l = 0 := by
    intro l
    simp [litOccurrences, hF]
  have hbalance : perVariable F (fun v => ratio (litOccurrences F (Lit.ofVar v false))
      (litOccurrences F (Lit.ofVar v true))) = List.replicate F.nVars 0 := by
    apply perVariable_const
    intro v
    rw [hlit, hlit, ratio_zero]
  have hclause : F.formula.map (fun c => ratio (posCount c) (negCount c))
      = List.replicate m 0 := by
    rw [hF, List.map_replicate]
    rfl
  have hlength : F.formula.map List.length = List.replicate m 0 := by
    rw [hF, List.map_replicate]
    rfl
  have hdegree : F.formula.map (fun c => (c.map (fun l => litOccurrences F (~~~l))).sum)
      = List.replicate m 0 := by
    rw [hF, List.map_replicate]
    rfl
  simp only [announced, hclauses, hwith, hvars, hweighted, hbalance, hclause, hlength, hdegree,
    exactSummary_replicate isZero_nat, exactSummary_replicate isZero_rat]
  simp [posCount, negCount, BaseFeatureNames, zeros]

/-! ### Formulas with literals -/

theorem incrementVars_apply (entry : Nat → Nat) (clause : Cl) (v : Nat) :
  incrementVars entry clause v = entry v + clause.countP (fun l => l.var = v)
  := by
  induction clause generalizing entry with
  | nil => rfl
  | cons lit clause ih =>
      have hstep : incrementVars entry (lit :: clause) v
          = incrementVars (increment entry lit.var) clause v := rfl
      rw [hstep, ih, List.countP_cons, increment, Function.update_apply]
      by_cases hv : v = lit.var
      · simp only [hv, if_true, decide_true]
        omega
      · simp [hv, Ne.symm hv]

/-- The tests of the numbers of negative and positive literals do not touch what is counted for all
clauses. -/
theorem visit_counts (s : Occurrences) (clause : Cl) :
  (s.visit clause).variableOccurrences = incrementVars s.variableOccurrences clause
    ∧ (s.visit clause).clauseSizes
      = if clause.length < 10 then increment s.clauseSizes clause.length else s.clauseSizes
  := by
  have hhorn : ∀ (s : Occurrences) (neg : Nat),
      (s.visitHorn clause neg).variableOccurrences = s.variableOccurrences
        ∧ (s.visitHorn clause neg).clauseSizes = s.clauseSizes := by
    intro s neg
    rw [Occurrences.visitHorn]
    split <;> exact ⟨rfl, rfl⟩
  have hinv : ∀ (s : Occurrences) (neg : Nat),
      (s.visitInvHorn clause neg).variableOccurrences = s.variableOccurrences
        ∧ (s.visitInvHorn clause neg).clauseSizes = s.clauseSizes := by
    intro s neg
    rw [Occurrences.visitInvHorn]
    split <;> exact ⟨rfl, rfl⟩
  rw [Occurrences.visit, (hinv _ _).1, (hinv _ _).2, (hhorn _ _).1, (hhorn _ _).2]
  exact ⟨rfl, rfl⟩

/-- The loop counts the occurrences of each variable. -/
theorem foldl_visit_variableOccurrences (clauses : List Cl) (s : Occurrences) (v : Nat) :
  (clauses.foldl Occurrences.visit s).variableOccurrences v
    = s.variableOccurrences v + clauses.flatten.countP (fun l => l.var = v)
  := by
  induction clauses generalizing s with
  | nil => rfl
  | cons clause clauses ih =>
      rw [List.foldl_cons, ih, (visit_counts s clause).1, incrementVars_apply, List.flatten_cons,
        List.countP_append, Nat.add_assoc]

/-- The loop counts the clauses of each size on top of what the array held. -/
theorem foldl_visit_clauseSizes (clauses : List Cl) (s : Occurrences) {k : Nat} (hk : k < 10) :
  (clauses.foldl Occurrences.visit s).clauseSizes k
    = s.clauseSizes k + clauses.countP (fun c => c.length = k)
  := by
  induction clauses generalizing s with
  | nil => rfl
  | cons clause clauses ih =>
      rw [List.foldl_cons, ih, (visit_counts s clause).2, List.countP_cons]
      by_cases hlen : clause.length = k
      · subst hlen
        simp [hk, increment]
        omega
      · have hother : ¬ k = clause.length := Ne.symm hlen
        split <;> simp [hlen, hother, increment]

/-- A weighted degree is at most half the number of occurrences. -/
theorem two_mul_weightedDegree_le (F : CNFFormula) (v : Nat) :
  2 * weightedDegree F v ≤ (F.formula.flatten.countP (fun l => l.var = v) : ℚ)
  := by
  rw [weightedDegree]
  induction F.formula with
  | nil => simp
  | cons c clauses ih =>
      rw [List.flatten_cons, List.countP_append, Nat.cast_add]
      by_cases hc : c.any (fun l => l.var = v) = true
      · rw [List.filter_cons, if_pos hc, List.map_cons, List.sum_cons, mul_add]
        apply add_le_add _ ih
        obtain ⟨l, hl, hvar⟩ := List.any_eq_true.mp hc
        have hcount : 1 ≤ c.countP (fun l => l.var = v) := List.countP_pos_iff.mpr ⟨l, hl, hvar⟩
        have hpow : (2 : ℚ) ^ 1 ≤ 2 ^ c.length :=
          pow_le_pow_right₀ (by norm_num) (List.length_pos_of_mem hl)
        have hhalf : 2 * (1 / 2 ^ c.length) ≤ (1 : ℚ) := by
          rw [mul_one_div, div_le_one (by positivity)]
          simpa using hpow
        exact hhalf.trans (by exact_mod_cast hcount)
      · rw [List.filter_cons, if_neg hc]
        exact ih.trans (le_add_of_nonneg_left (Nat.cast_nonneg _))

/-- With a literal in a clause, the largest number of occurrences of a variable is larger than
all weighted degrees. -/
theorem maxElement_weightedDegree_lt {F : CNFFormula} {c : Cl} (hc : c ∈ F.formula) {l : Lit}
    (hl : l ∈ c) (clauseSizes : Nat → Nat) :
  maxElement (perVariable F (weightedDegree F))
    < maxElement (entries (F.nVars + 1) (F.formula.foldl Occurrences.visit
      (Occurrences.init clauseSizes)).variableOccurrences)
  := by
  generalize hd : entries (F.nVars + 1) (F.formula.foldl Occurrences.visit
    (Occurrences.init clauseSizes)).variableOccurrences = d
  have hentry : ∀ v, v ≤ F.nVars →
      (F.formula.flatten.countP (fun l => l.var = v) : ℚ) ≤ maxElement d := by
    intro v hv
    have hmem : F.formula.flatten.countP (fun l => l.var = v) ∈ d := by
      rw [← hd, entries]
      apply List.mem_map.mpr
      refine ⟨v, List.mem_range.mpr (Nat.lt_succ_of_le hv), ?_⟩
      rw [foldl_visit_variableOccurrences]
      exact Nat.zero_add _
    exact value_le_maxElement hmem
  have hone : (1 : ℚ) ≤ maxElement d := by
    have hpos : 1 ≤ F.formula.flatten.countP (fun k => k.var = l.var) :=
      List.countP_pos_iff.mpr ⟨l, List.mem_flatten_of_mem hc hl, by simp⟩
    have hpos' : (1 : ℚ) ≤ (F.formula.flatten.countP (fun k => k.var = l.var) : ℚ) := by
      exact_mod_cast hpos
    exact hpos'.trans (hentry l.var (F.var_le c hc l hl))
  have hhalf : maxElement (perVariable F (weightedDegree F)) ≤ maxElement d / 2 := by
    apply maxElement_le (by linarith)
    intro x hx
    obtain ⟨v, hv, rfl⟩ := List.mem_map.mp hx
    have hv' := (List.mem_range'_1.mp hv).2
    have hle := two_mul_weightedDegree_le F v
    have hle' := hentry v (by omega)
    show weightedDegree F v ≤ maxElement d / 2
    linarith
  linarith

/-! ### Where names and values agree -/

/-- Where names and values agree, the array of the clause sizes held zeros, and the numbers under
the name `vg_degrees_max` are the same. -/
theorem entry_of_agrees {F : CNFFormula} {clauseSizes : Nat → Nat} {runtime : ℝ}
    (h : RecordAgrees F clauseSizes runtime) :
  (∀ i, 1 ≤ i → i ≤ 9 → clauseSizes i = 0)
    ∧ maxElement (entries (F.nVars + 1) (F.formula.foldl Occurrences.visit
      (Occurrences.init clauseSizes)).variableOccurrences)
      = maxElement (perVariable F (weightedDegree F))
  := by
  obtain ⟨-, h⟩ := h
  rw [analyze, analyzeDegrees, analyzeOccurrences] at h
  simp only [pushDistribution] at h
  obtain ⟨a₁, b₁, c₁, e₁, h₁⟩ := summary_eq (entries (F.nVars + 1)
    (F.formula.foldl Occurrences.visit (Occurrences.init clauseSizes)).variableHorn)
  obtain ⟨a₂, b₂, c₂, e₂, h₂⟩ := summary_eq (entries (F.nVars + 1)
    (F.formula.foldl Occurrences.visit (Occurrences.init clauseSizes)).variableInvHorn)
  obtain ⟨a₃, b₃, c₃, e₃, h₃⟩ := summary_eq (entries (F.nVars + 1)
    (F.formula.foldl Occurrences.visit (Occurrences.init clauseSizes)).variableOccurrences)
  obtain ⟨a₄, b₄, c₄, e₄, h₄⟩ :=
    exactSummary_eq (perVariable F (occurrencesIn F (fun c => posCount c ≤ 1)))
  obtain ⟨a₅, b₅, c₅, e₅, h₅⟩ :=
    exactSummary_eq (perVariable F (occurrencesIn F (fun c => negCount c ≤ 1)))
  obtain ⟨a₆, b₆, c₆, e₆, h₆⟩ := exactSummary_eq (perVariable F (weightedDegree F))
  have hsize : ∀ k, k < 10 → (F.formula.foldl Occurrences.visit
      (Occurrences.init clauseSizes)).clauseSizes k
        = clauseSizes k + clausesWith F (fun c => c.length = k) :=
    fun k hk => foldl_visit_clauseSizes F.formula _ hk
  rw [announced, h₁, h₂, h₃, h₄, h₅, h₆] at h
  simp only [BaseFeatureNames, List.range'_succ, List.range'_zero, List.map_cons, List.map_nil,
    List.cons_append, List.nil_append, List.append_assoc, List.zip_cons_cons, List.cons.injEq,
    Prod.mk.injEq, true_and, Nat.reduceAdd, Nat.cast_inj, Rat.cast_inj, List.zip_nil_left] at h
  obtain ⟨s₁, s₂, s₃, s₄, s₅, s₆, s₇, s₈, s₉, -, -, -, -, -, -, -, -, -, -, -, -, -, -, -, -, -,
    hmax, -⟩ := h
  have hcounts : ∀ i, 1 ≤ i → i ≤ 9 → (F.formula.foldl Occurrences.visit
      (Occurrences.init clauseSizes)).clauseSizes i = clausesWith F (fun c => c.length = i) := by
    intro i h1 h9
    interval_cases i <;> assumption
  apply And.intro _ hmax
  intro i h1 h9
  have hcount := hsize i (by omega)
  have heq := hcounts i h1 h9
  omega

/-- Names and values agree exactly when the array `clause_sizes` holds zeros and no clause
contains a literal. -/
theorem recordAgrees_iff (F : CNFFormula) (clauseSizes : Nat → Nat) (runtime : ℝ) :
  RecordAgrees F clauseSizes runtime
    ↔ (∀ i, 1 ≤ i → i ≤ 9 → clauseSizes i = 0) ∧ ∀ c ∈ F.formula, c = []
  := by
  constructor
  · intro h
    obtain ⟨hsizes, hmax⟩ := entry_of_agrees h
    apply And.intro hsizes
    intro c hc
    apply List.eq_nil_iff_forall_not_mem.mpr
    intro l hl
    have hlt := maxElement_weightedDegree_lt hc hl clauseSizes
    rw [hmax] at hlt
    apply lt_irrefl _ hlt
  · rintro ⟨hsizes, hempty⟩
    have hF : F.formula = List.replicate F.formula.length [] :=
      List.eq_replicate_iff.mpr ⟨rfl, hempty⟩
    have hmap : (List.range' 1 9).map (fun i => (clauseSizes i : ℝ)) = List.replicate 9 0 := by
      apply List.eq_replicate_iff.mpr
      apply And.intro (by rw [List.length_map, List.length_range'])
      intro x hx
      obtain ⟨i, hi, rfl⟩ := List.mem_map.mp hx
      have hi' := List.mem_range'_1.mp hi
      rw [hsizes i hi'.1 (by omega), Nat.cast_zero]
    rw [RecordAgrees, analyze_of_empty hF, announced_of_empty hF, hmap]
    apply And.intro _ rfl
    rfl

/-- The formula with the one clause `(1)`: names and values disagree even where the array holds
zeros. -/
theorem not_recordAgrees :
  ∃ F : CNFFormula, F.formula = [[Lit.ofVar 1 false]] ∧
    ∀ runtime, ¬ RecordAgrees F (fun _ => 0) runtime
  := by
  refine ⟨CNFFormula.readDimacs [[1]], by decide, ?_⟩
  intro runtime h
  have hc : [Lit.ofVar 1 false] ∈ (CNFFormula.readDimacs [[1]]).formula := by decide
  have hlt := maxElement_weightedDegree_lt hc (List.mem_singleton_self _) (fun _ => 0)
  rw [(entry_of_agrees h).2] at hlt
  apply lt_irrefl _ hlt

end CnfTools.CNFStats
