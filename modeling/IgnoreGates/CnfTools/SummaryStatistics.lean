import Mathlib.Algebra.Order.BigOperators.Group.List
import IgnoreGates.CnfTools.CNFStats

/-!
# When the statistics are the named ones

`push_distribution` pushes the named statistics of a vector exactly when the conversions in
`Mean` lose nothing.  The accumulator of `Mean` is an `int`: unsigned values are added modulo
`2 ^ 32`, and of a fractional value only the integral part is added.  So the sum has to stay below
`2 ^ 31`, and fractional values have to be integers.  The balances that `CNFStats` pushes lie
between zero and one, so that they have to be extreme.
-/

namespace CnfTools

open Sample

/-- The conversions with a defined result: that of the sum of an `int` and a value to `int`, and
that of a value to `unsigned`. -/
class Conversions (T : Type) where
  /-- the sum and the value fit into `int` -/
  intDefined : Int → T → Prop
  /-- the value fits into `unsigned` -/
  unsignedDefined : T → Prop

/-- Conversions between integer types are always defined. -/
instance : Conversions Nat where
  intDefined _ _ := True
  unsignedDefined _ := True

/-- A fractional number is converted to an integer if its integral part can be represented. -/
instance : Conversions ℚ where
  intDefined sum x := -2 ^ 31 ≤ truncate (sum + x) ∧ truncate (sum + x) < 2 ^ 31
  unsignedDefined x := 0 ≤ truncate x ∧ truncate x < 2 ^ 32

section Statistics

variable {T : Type} [Sample T] [Conversions T]

/-- The conversions of the loop in `Mean` are defined. -/
def MeanDefined (sum : Int) : List T → Prop
  | [] => True
  | x :: xs => Conversions.intDefined sum x ∧ MeanDefined (addToInt sum x) xs

/-- The statistics that `push_distribution` pushes are the named ones. -/
structure SummaryAgrees (distribution : List T) : Prop where
  mean_defined : MeanDefined 0 distribution
  variance_defined : ∀ x ∈ distribution, Conversions.unsignedDefined x
  pushed : ∃ (mean variance min max : ℚ) (entropy : ℝ),
    (∀ record, pushDistribution record distribution
      = record ++ [(mean : ℝ), (variance : ℝ), (min : ℝ), (max : ℝ), entropy])
    ∧ mean = exactMean distribution ∧ variance = exactVariance distribution mean
    ∧ min ≤ mean ∧ mean ≤ max

end Statistics

/-! ### The exact statistics -/

section Exact

variable {T : Type} [Sample T]

/-- No value is smaller than the minimum. -/
theorem minElement_le_value {distribution : List T} {x : T} (hx : x ∈ distribution) :
  minElement distribution ≤ value x
  := by
  have hmem := List.mem_map_of_mem (f := value) hx
  rw [minElement]
  cases hmin : (distribution.map value).min? with
  | none =>
      rw [List.min?_eq_none_iff.mp hmin] at hmem
      cases hmem
  | some m => exact (List.le_min?_iff hmin).mp le_rfl _ hmem

/-- The mean lies between minimum and maximum. -/
theorem exactMean_bounds {distribution : List T} (hne : distribution ≠ []) :
  minElement distribution ≤ exactMean distribution
    ∧ exactMean distribution ≤ maxElement distribution
  := by
  have hpos : (0 : ℚ) < distribution.length := by
    exact_mod_cast List.length_pos_iff.mpr hne
  have hmin := List.card_nsmul_le_sum (distribution.map value) (minElement distribution)
    (by
      intro q hq
      obtain ⟨x, hx, rfl⟩ := List.mem_map.mp hq
      exact minElement_le_value hx)
  have hmax := List.sum_le_card_nsmul (distribution.map value) (maxElement distribution)
    (by
      intro q hq
      obtain ⟨x, hx, rfl⟩ := List.mem_map.mp hq
      exact value_le_maxElement hx)
  rw [List.length_map, nsmul_eq_mul, mul_comm] at hmin hmax
  exact ⟨(le_div_iff₀ hpos).mpr hmin, (div_le_iff₀ hpos).mpr hmax⟩

/-- What is pushed are the results of the functions. -/
theorem pushDistribution_eq_iff {distribution : List T} (hne : distribution ≠ [])
    {mean variance min max : ℚ} {entropy : ℝ} :
  (∀ record, pushDistribution record distribution
      = record ++ [(mean : ℝ), (variance : ℝ), (min : ℝ), (max : ℝ), entropy])
    ↔ mean = Mean distribution ∧ variance = Variance distribution (Mean distribution)
      ∧ min = minElement distribution ∧ max = maxElement distribution
      ∧ entropy = Entropy distribution
  := by
  have hsummary : summary distribution = [(Mean distribution : ℝ),
      (Variance distribution (Mean distribution) : ℝ), (minElement distribution : ℝ),
      (maxElement distribution : ℝ), Entropy distribution] := by
    rw [summary, if_pos (List.length_pos_iff.mpr hne)]
  constructor
  · intro h
    have hnil := h []
    rw [pushDistribution, hsummary, List.nil_append, List.nil_append] at hnil
    simp only [List.cons.injEq, Rat.cast_inj, and_true] at hnil
    obtain ⟨hmean, hvariance, hmin, hmax, hentropy⟩ := hnil
    exact ⟨hmean.symm, hvariance.symm, hmin.symm, hmax.symm, hentropy.symm⟩
  · rintro ⟨rfl, rfl, rfl, rfl, rfl⟩ record
    rw [pushDistribution, hsummary]

/-- If the sum is exact and the values are converted to themselves, the statistics are exact. -/
theorem statistics_pushed {distribution : List T} (hne : distribution ≠ [])
    (hmean : Mean distribution = exactMean distribution)
    (hvalue : ∀ x ∈ distribution, (toUnsigned x : ℚ) = value x) :
  ∃ (mean variance min max : ℚ) (entropy : ℝ),
    (∀ record, pushDistribution record distribution
      = record ++ [(mean : ℝ), (variance : ℝ), (min : ℝ), (max : ℝ), entropy])
    ∧ mean = exactMean distribution ∧ variance = exactVariance distribution mean
    ∧ min ≤ mean ∧ mean ≤ max
  := by
  have hsquares : ∀ (xs : List T) (a mean : ℚ), (∀ x ∈ xs, (toUnsigned x : ℚ) = value x) →
      xs.foldl (fun a b => a + ((toUnsigned b : ℚ) - mean) ^ 2) a
        = a + (xs.map (fun b => (value b - mean) ^ 2)).sum := by
    intro xs
    induction xs with
    | nil =>
        intro a mean _
        rw [List.foldl_nil, List.map_nil, List.sum_nil, add_zero]
    | cons x xs ih =>
        intro a mean hxs
        rw [List.foldl_cons, ih _ _ (fun y hy => hxs y (List.mem_cons_of_mem x hy)),
          hxs x List.mem_cons_self, List.map_cons, List.sum_cons, add_assoc]
  obtain ⟨hmin, hmax⟩ := exactMean_bounds hne
  refine ⟨_, _, _, _, _, (pushDistribution_eq_iff hne).mpr ⟨rfl, rfl, rfl, rfl, rfl⟩, hmean, ?_, ?_, ?_⟩
  · rw [Variance, exactVariance, hsquares _ _ _ hvalue, zero_add]
  · rw [hmean]
    exact hmin
  · rw [hmean]
    exact hmax

/-- Statistics that agree have the exact mean. -/
theorem SummaryAgrees.mean_eq [Conversions T] {distribution : List T}
    (hne : distribution ≠ []) (h : SummaryAgrees distribution) :
  Mean distribution = exactMean distribution
  := by
  obtain ⟨mean, variance, min, max, entropy, hpushed, hmean, -⟩ := h.pushed
  rw [← ((pushDistribution_eq_iff hne).mp hpushed).1]
  exact hmean

/-- The mean is exact when the sum is. -/
theorem mean_eq_iff {distribution : List T} (hne : distribution ≠ []) :
  Mean distribution = exactMean distribution
    ↔ ((distribution.foldl addToInt 0 : Int) : ℚ) = (distribution.map value).sum
  := by
  have hpos : (distribution.length : ℚ) ≠ 0 := by
    exact_mod_cast (List.length_pos_iff.mpr hne).ne'
  rw [Mean, exactMean, div_left_inj' hpos]

end Exact

/-! ### Unsigned values -/

/-- The accumulator holds the sum, as an `int`. -/
theorem foldl_addToInt_nat (distribution : List Nat) (sum : Int) :
  distribution.foldl addToInt (toInt sum) = toInt (sum + (distribution.sum : Nat))
  := by
  induction distribution generalizing sum with
  | nil => simp
  | cons x xs ih =>
      have hstep : addToInt (toInt sum) x = toInt (sum + x) := by
        show Int.bmod (Int.bmod sum (2 ^ 32) + x) (2 ^ 32) = Int.bmod (sum + x) (2 ^ 32)
        exact Int.bmod_add_bmod
      rw [List.foldl_cons, hstep, ih, List.sum_cons, Nat.cast_add, add_assoc]

theorem toInt_eq_iff (n : Nat) :
  toInt n = n ↔ n < 2 ^ 31
  := by
  rw [toInt]
  constructor
  · intro h
    have hlt := @Int.bmod_lt n (2 ^ 32) (by decide)
    rw [h] at hlt
    omega
  · intro h
    apply Int.bmod_eq_of_le <;> omega

theorem meanDefined_nat (sum : Int) (distribution : List Nat) :
  MeanDefined sum distribution
  := by
  induction distribution generalizing sum with
  | nil => trivial
  | cons x xs ih => exact ⟨trivial, ih _⟩

theorem summaryAgrees_nat_iff {distribution : List Nat} (hne : distribution ≠ []) :
  SummaryAgrees distribution ↔ distribution.sum < 2 ^ 31
  := by
  have hvalues : distribution.map value = distribution.map (fun x : Nat => (x : ℚ)) := rfl
  have hsum : Mean distribution = exactMean distribution ↔ distribution.sum < 2 ^ 31 := by
    have hfold := foldl_addToInt_nat distribution 0
    rw [show toInt 0 = 0 from rfl, Int.zero_add] at hfold
    have hcast : (distribution.map value).sum = (((distribution.sum : Nat) : Int) : ℚ) := by
      rw [hvalues, Int.cast_natCast, Nat.cast_list_sum]
    rw [mean_eq_iff hne, hfold, hcast, Int.cast_inj, toInt_eq_iff]
  constructor
  · exact fun h => hsum.mp (h.mean_eq hne)
  · intro h
    exact ⟨meanDefined_nat 0 distribution, fun _ _ => trivial,
      statistics_pushed hne (hsum.mpr h) (fun _ _ => rfl)⟩

/-! ### Fractional values -/

theorem truncate_add {sum : Int} (hsum : 0 ≤ sum) {x : ℚ} (hx : 0 ≤ x) :
  truncate (sum + x) = sum + ⌊x⌋
  := by
  have hnonneg : (0 : ℚ) ≤ sum + x := add_nonneg (by exact_mod_cast hsum) hx
  rw [truncate, if_pos hnonneg, Int.floor_intCast_add]

/-- The integral parts of the values, added up. -/
def floorSum (distribution : List ℚ) : Int :=
  (distribution.map (fun x => ⌊x⌋)).sum

theorem floorSum_nonneg {distribution : List ℚ} (h : ∀ x ∈ distribution, 0 ≤ x) :
  0 ≤ floorSum distribution
  := by
  apply List.sum_nonneg
  intro n hn
  obtain ⟨x, hx, rfl⟩ := List.mem_map.mp hn
  exact Int.floor_nonneg.mpr (h x hx)

/-- The accumulator holds the integral parts. -/
theorem foldl_addToInt_rat {distribution : List ℚ} (h : ∀ x ∈ distribution, 0 ≤ x) {sum : Int}
    (hsum : 0 ≤ sum) :
  distribution.foldl addToInt sum = sum + floorSum distribution
  := by
  induction distribution generalizing sum with
  | nil => simp [floorSum]
  | cons x xs ih =>
      have hx := h x List.mem_cons_self
      have hfloor := Int.floor_nonneg.mpr hx
      have hstep : addToInt sum x = sum + ⌊x⌋ := truncate_add hsum hx
      rw [List.foldl_cons, hstep, ih (fun y hy => h y (List.mem_cons_of_mem x hy)) (by omega),
        floorSum, floorSum, List.map_cons, List.sum_cons, add_assoc]

theorem meanDefined_rat_iff {distribution : List ℚ} (hne : distribution ≠ [])
    (h : ∀ x ∈ distribution, 0 ≤ x) {sum : Int} (hsum : 0 ≤ sum) :
  MeanDefined sum distribution ↔ sum + floorSum distribution < 2 ^ 31
  := by
  induction distribution generalizing sum with
  | nil => exact absurd rfl hne
  | cons x xs ih =>
      have hx := h x List.mem_cons_self
      have hxs : ∀ y ∈ xs, 0 ≤ y := fun y hy => h y (List.mem_cons_of_mem x hy)
      have hfloor := Int.floor_nonneg.mpr hx
      have hstep : truncate (sum + x) = sum + ⌊x⌋ := truncate_add hsum hx
      have hcons : floorSum (x :: xs) = ⌊x⌋ + floorSum xs := by
        rw [floorSum, List.map_cons, List.sum_cons]
        rfl
      have hdefined : MeanDefined sum (x :: xs)
          ↔ (-2 ^ 31 ≤ sum + ⌊x⌋ ∧ sum + ⌊x⌋ < 2 ^ 31) ∧ MeanDefined (sum + ⌊x⌋) xs := by
        rw [← hstep]
        exact Iff.rfl
      have hrest := floorSum_nonneg hxs
      rw [hdefined, hcons]
      cases xs with
      | nil =>
          have hnil : floorSum [] = 0 := rfl
          rw [hnil, Int.add_zero]
          constructor
          · exact fun hall => hall.1.2
          · exact fun hlt => ⟨⟨by omega, hlt⟩, trivial⟩
      | cons y ys =>
          rw [ih (List.cons_ne_nil y ys) hxs (by omega)]
          omega

/-- The integral parts add up to the sum only if the values are integers. -/
theorem floorSum_eq_iff (distribution : List ℚ) :
  (floorSum distribution : ℚ) = distribution.sum ↔ ∀ x ∈ distribution, (⌊x⌋ : ℚ) = x
  := by
  have hle : ∀ xs : List ℚ, (floorSum xs : ℚ) ≤ xs.sum := by
    intro xs
    induction xs with
    | nil => simp [floorSum]
    | cons x xs ih =>
        rw [floorSum, List.map_cons, List.sum_cons, List.sum_cons, Int.cast_add]
        exact add_le_add (Int.floor_le x) ih
  induction distribution with
  | nil => simp [floorSum]
  | cons x xs ih =>
      have hcons : (floorSum (x :: xs) : ℚ) = (⌊x⌋ : ℚ) + (floorSum xs : ℚ) := by
        rw [floorSum, List.map_cons, List.sum_cons, Int.cast_add]
        rfl
      have hx := Int.floor_le x
      have hxs := hle xs
      rw [List.forall_mem_cons, hcons, List.sum_cons]
      constructor
      · intro heq
        exact ⟨by linarith, ih.mp (by linarith)⟩
      · rintro ⟨hx', hall⟩
        rw [hx', ih.mpr hall]

theorem summaryAgrees_rat_iff {distribution : List ℚ} (hne : distribution ≠ [])
    (h : ∀ x ∈ distribution, 0 ≤ x) :
  SummaryAgrees distribution
    ↔ (∀ x ∈ distribution, (⌊x⌋ : ℚ) = x) ∧ distribution.sum < 2 ^ 31
  := by
  have hmean : Mean distribution = exactMean distribution
      ↔ ∀ x ∈ distribution, (⌊x⌋ : ℚ) = x := by
    have hvalues : distribution.map value = distribution := List.map_id distribution
    rw [mean_eq_iff hne, foldl_addToInt_rat h le_rfl, Int.zero_add, hvalues, floorSum_eq_iff]
  have hdefined : MeanDefined 0 distribution ↔ floorSum distribution < 2 ^ 31 := by
    rw [meanDefined_rat_iff hne h le_rfl, Int.zero_add]
  have hsum : (∀ x ∈ distribution, (⌊x⌋ : ℚ) = x) →
      (floorSum distribution < 2 ^ 31 ↔ distribution.sum < 2 ^ 31) := by
    intro hall
    rw [← (floorSum_eq_iff distribution).mpr hall]
    exact_mod_cast Iff.rfl
  constructor
  · intro hagrees
    have hall := hmean.mp (hagrees.mean_eq hne)
    exact ⟨hall, (hsum hall).mp (hdefined.mp hagrees.mean_defined)⟩
  · rintro ⟨hall, hlt⟩
    have htruncate : ∀ x ∈ distribution, truncate x = ⌊x⌋ := fun x hx => if_pos (h x hx)
    refine ⟨hdefined.mpr ((hsum hall).mpr hlt), ?_, statistics_pushed hne (hmean.mpr hall) ?_⟩
    · intro x hx
      have hle : x ≤ distribution.sum := List.single_le_sum h x hx
      have hfloor : ⌊x⌋ < 2 ^ 31 := by
        have hlt' : (⌊x⌋ : ℚ) < 2 ^ 31 := (Int.floor_le x).trans_lt (hle.trans_lt hlt)
        exact_mod_cast hlt'
      have hpos := Int.floor_nonneg.mpr (h x hx)
      show 0 ≤ truncate x ∧ truncate x < 2 ^ 32
      rw [htruncate x hx]
      omega
    · intro x hx
      show (((truncate x).toNat : Nat) : ℚ) = x
      have hpos := Int.floor_nonneg.mpr (h x hx)
      rw [htruncate x hx]
      conv_rhs => rw [← hall x hx, ← Int.toNat_of_nonneg hpos]
      rfl

/-! ### Balances -/

namespace CNFStats

/-- The numbers of positive and of negative occurrences are balanced, or one of them is zero; the
balanced ones other than zero are fewer than `2 ^ 31`. -/
def Extreme (pairs : List (Nat × Nat)) : Prop :=
  (∀ p ∈ pairs, p.1 = 0 ∨ p.2 = 0 ∨ p.1 = p.2)
    ∧ pairs.countP (fun p => 0 < p.1 ∧ p.1 = p.2) < 2 ^ 31

instance (pairs : List (Nat × Nat)) : Decidable (Extreme pairs) :=
  inferInstanceAs (Decidable (_ ∧ _))

/-- The positive and negative literals of each clause, as `analyze_degrees` counts them. -/
def clausePairs (F : CNFFormula) : List (Nat × Nat) :=
  F.formula.map (fun clause => (clause.length - negatives clause, negatives clause))

/-- The positive and negative occurrences of each variable that the loop visits. -/
def variablePairs (F : CNFFormula) (literalOccurrences : Lit → Nat) : List (Nat × Nat) :=
  (List.range F.nVars).map (fun v =>
    (literalOccurrences (Lit.ofVar v false), literalOccurrences (Lit.ofVar v true)))

theorem ratio_of_zero {pos neg : Nat} (h : pos = 0 ∨ neg = 0) :
  ratio pos neg = 0
  := by
  rw [ratio]
  obtain rfl | rfl := h <;> simp

theorem ratio_self {n : Nat} (h : 0 < n) :
  ratio n n = 1
  := by
  have hne : (n : ℚ) ≠ 0 := by exact_mod_cast h.ne'
  rw [ratio, max_self, if_pos h, max_self, min_self, div_self hne]

theorem ratio_nonneg (pos neg : Nat) :
  0 ≤ ratio pos neg
  := by
  rw [ratio]
  split
  · positivity
  · exact le_rfl

/-- A balance strictly between zero and one. -/
theorem ratio_between {pos neg : Nat} (hpos : pos ≠ 0) (hneg : neg ≠ 0) (hne : pos ≠ neg) :
  0 < ratio pos neg ∧ ratio pos neg < 1
  := by
  have hmax : 0 < max pos neg := lt_max_of_lt_left (Nat.pos_of_ne_zero hpos)
  have hmin : 0 < min pos neg := lt_min (Nat.pos_of_ne_zero hpos) (Nat.pos_of_ne_zero hneg)
  have hlt : min pos neg < max pos neg := min_lt_max.mpr hne
  rw [ratio, if_pos hmax]
  have hmax' : (0 : ℚ) < max (pos : ℚ) (neg : ℚ) := by exact_mod_cast hmax
  constructor
  · apply div_pos _ hmax'
    exact_mod_cast hmin
  · rw [div_lt_one hmax']
    exact_mod_cast hlt

theorem floor_ratio_iff (pos neg : Nat) :
  (⌊ratio pos neg⌋ : ℚ) = ratio pos neg ↔ pos = 0 ∨ neg = 0 ∨ pos = neg
  := by
  constructor
  · intro h
    by_contra hnot
    rw [not_or, not_or] at hnot
    obtain ⟨hpos, hneg, hne⟩ := hnot
    obtain ⟨hlow, hhigh⟩ := ratio_between hpos hneg hne
    rw [Int.floor_eq_zero_iff.mpr ⟨hlow.le, hhigh⟩, Int.cast_zero] at h
    exact hlow.ne h
  · intro h
    by_cases hzero : pos = 0 ∨ neg = 0
    · rw [ratio_of_zero hzero, Int.floor_zero, Int.cast_zero]
    · rw [not_or] at hzero
      obtain hpos | hneg | rfl := h
      · exact absurd hpos hzero.1
      · exact absurd hneg hzero.2
      · rw [ratio_self (Nat.pos_of_ne_zero hzero.1), Int.floor_one, Int.cast_one]

/-- Balances that are extreme add up to the number of balanced pairs. -/
theorem sum_ratio {pairs : List (Nat × Nat)} (h : ∀ p ∈ pairs, p.1 = 0 ∨ p.2 = 0 ∨ p.1 = p.2) :
  (pairs.map (fun p => ratio p.1 p.2)).sum
    = (pairs.countP (fun p => 0 < p.1 ∧ p.1 = p.2) : Nat)
  := by
  induction pairs with
  | nil => simp
  | cons p pairs ih =>
      rw [List.map_cons, List.sum_cons, ih (fun q hq => h q (List.mem_cons_of_mem p hq)),
        List.countP_cons, Nat.cast_add, add_comm]
      congr 1
      by_cases hbalanced : 0 < p.1 ∧ p.1 = p.2
      · rw [← hbalanced.2, ratio_self hbalanced.1]
        simp [hbalanced.1]
      · have hzero : p.1 = 0 ∨ p.2 = 0 := by
          have hp := h p List.mem_cons_self
          omega
        rw [ratio_of_zero hzero]
        simp only [hbalanced, decide_false, Bool.false_eq_true, if_false, Nat.cast_zero]

theorem summaryAgrees_ratio_iff {pairs : List (Nat × Nat)} (hne : pairs ≠ []) :
  SummaryAgrees (pairs.map (fun p => ratio p.1 p.2)) ↔ Extreme pairs
  := by
  have hnonneg : ∀ x ∈ pairs.map (fun p => ratio p.1 p.2), 0 ≤ x := by
    intro x hx
    obtain ⟨p, -, rfl⟩ := List.mem_map.mp hx
    exact ratio_nonneg p.1 p.2
  rw [summaryAgrees_rat_iff (by simpa using hne) hnonneg, Extreme, List.forall_mem_map]
  simp only [floor_ratio_iff]
  apply and_congr_right
  intro h
  rw [sum_ratio h]
  exact_mod_cast Iff.rfl

theorem posNegPerClause_eq (F : CNFFormula) :
  (F.formula.foldl Degrees.visit Degrees.init).posNegPerClause
    = (clausePairs F).map (fun p => ratio p.1 p.2)
  := by
  have hlits : ∀ (size : Nat) (lits : List Lit) (s : Degrees),
      (lits.foldl (Degrees.visitLit size) s).posNegPerClause = s.posNegPerClause := by
    intro size lits
    induction lits with
    | nil => exact fun _ => rfl
    | cons lit lits ih =>
        intro s
        rw [List.foldl_cons, ih]
        rfl
  have hfold : ∀ (clauses : List Cl) (s : Degrees),
      (clauses.foldl Degrees.visit s).posNegPerClause = s.posNegPerClause
        ++ clauses.map (fun clause => ratio (clause.length - negatives clause) (negatives clause)) := by
    intro clauses
    induction clauses with
    | nil =>
        intro s
        rw [List.foldl_nil, List.map_nil, List.append_nil]
    | cons clause clauses ih =>
        intro s
        rw [List.foldl_cons, ih, Degrees.visit, List.map_cons, hlits, List.append_assoc]
        rfl
  rw [hfold, clausePairs, List.map_map]
  rfl

end CNFStats

open CNFStats in
/-- The statistics of unsigned values are the named ones if the sum fits into an `int`, those of
fractional values if they are integers besides, and those of the balances if these are extreme. -/
theorem summaryAgrees_iff (sizes : List Nat) (fractions : List ℚ) (F : CNFFormula)
    (literalOccurrences : Lit → Nat) :
  (sizes ≠ [] → (SummaryAgrees sizes ↔ sizes.sum < 2 ^ 31))
    ∧ (fractions ≠ [] → (∀ x ∈ fractions, 0 ≤ x) →
      (SummaryAgrees fractions ↔ (∀ x ∈ fractions, (⌊x⌋ : ℚ) = x) ∧ fractions.sum < 2 ^ 31))
    ∧ (F.formula ≠ [] →
      (SummaryAgrees (F.formula.foldl Degrees.visit Degrees.init).posNegPerClause
        ↔ Extreme (clausePairs F)))
    ∧ (0 < F.nVars →
      (SummaryAgrees (posNegPerVariable F literalOccurrences)
        ↔ Extreme (variablePairs F literalOccurrences)))
  := by
  refine ⟨summaryAgrees_nat_iff, summaryAgrees_rat_iff, ?_, ?_⟩
  · intro hF
    rw [posNegPerClause_eq]
    apply summaryAgrees_ratio_iff
    simpa [clausePairs] using hF
  · intro hpos
    have hmap : posNegPerVariable F literalOccurrences
        = (variablePairs F literalOccurrences).map (fun p => ratio p.1 p.2) := by
      rw [posNegPerVariable, variablePairs, List.map_map]
      rfl
    rw [hmap]
    apply summaryAgrees_ratio_iff
    simpa [variablePairs] using hpos.ne'

/-- The sizes three and four of two clauses, and no formula. -/
theorem summaryAgrees_iff_sizes :
  SummaryAgrees [3, 4]
  := ((summaryAgrees_iff [3, 4] [] (CNFFormula.readDimacs []) (fun _ => 0)).1 (by decide)).mpr
    (by decide)

/-- For the formula with the one clause `(1 ∨ 2 ∨ ¬3)` the balance one half is pushed with the
mean zero. -/
theorem not_summaryAgrees :
  ∃ F : CNFFormula, F.formula = [[Lit.ofVar 1 false, Lit.ofVar 2 false, Lit.ofVar 3 true]]
    ∧ (F.formula.foldl CNFStats.Degrees.visit CNFStats.Degrees.init).posNegPerClause = [1 / 2]
    ∧ Mean [(1 / 2 : ℚ)] = 0 ∧ ¬ SummaryAgrees [(1 / 2 : ℚ)]
  := by
  have hfloor : ⌊(1 / 2 : ℚ)⌋ = 0 := by norm_num
  refine ⟨CNFFormula.readDimacs [[1, 2, -3]], by decide, ?_, ?_, ?_⟩
  · rw [CNFStats.posNegPerClause_eq]
    have hpairs : CNFStats.clausePairs (CNFFormula.readDimacs [[1, 2, -3]]) = [(2, 1)] := by
      decide
    rw [hpairs]
    norm_num [CNFStats.ratio]
  · rw [Mean, foldl_addToInt_rat (by norm_num) le_rfl]
    norm_num [floorSum, hfloor]
  · intro h
    have hall := ((summaryAgrees_rat_iff (List.cons_ne_nil _ _) (by norm_num)).mp h).1
    have hhalf := hall (1 / 2) List.mem_cons_self
    rw [hfloor] at hhalf
    norm_num at hhalf

end CnfTools
