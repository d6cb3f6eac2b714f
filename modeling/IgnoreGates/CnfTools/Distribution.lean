import Mathlib.Analysis.SpecialFunctions.Log.Basic
import Mathlib.Data.Rat.Floor

/-!
# Summary statistics

The functions that reduce a vector of values to five numbers: mean, variance, minimum, maximum
and entropy.  Values are exact rational numbers, with the conversions to integers that the type
of the accumulator in `Mean` and the type of the parameter in `Variance` force.
-/

namespace CnfTools

/-- The conversion of an integer to `int`. -/
def toInt (x : Int) : Int :=
  Int.bmod x (2 ^ 32)

/-- The conversion of a fractional number to an integer: towards zero. -/
def truncate (x : ℚ) : Int :=
  if 0 ≤ x then ⌊x⌋ else ⌈x⌉

/-- The types of the values: `unsigned` and `float`. -/
class Sample (T : Type) where
  /-- the value -/
  value : T → ℚ
  /-- the sum of an `int` and the value, converted to `int` -/
  addToInt : Int → T → Int
  /-- the conversion to `unsigned` -/
  toUnsigned : T → Nat
  /-- the item under which `Entropy` counts the value -/
  item : T → Nat

instance : Sample Nat where
  value x := x
  addToInt sum x := toInt (sum + x)
  toUnsigned x := x
  item x := x

instance : Sample ℚ where
  value x := x
  addToInt sum x := truncate (sum + x)
  toUnsigned x := (truncate x).toNat
  item x := ⌊10 * x + 1 / 2⌋.toNat

section Statistics

open Sample

variable {T : Type} [Sample T]

def Mean (distribution : List T) : ℚ :=
  (distribution.foldl addToInt 0 : Int) / distribution.length

def Variance (distribution : List T) (mean : ℚ) : ℚ :=
  distribution.foldl (fun a b => a + ((toUnsigned b : ℚ) - mean) ^ 2) 0 / distribution.length

/-- The body of the first loop of `Entropy`. -/
def countItem (frequency : List Nat) (item : Nat) : List Nat :=
  let frequency := if frequency.length ≤ item then
      frequency ++ List.replicate (item + 1 - frequency.length) 0
    else frequency
  frequency.set item (frequency.getD item 0 + 1)

/-- The vector `frequency` of `Entropy`. -/
def frequencies (distribution : List T) : List Nat :=
  (distribution.map item).foldl countItem []

noncomputable def Entropy (distribution : List T) : ℝ :=
  (frequencies distribution).foldl
    (fun entropy freq =>
      if 0 < freq then
        let pX : ℝ := freq / distribution.length
        if 0 < pX then entropy - pX * Real.log pX / Real.log 2 else entropy
      else entropy) 0

/-- `*std::min_element` of a vector with elements. -/
def minElement (distribution : List T) : ℚ :=
  (distribution.map value).min?.getD 0

/-- `*std::max_element` of a vector with elements. -/
def maxElement (distribution : List T) : ℚ :=
  (distribution.map value).max?.getD 0

/-- The numbers that `push_distribution` pushes. -/
noncomputable def summary (distribution : List T) : List ℝ :=
  if 0 < distribution.length then
    let mean := Mean distribution
    [(mean : ℝ), (Variance distribution mean : ℝ), (minElement distribution : ℝ),
      (maxElement distribution : ℝ), Entropy distribution]
  else
    [0, 0, 0, 0, 0]

noncomputable def pushDistribution (record : List ℝ) (distribution : List T) : List ℝ :=
  record ++ summary distribution

/-! ### The statistics that are meant -/

/-- The sum of the values divided by their number. -/
def exactMean (distribution : List T) : ℚ :=
  (distribution.map value).sum / distribution.length

/-- The average squared distance from a number. -/
def exactVariance (distribution : List T) (mean : ℚ) : ℚ :=
  (distribution.map (fun b => (value b - mean) ^ 2)).sum / distribution.length

/-- Mean, variance, minimum, maximum and entropy, zero where there are no values. -/
noncomputable def exactSummary (distribution : List T) : List ℝ :=
  if 0 < distribution.length then
    [(exactMean distribution : ℝ), (exactVariance distribution (exactMean distribution) : ℝ),
      (minElement distribution : ℝ), (maxElement distribution : ℝ), Entropy distribution]
  else
    [0, 0, 0, 0, 0]

/-- The fourth of five numbers is the maximum, whatever the first two are. -/
theorem maxElement_fourth (distribution : List T) (m v : ℝ) :
  ∃ mean variance min entropy,
    (if 0 < distribution.length then
      [m, v, (minElement distribution : ℝ), (maxElement distribution : ℝ), Entropy distribution]
    else
      [0, 0, 0, 0, 0]) = [mean, variance, min, (maxElement distribution : ℝ), entropy]
  := by
  split
  · exact ⟨_, _, _, _, rfl⟩
  · next hlen =>
      obtain rfl := List.eq_nil_of_length_eq_zero (Nat.eq_zero_of_not_pos hlen)
      exact ⟨0, 0, 0, 0, by simp [maxElement]⟩

/-- The fourth of the five numbers pushed is the maximum. -/
theorem summary_eq (distribution : List T) :
  ∃ mean variance min entropy,
    summary distribution = [mean, variance, min, (maxElement distribution : ℝ), entropy]
  := maxElement_fourth distribution _ _

theorem exactSummary_eq (distribution : List T) :
  ∃ mean variance min entropy,
    exactSummary distribution = [mean, variance, min, (maxElement distribution : ℝ), entropy]
  := maxElement_fourth distribution _ _

/-- No value is larger than the maximum. -/
theorem value_le_maxElement {distribution : List T} {x : T} (hx : x ∈ distribution) :
  value x ≤ maxElement distribution
  := by
  have hmem := List.mem_map_of_mem (f := value) hx
  rw [maxElement]
  cases hmax : (distribution.map value).max? with
  | none =>
      rw [List.max?_eq_none_iff.mp hmax] at hmem
      cases hmem
  | some m => exact (List.max?_le_iff hmax).mp le_rfl _ hmem

/-- A bound of the values that is not negative bounds the maximum. -/
theorem maxElement_le {distribution : List T} {b : ℚ} (hb : 0 ≤ b)
    (h : ∀ x ∈ distribution, value x ≤ b) :
  maxElement distribution ≤ b
  := by
  rw [maxElement]
  cases hmax : (distribution.map value).max? with
  | none => exact hb
  | some m =>
      obtain ⟨x, hx, hval⟩ := List.mem_map.mp (List.max?_mem hmax)
      rw [Option.getD_some, ← hval]
      exact h x hx

/-! ### Values that are zero -/

/-- The value is zero under all conversions. -/
structure IsZero (z : T) : Prop where
  value : value z = 0
  addToInt : addToInt 0 z = 0
  toUnsigned : toUnsigned z = 0
  item : item z = 0

theorem isZero_nat :
  IsZero (0 : Nat)
  := ⟨rfl, rfl, rfl, rfl⟩

theorem isZero_rat :
  IsZero (0 : ℚ)
  := by
  refine ⟨rfl, by simp [addToInt, truncate], by simp [toUnsigned, truncate], ?_⟩
  show ⌊10 * (0 : ℚ) + 1 / 2⌋.toNat = 0
  norm_num

theorem entropy_replicate {z : T} (hz : IsZero z) (n : Nat) :
  Entropy (List.replicate (n + 1) z) = 0
  := by
  have hcount : ∀ m k, (List.replicate k 0).foldl countItem [m] = [m + k] := by
    intro m k
    induction k generalizing m with
    | zero => rfl
    | succ k ih =>
        rw [List.replicate_succ, List.foldl_cons]
        have hstep : countItem [m] 0 = [m + 1] := by simp [countItem]
        rw [hstep, ih]
        congr 1
        omega
  have hfrequencies : frequencies (List.replicate (n + 1) z) = [n + 1] := by
    rw [frequencies, List.map_replicate, hz.item, List.replicate_succ, List.foldl_cons]
    have hstep : countItem [] 0 = [1] := by simp [countItem]
    rw [hstep, hcount, Nat.add_comm]
  have hone : ((n : ℝ) + 1) / (n + 1) = 1 := div_self (by positivity)
  rw [Entropy, hfrequencies]
  simp [hone]

/-- Five numbers of zeros are zero if the first two are. -/
theorem five_replicate {z : T} (hz : IsZero z) (n : Nat) {m v : ℝ} (hm : 0 < n → m = 0)
    (hv : 0 < n → v = 0) :
  (if 0 < (List.replicate n z).length then
    [m, v, (minElement (List.replicate n z) : ℝ), (maxElement (List.replicate n z) : ℝ),
      Entropy (List.replicate n z)]
  else
    [0, 0, 0, 0, 0]) = [0, 0, 0, 0, 0]
  := by
  cases n with
  | zero => rfl
  | succ n =>
      have hmin : minElement (List.replicate (n + 1) z) = 0 := by
        simp [minElement, hz.value, List.min?_replicate_of_pos]
      have hmax : maxElement (List.replicate (n + 1) z) = 0 := by
        simp [maxElement, hz.value, List.max?_replicate_of_pos]
      rw [hm n.succ_pos, hv n.succ_pos, hmin, hmax, entropy_replicate hz, Rat.cast_zero,
        List.length_replicate, if_pos n.succ_pos]

/-- The statistics of zeros are zero. -/
theorem summary_replicate {z : T} (hz : IsZero z) (n : Nat) :
  summary (List.replicate n z) = [0, 0, 0, 0, 0]
  := by
  have hsum : ∀ k, (List.replicate k z).foldl Sample.addToInt 0 = 0 := by
    intro k
    induction k with
    | zero => rfl
    | succ k ih => rw [List.replicate_succ, List.foldl_cons, hz.addToInt, ih]
  have hmean : Mean (List.replicate n z) = 0 := by
    rw [Mean, hsum]
    simp
  have hsquares : ∀ k, (List.replicate k z).foldl
      (fun a b => a + ((Sample.toUnsigned b : ℚ) - 0) ^ 2) (0 : ℚ) = 0 := by
    intro k
    induction k with
    | zero => rfl
    | succ k ih =>
        rw [List.replicate_succ, List.foldl_cons, hz.toUnsigned]
        simpa using ih
  have hvariance : Variance (List.replicate n z) (Mean (List.replicate n z)) = 0 := by
    rw [hmean, Variance, hsquares]
    simp
  exact five_replicate hz n (fun _ => by rw [hmean, Rat.cast_zero])
    (fun _ => by rw [hvariance, Rat.cast_zero])

theorem exactSummary_replicate {z : T} (hz : IsZero z) (n : Nat) :
  exactSummary (List.replicate n z) = [0, 0, 0, 0, 0]
  := by
  have hmean : exactMean (List.replicate n z) = 0 := by
    simp [exactMean, hz.value]
  have hvariance : exactVariance (List.replicate n z) (exactMean (List.replicate n z)) = 0 := by
    rw [hmean]
    simp [exactVariance, hz.value]
  exact five_replicate hz n (fun _ => by rw [hmean, Rat.cast_zero])
    (fun _ => by rw [hvariance, Rat.cast_zero])

end Statistics

end CnfTools
