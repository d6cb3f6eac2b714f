import Mathlib.Data.Nat.Bitwise

/-!
# Numbers of even parity

The numbers `2 * k` and `2 * k + 1` differ in the lowest bit only, so that exactly one of
them has an even number of bits among the lowest `size` bits.  It is the `k`-th number of
even parity, and the first one of even parity after the one before it.  Every choice of bits
below `size` and of a parity is met by a number.
-/

namespace Logic

/-- An odd number of the lowest `size` bits of `n` are set. -/
def oddParity (size n : Nat) : Bool :=
  (List.range size).foldl (fun res i => if n.testBit i then !res else res) false

theorem oddParity_zero (n : Nat) :
  oddParity 0 n = false
  := rfl

theorem oddParity_succ (size n : Nat) :
  oddParity (size + 1) n = (n.testBit size ^^ oddParity size n)
  := by
  rw [oddParity, List.range_succ, List.foldl_append]
  cases hbit : n.testBit size <;> simp [hbit, oddParity]

theorem oddParity_congr {size m n : Nat} (h : ∀ i < size, m.testBit i = n.testBit i) :
  oddParity size m = oddParity size n
  := by
  induction size with
  | zero => rfl
  | succ size ih =>
      rw [oddParity_succ, oddParity_succ, h size (Nat.lt_succ_self size),
        ih (fun i hi => h i (Nat.lt_succ_of_lt hi))]

/-- Adding one to an even number changes the parity. -/
theorem oddParity_two_mul_add_one {size : Nat} (hsize : 0 < size) (k : Nat) :
  oddParity size (2 * k + 1) = !oddParity size (2 * k)
  := by
  induction size, hsize using Nat.le_induction with
  | base => simp [oddParity_succ, oddParity_zero]
  | succ size hsize ih =>
      have hbit : (2 * k + 1).testBit size = (2 * k).testBit size := by
        obtain ⟨i, rfl⟩ : ∃ i, size = i + 1 := Nat.exists_eq_add_one.mpr hsize
        rw [Nat.testBit_succ, Nat.testBit_succ]
        congr 1
        omega
      rw [oddParity_succ, oddParity_succ, ih, hbit, Bool.xor_not]

/-- The lowest `size` bits of `2 ^ size` are zero. -/
theorem oddParity_two_pow (size : Nat) :
  oddParity size (2 ^ size) = false
  := by
  have h : oddParity size (2 ^ size) = oddParity size 0 := by
    apply oddParity_congr
    intro i hi
    rw [Nat.zero_testBit, Nat.testBit_two_pow_of_ne (Nat.ne_of_gt hi)]
  rw [h]
  clear h
  induction size with
  | zero => rfl
  | succ size ih => rw [oddParity_succ, ih, Nat.zero_testBit, Bool.xor_false]

/-- The `k`-th number of even parity. -/
def evenNumber (size k : Nat) : Nat :=
  2 * k + (oddParity size (2 * k)).toNat

theorem oddParity_evenNumber {size : Nat} (hsize : 0 < size) (k : Nat) :
  oddParity size (evenNumber size k) = false
  := by
  rw [evenNumber]
  cases h : oddParity size (2 * k) with
  | false => exact h
  | true =>
      rw [Bool.toNat_true, oddParity_two_mul_add_one hsize, h, Bool.not_true]

theorem evenNumber_zero {size : Nat} (hsize : 0 < size) :
  evenNumber size 0 = 0
  := by
  have h := oddParity_evenNumber hsize 0
  cases hz : oddParity size (2 * 0) with
  | false => rw [evenNumber, hz]; rfl
  | true =>
      have hcongr : oddParity size 0 = oddParity size (2 ^ size) := by
        apply oddParity_congr
        intro i hi
        rw [Nat.zero_testBit, Nat.testBit_two_pow_of_ne (Nat.ne_of_gt hi)]
      rw [Nat.mul_zero, hcongr, oddParity_two_pow] at hz
      cases hz

/-- The numbers of even parity are the `evenNumber`s. -/
theorem evenNumber_div_two {size n : Nat} (hsize : 0 < size) (h : oddParity size n = false) :
  evenNumber size (n / 2) = n
  := by
  rw [evenNumber]
  obtain hn | hn : n = 2 * (n / 2) ∨ n = 2 * (n / 2) + 1 := by omega
  · rw [← hn, h, Bool.toNat_false]
    omega
  · rw [hn, oddParity_two_mul_add_one hsize, Bool.not_eq_false'] at h
    rw [h, Bool.toNat_true, ← hn]

theorem evenNumber_lt {size k : Nat} (h : k < 2 ^ size) :
  evenNumber (size + 1) k < 2 ^ (size + 1)
  := by
  have := (oddParity (size + 1) (2 * k)).toNat_le
  rw [evenNumber, Nat.pow_succ]
  omega

theorem evenNumber_two_pow (size : Nat) :
  evenNumber (size + 1) (2 ^ size) = 2 ^ (size + 1)
  := by
  have h : 2 * 2 ^ size = 2 ^ (size + 1) := (Nat.pow_succ').symm
  rw [evenNumber, h, oddParity_two_pow, Bool.toNat_false, Nat.add_zero]

/-! ### The next number of even parity -/

/-- The first number from `n` on that `p` does not hold of, looked for in `fuel` steps. -/
def firstFrom (p : Nat → Bool) : Nat → Nat → Nat
  | 0, n => n
  | fuel + 1, n => if p n then firstFrom p fuel (n + 1) else n

/-- The first number after `prev` that has even parity: at most two numbers in a row have
odd parity. -/
def nextEven (p : Nat → Bool) (prev : Nat) : Nat :=
  firstFrom p 2 (prev + 1)

theorem nextEven_evenNumber {size : Nat} (hsize : 0 < size) (k : Nat) :
  nextEven (oddParity size) (evenNumber size k) = evenNumber size (k + 1)
  := by
  have hk := oddParity_two_mul_add_one hsize k
  have hsucc := oddParity_two_mul_add_one hsize (k + 1)
  have htwo : 2 * k + 1 + 1 = 2 * (k + 1) := rfl
  cases h : oddParity size (2 * k) <;> cases h' : oddParity size (2 * (k + 1)) <;>
    rw [h] at hk <;> rw [h'] at hsucc <;>
    simp [nextEven, firstFrom, evenNumber, h, h', hk, hsucc, htwo]

/-! ### Numbers with given bits -/

/-- A number with given lowest bits, whose next bit makes the parity even. -/
theorem exists_even_testBit (size : Nat) (f : Nat → Bool) :
  ∃ n < 2 ^ (size + 1), oddParity (size + 1) n = false ∧ ∀ i < size, n.testBit i = f i
  := by
  let g : Fin (size + 1) → Bool :=
    fun i => if i.val < size then f i else oddParity size (Nat.ofBits fun j : Fin size => f j)
  have hbits : ∀ i < size, (Nat.ofBits g).testBit i = f i := by
    intro i hi
    rw [Nat.testBit_ofBits_lt g i (Nat.lt_succ_of_lt hi)]
    exact if_pos hi
  refine ⟨Nat.ofBits g, Nat.ofBits_lt_two_pow g, ?_, hbits⟩
  have hlow : oddParity size (Nat.ofBits g)
      = oddParity size (Nat.ofBits fun j : Fin size => f j) := by
    apply oddParity_congr
    intro i hi
    rw [hbits i hi, Nat.testBit_ofBits_lt _ i hi]
  rw [oddParity_succ, Nat.testBit_ofBits_lt g size (Nat.lt_succ_self size), hlow]
  simp [g]

/-- Some number of even parity has its last bit set. -/
theorem exists_even_testBit_last {size : Nat} (hsize : 0 < size) :
  ∃ n < 2 ^ (size + 1), oddParity (size + 1) n = false ∧ n.testBit size = true
  := by
  obtain ⟨n, hn, hparity, hbits⟩ := exists_even_testBit size (fun i => decide (i = 0))
  refine ⟨n, hn, hparity, ?_⟩
  have hone : oddParity size n = oddParity size 1 := by
    apply oddParity_congr
    intro i hi
    rw [hbits i hi, Bool.eq_iff_iff, Nat.testBit_one_eq_true_iff_self_eq_zero,
      decide_eq_true_iff]
  have hzero := oddParity_two_mul_add_one hsize 0
  have heven := oddParity_evenNumber hsize 0
  rw [evenNumber_zero hsize] at heven
  rw [heven, Bool.not_false] at hzero
  rw [oddParity_succ, hone, hzero] at hparity
  simpa using hparity

/-! ### One bit that is not given -/

end Logic
