import Mathlib.Data.Nat.Bitwise
import Mathlib.Order.Defs.LinearOrder
import IgnoreGates.Logic.Literal

/-!
# Literals of cnftools

`struct Lit` packs a variable and a sign in one number, so that a literal and its
complement are adjacent in the order of literals.  A clause (`Cl`) is a list of literals.
A formula (`For`) is a list of pointers to clauses; two clauses with the same literals are
different objects when their pointers differ.
-/

namespace CnfTools

/-- `struct Lit`: the number `2 * var + sign`. -/
@[ext]
structure Lit where
  x : Nat
  deriving DecidableEq, Repr

namespace Lit

/-- `Lit(unsigned var_id, bool sign)`. -/
def ofVar (varId : Nat) (sign : Bool) : Lit :=
  ⟨2 * varId + sign.toNat⟩

def sign (l : Lit) : Bool :=
  l.x % 2 == 1

def var (l : Lit) : Nat :=
  l.x / 2

def positive (l : Lit) : Lit :=
  ofVar l.var false

def negative (l : Lit) : Lit :=
  ofVar l.var true

def toDimacs (l : Lit) : Int :=
  if l.sign then -(l.var : Int) else l.var

/-- `Lit(abs(plit), plit < 0)`, as it is built for a number read from a file. -/
def ofDimacs (plit : Int) : Lit :=
  ofVar plit.natAbs (plit < 0)

/-- `operator~`: the lowest bit is flipped. -/
instance : Complement Lit :=
  ⟨fun l => ⟨l.x ^^^ 1⟩⟩

instance : LT Lit :=
  ⟨fun k l => k.x < l.x⟩

instance : LE Lit :=
  ⟨fun k l => k.x ≤ l.x⟩

instance (k l : Lit) : Decidable (k < l) :=
  inferInstanceAs (Decidable (k.x < l.x))

instance (k l : Lit) : Decidable (k ≤ l) :=
  inferInstanceAs (Decidable (k.x ≤ l.x))

theorem lt_iff {k l : Lit} :
  k < l ↔ k.x < l.x
  := Iff.rfl

theorem le_iff {k l : Lit} :
  k ≤ l ↔ k.x ≤ l.x
  := Iff.rfl

theorem compl_x (l : Lit) :
  (~~~l).x = if l.x % 2 = 0 then l.x + 1 else l.x - 1
  := by
  show l.x ^^^ 1 = _
  split
  · next h => exact Nat.xor_one_of_even (Nat.even_iff.mpr h)
  · next h => exact Nat.xor_one_of_odd (Nat.odd_iff.mpr (by omega))

@[simp]
theorem var_compl (l : Lit) :
  (~~~l).var = l.var
  := by
  rw [var, var, compl_x]
  split <;> omega

@[simp]
theorem sign_compl (l : Lit) :
  (~~~l).sign = !l.sign
  := by
  rw [sign, sign, compl_x]
  split
  · next h =>
      have h' : (l.x + 1) % 2 = 1 := by omega
      simp [h, h']
  · next h =>
      have h' : (l.x - 1) % 2 = 0 := by omega
      have h'' : l.x % 2 = 1 := by omega
      simp [h', h'']

theorem ext_var_sign {k l : Lit} (hv : k.var = l.var) (hs : k.sign = l.sign) :
  k = l
  := by
  apply Lit.ext
  have hs' : k.x % 2 = 1 ↔ l.x % 2 = 1 := by
    simpa [sign] using hs
  have hv' : k.x / 2 = l.x / 2 := hv
  omega

instance : Logic.Literal Lit Nat where
  var := var
  sign := sign
  neg := fun l => ~~~l
  var_neg := var_compl
  sign_neg := sign_compl
  ext := ext_var_sign

@[simp]
theorem literal_var (l : Lit) :
  Logic.Literal.var l = l.var
  := rfl

@[simp]
theorem literal_neg (l : Lit) :
  Logic.Literal.neg l = ~~~l
  := rfl

@[simp]
theorem compl_compl (l : Lit) :
  ~~~(~~~l) = l
  := Logic.Literal.neg_neg l

theorem compl_ne (l : Lit) :
  ~~~l ≠ l
  := Logic.Literal.neg_ne l

@[simp]
theorem ofVar_var (v : Nat) (s : Bool) :
  (ofVar v s).var = v
  := by
  cases s
  · simp [ofVar, var]
  · simp [ofVar, var]
    omega

@[simp]
theorem ofVar_sign (v : Nat) (s : Bool) :
  (ofVar v s).sign = s
  := by
  cases s <;> simp [ofVar, sign]

/-- Literals of smaller variables are smaller. -/
theorem lt_of_var_lt {k l : Lit} (h : k.var < l.var) :
  k < l
  := by
  have h' : k.x / 2 < l.x / 2 := h
  apply lt_iff.mpr
  omega

end Lit

/-- The literal that marks an undefined output. -/
def litUndef : Lit :=
  Lit.ofVar 0 false

/-- `std::vector<Lit>`. -/
abbrev Cl := List Lit

/-- `Cl *`: a pointer to a clause object, given by the position of the object in the
formula that owns it. -/
abbrev Ptr := Nat

/-- `std::vector<Cl*>`. -/
abbrev For := List Ptr

end CnfTools
