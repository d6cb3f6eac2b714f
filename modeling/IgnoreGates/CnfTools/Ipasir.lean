import Mathlib.Data.List.Basic
import IgnoreGates.Logic.Literal

/-!
# The incremental solver interface

A solver behind the IPASIR interface is given the literals of its clauses one by one, each
clause being finished by a zero.  `Correct` says what the interface documents of
`ipasir_solve`: the answer is 20 exactly when the finished clauses cannot be satisfied under
the assumption.
-/

namespace Ipasir

open Logic

/-- The truth value of a non-zero number as a literal. -/
def value (σ : Assignment Nat) (i : Int) : Bool :=
  if i < 0 then !σ i.natAbs else σ i.natAbs

/-- The clauses that the literals of `S` finish, `clause` being begun already. -/
def finished (clause : List Int) : List Int → List (List Int)
  | [] => []
  | i :: S => if i = 0 then clause :: finished [] S else finished (clause ++ [i]) S

/-- The clauses finished by `S` can be satisfied under the assumption `a`. -/
def SatisfiableUnder (S : List Int) (a : Int) : Prop :=
  ∃ σ : Assignment Nat, value σ a = true ∧ ∀ c ∈ finished [] S, ∃ i ∈ c, value σ i = true

/-- The answers of `ipasir_solve` to sequences of finished clauses. -/
def Correct (solve : List Int → Int → Int) : Prop :=
  ∀ S a, S.getLast? = some 0 → a ≠ 0 → (solve S a = 20 ↔ ¬ SatisfiableUnder S a)

/-- The answers of a solver that is sound and complete for the finished clauses, whether or
not a clause is left open. -/
def Exact (solve : List Int → Int → Int) : Prop :=
  ∀ S a, a ≠ 0 → (solve S a = 20 ↔ ¬ SatisfiableUnder S a)

theorem Exact.correct {solve : List Int → Int → Int} (h : Exact solve) :
  Correct solve
  := fun S a _ ha => h S a ha

/-- The literals of the clause that `S` leaves open, `clause` being begun already. -/
def unfinished (clause : List Int) : List Int → List Int
  | [] => clause
  | i :: S => if i = 0 then unfinished [] S else unfinished (clause ++ [i]) S

theorem finished_append (clause S T : List Int) :
  finished clause (S ++ T) = finished clause S ++ finished (unfinished clause S) T
  := by
  induction S generalizing clause with
  | nil => rfl
  | cons i S ih =>
      rw [List.cons_append, finished, finished, unfinished]
      split
      · rw [ih, List.cons_append]
      · rw [ih]

theorem unfinished_append (clause S T : List Int) :
  unfinished clause (S ++ T) = unfinished (unfinished clause S) T
  := by
  induction S generalizing clause with
  | nil => rfl
  | cons i S ih =>
      rw [List.cons_append, unfinished, unfinished]
      split <;> rw [ih]

theorem finished_append_of_not_mem {c : List Int} (hc : (0 : Int) ∉ c) (clause S : List Int) :
  finished clause (c ++ 0 :: S) = (clause ++ c) :: finished [] S
  := by
  induction c generalizing clause with
  | nil => simp [finished]
  | cons i c ih =>
      rw [List.mem_cons, not_or] at hc
      rw [List.cons_append, finished, if_neg (Ne.symm hc.1), ih hc.2, List.append_assoc]
      rfl

/-- Finished clauses are read back. -/
theorem finished_flatMap {cs : List (List Int)} (hcs : ∀ c ∈ cs, (0 : Int) ∉ c) :
  finished [] (cs.flatMap (· ++ [0])) = cs
  := by
  induction cs with
  | nil => rfl
  | cons c cs ih =>
      rw [List.flatMap_cons, List.append_assoc, List.singleton_append,
        finished_append_of_not_mem (hcs c List.mem_cons_self), List.nil_append,
        ih (fun d hd => hcs d (List.mem_cons_of_mem c hd))]

/-- The first of the clauses given after an open one continues it. -/
theorem finished_flatMap_cons {c : List Int} {cs : List (List Int)} (hc : (0 : Int) ∉ c)
    (hcs : ∀ d ∈ cs, (0 : Int) ∉ d) (clause : List Int) :
  finished clause ((c :: cs).flatMap (· ++ [0])) = (clause ++ c) :: cs
  := by
  rw [List.flatMap_cons, List.append_assoc, List.singleton_append,
    finished_append_of_not_mem hc, finished_flatMap hcs]

/-- Finished clauses leave nothing open. -/
theorem unfinished_flatMap (clause : List Int) {cs : List (List Int)} (hcs : cs ≠ []) :
  unfinished clause (cs.flatMap (· ++ [0])) = []
  := by
  obtain ⟨cs, c, rfl⟩ : ∃ ds d, cs = ds ++ [d] := by
    obtain hnil | ⟨ds, d, hd⟩ := List.eq_nil_or_concat cs
    · exact absurd hnil hcs
    · exact ⟨ds, d, hd.trans List.concat_eq_append⟩
  rw [List.flatMap_append, List.flatMap_singleton, ← List.append_assoc, unfinished_append]
  rfl

end Ipasir
