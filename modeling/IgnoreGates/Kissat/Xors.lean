import Mathlib.Data.List.Sort
import IgnoreGates.Kissat.Dense
import IgnoreGates.Logic.Parity

/-!
# XOR gates

The unassigned literals of a clause are negated in all ways with an even number of
negations, by going through the numbers of even parity, and for each of them a clause is
looked for that has no other unassigned literals.  If all are found, then every assignment of
the other literals falsifies one of them apart from the literal.
-/

namespace Kissat

open Logic

/-! ### Marking signed literals -/

/-- The literals with the signs given by the bits of `signs` from position `i` on. -/
def signed (signs : Nat) : Nat → List Lit → List Lit
  | _, [] => []
  | i, lit :: lits => side lit (signs.testBit i) :: signed signs (i + 1) lits

/-- `mark_literals` -/
def markLiterals (signs : Nat) : Nat → List Lit → (Lit → Bool) → (Lit → Bool)
  | _, [], marks => marks
  | i, lit :: lits, marks =>
      markLiterals signs (i + 1) lits (Function.update marks (side lit (signs.testBit i)) true)

/-- `unmark_literals` -/
def unmarkLiterals (signs : Nat) : Nat → List Lit → (Lit → Bool) → (Lit → Bool)
  | _, [], marks => marks
  | i, lit :: lits, marks =>
      unmarkLiterals signs (i + 1) lits
        (Function.update marks (side lit (signs.testBit i)) false)

/-- The loop of `next_marking` that changes the marks where the signs differ. -/
def changeMarks (prev next : Nat) : Nat → List Lit → (Lit → Bool) → (Lit → Bool)
  | _, [], marks => marks
  | i, lit :: lits, marks =>
      changeMarks prev next (i + 1) lits
        (if !prev.testBit i && next.testBit i then
          Function.update (Function.update marks lit false) (NOT lit) true
        else if prev.testBit i && !next.testBit i then
          Function.update (Function.update marks (NOT lit) false) lit true
        else marks)

/-- `next_marking`: the next signs of even parity, or zero behind the last ones. -/
def nextMarking (lits : List Lit) (prev : Nat) (marks : Lit → Bool) : Nat × (Lit → Bool) :=
  let size := lits.length
  let limit := 2 ^ size
  let next := nextEven (oddParity size) prev
  (if next = limit then 0 else next, changeMarks prev next 0 lits marks)

theorem mem_signed {signs i : Nat} {lits : List Lit} {l : Lit} :
  l ∈ signed signs i lits ↔ ∃ j k, lits[j]? = some k ∧ l = side k (signs.testBit (i + j))
  := by
  induction lits generalizing i with
  | nil => simp [signed]
  | cons lit lits ih =>
      rw [signed, List.mem_cons, ih]
      constructor
      · rintro (rfl | ⟨j, k, hk, rfl⟩)
        · exact ⟨0, lit, rfl, rfl⟩
        · exact ⟨j + 1, k, hk, by rw [Nat.add_right_comm, Nat.add_assoc]⟩
      · rintro ⟨j, k, hk, rfl⟩
        cases j with
        | zero =>
            cases hk
            exact Or.inl rfl
        | succ j =>
            right
            exact ⟨j, k, hk, by rw [Nat.add_right_comm, Nat.add_assoc]⟩

theorem IDX_mem_of_mem_signed {signs i : Nat} {lits : List Lit} {l : Lit}
    (h : l ∈ signed signs i lits) :
  IDX l ∈ lits.map IDX
  := by
  obtain ⟨j, k, hk, rfl⟩ := mem_signed.mp h
  rw [IDX_side]
  exact List.mem_map_of_mem (List.mem_of_getElem? hk)

theorem markLiterals_apply {signs i : Nat} {lits : List Lit} {marks : Lit → Bool} {l : Lit} :
  markLiterals signs i lits marks l = true ↔ marks l = true ∨ l ∈ signed signs i lits
  := by
  induction lits generalizing i marks with
  | nil => simp [markLiterals, signed]
  | cons lit lits ih =>
      rw [markLiterals, ih, signed, List.mem_cons, Function.update_apply]
      split
      · next heq => simp [heq]
      · next hne => simp [hne]

theorem unmarkLiterals_apply {signs i : Nat} {lits : List Lit} {marks : Lit → Bool} {l : Lit} :
  unmarkLiterals signs i lits marks l = true ↔ marks l = true ∧ l ∉ signed signs i lits
  := by
  induction lits generalizing i marks with
  | nil => simp [unmarkLiterals, signed]
  | cons lit lits ih =>
      rw [unmarkLiterals, ih, signed, List.mem_cons, Function.update_apply]
      split
      · next heq => simp [heq]
      · next hne => simp [hne]

/-- Changing the mark of one literal from its previous to its next sign. -/
theorem change_mark_apply {lit : Lit} {prev next : Bool} {marks : Lit → Bool}
    (hpos : marks lit = !prev) (hneg : marks (NOT lit) = prev) {k : Lit} (hk : IDX k = IDX lit) :
  (if !prev && next then Function.update (Function.update marks lit false) (NOT lit) true
    else if prev && !next then Function.update (Function.update marks (NOT lit) false) lit true
    else marks) k = true ↔ k = side lit next
  := by
  have hne := NOT_ne lit
  obtain rfl | rfl := eq_or_eq_NOT hk
  · cases prev <;> cases next <;> simp [side, hpos, hne.symm]
  · cases prev <;> cases next <;> simp [side, hneg, hne]

/-- The marks of literals with the previous signs become those of the literals with the next
ones; `P` holds of the marked literals of other variables. -/
theorem changeMarks_apply (next : Nat) {prev i : Nat} {lits : List Lit} {marks : Lit → Bool}
    {P : Lit → Prop} (hnodup : (lits.map IDX).Nodup) (hP : ∀ l, P l → IDX l ∉ lits.map IDX)
    (hmarks : ∀ l, marks l = true ↔ P l ∨ l ∈ signed prev i lits) (l : Lit) :
  changeMarks prev next i lits marks l = true ↔ P l ∨ l ∈ signed next i lits
  := by
  induction lits generalizing i marks P with
  | nil => simpa [changeMarks, signed] using hmarks l
  | cons lit lits ih =>
      obtain ⟨hlit, hnodup⟩ := List.nodup_cons.mp hnodup
      have hrest : ∀ k, IDX k = IDX lit → ¬ P k ∧ k ∉ signed prev (i + 1) lits := by
        intro k hk
        constructor
        · intro hPk
          apply hP k hPk
          rw [hk]
          exact List.mem_map_of_mem List.mem_cons_self
        · intro hmem
          apply hlit
          rw [← hk]
          exact IDX_mem_of_mem_signed hmem
      rw [changeMarks, signed, List.mem_cons, ← or_assoc]
      apply ih (P := fun k => P k ∨ k = side lit (next.testBit i)) hnodup
      · rintro k (hk | rfl)
        · intro hmem
          exact hP k hk (List.mem_cons_of_mem _ hmem)
        · rw [IDX_side]
          exact hlit
      · intro k
        have hk := hmarks k
        rw [signed, List.mem_cons, ← or_assoc] at hk
        -- only the two literals of the variable of `lit` change their marks
        by_cases hvar : IDX k = IDX lit
        · obtain ⟨hPk, hmem⟩ := hrest k hvar
          have hside : ∀ k, IDX k = IDX lit →
              (marks k = true ↔ k = side lit (prev.testBit i)) := by
            intro k hvar
            obtain ⟨hPk, hmem⟩ := hrest k hvar
            have hk := hmarks k
            rw [signed, List.mem_cons] at hk
            simpa only [hPk, hmem, or_false, false_or] using hk
          have hpos : marks lit = !prev.testBit i := by
            rw [Bool.eq_iff_iff, hside lit rfl]
            cases prev.testBit i <;> simp [side, (NOT_ne lit).symm]
          have hneg : marks (NOT lit) = prev.testBit i := by
            rw [Bool.eq_iff_iff, hside (NOT lit) (IDX_NOT lit)]
            cases prev.testBit i <;> simp [side, NOT_ne lit]
          rw [change_mark_apply hpos hneg hvar]
          simp only [hPk, hmem, or_false, false_or]
        · have hside : ∀ b, k ≠ side lit b := by
            rintro b rfl
            exact hvar (IDX_side lit b)
          have hpos := hside false
          have hneg := hside true
          simp only [side, Bool.false_eq_true, if_false, if_true] at hpos hneg
          simp only [hside, or_false] at hk ⊢
          rw [← hk]
          split
          · rw [Function.update_of_ne hneg, Function.update_of_ne hpos]
          · split
            · rw [Function.update_of_ne hpos, Function.update_of_ne hneg]
            · rfl

namespace Solver

variable (s : Solver)

/-! ### The extractor -/

/-- `copy_literals`: the unassigned literals of a clause apart from `lit`, and `lit` behind
them. -/
def copyLiterals (lit : Lit) : List Lit → List Lit → Scan (List Lit)
  | [], lits => .done (lits ++ [lit])
  | other :: rest, lits =>
      if other = lit then copyLiterals lit rest lits
      else
        match s.value other with
        | some true => .satisfied
        | some false => copyLiterals lit rest lits
        | none => copyLiterals lit rest (lits ++ [other])

/-- `match_lits_ref` -/
def matchLitsRef (marks : Lit → Bool) (size ref : Nat) (f : Flags) : Bool × Flags :=
  if f.garbage ref then (false, f)
  else
    match s.matchLiterals marks (s.arena ref) 0 with
    | .satisfied => (false, f.eliminateClause ref)
    | .failed => (false, f)
    | .done found => (true, if found < size then { f with resolveGate := true } else f)

/-- `match_lits_watch` -/
def matchLitsWatch (marks : Lit → Bool) (size : Nat) (w : Watch) (f : Flags) : Bool × Flags :=
  match w with
  | .binary other => if !marks other then (false, f) else (true, { f with resolveGate := true })
  | .large ref => s.matchLitsRef marks size ref f

/-- The state of the inner loop of `kissat_find_xor_gate`: `xorted` has the positions of the
clauses found among the watches of the literal and of its complement. -/
structure XorState where
  signs : Nat
  marks : Lit → Bool
  xorted : Bool → List Nat
  steps : Nat
  flags : Flags

/-- The inner loop of `kissat_find_xor_gate`, which ends in `fuel` rounds. -/
def xorLoop (lit : Lit) (lits : List Lit) : Nat → XorState → XorState
  | 0, x => x
  | fuel + 1, x =>
      if x.steps ≤ s.options.occurrences then
        let (signs, marks) := nextMarking lits x.signs x.marks
        let x := { x with signs := signs, marks := marks }
        if signs = 0 then x
        else
          -- the watches of the marked one of the two literals are searched
          let negative := !marks lit
          let watches := s.watches (side lit negative)
          let (q, f) := findWatch (s.matchLitsWatch marks lits.length) watches 0 x.flags
          let x := { x with steps := x.steps + stepsOf watches q, flags := f }
          match q with
          | none => x
          | some (q, _) =>
              xorLoop lit lits fuel { x with
                xorted := fun n => if n = negative then x.xorted n ++ [q] else x.xorted n }
      else x

/-- The loops of `kissat_find_xor_gate` that push the sorted positions without repetitions. -/
def dropRepeated : Option Nat → List Nat → List Nat
  | _, [] => []
  | prev, p :: ps =>
      if prev = some p then dropRepeated (some p) ps else p :: dropRepeated (some p) ps

/-- The watches at the positions found, sorted and without repetitions. -/
def xorSide (watches : List Watch) (xorted : List Nat) : List Watch :=
  (dropRepeated none (xorted.insertionSort (· ≤ ·))).filterMap (watches[·]?)

/-- The state before the inner loop, in which the clause at position `p` has been found. -/
def xorStart (lits : List Lit) (p steps : Nat) (t : Solver) : XorState where
  signs := 0
  marks := markLiterals 0 0 lits t.marks
  xorted := fun n => if n then [] else [p]
  steps := steps
  flags := { t.flags with resolveGate := false }

/-- What is done after the inner loop: the literals are unmarked, and if a clause has been
found for all signs, the clauses are pushed as gate clauses. -/
def xorFinish (lit : Lit) (negative : Bool) (lits : List Lit) (x : XorState) (t : Solver) :
    Solver :=
  let t := { t with marks := unmarkLiterals x.signs 0 lits x.marks, flags := x.flags }
  if (x.xorted false).length + (x.xorted true).length = 2 ^ (lits.length - 1) then
    let ws := xorSide (s.watches lit) (x.xorted false)
    let notWs := xorSide (s.watches (NOT lit)) (x.xorted true)
    { t with gates := pushGates (pushGates t.gates negative ws) (!negative) notWs }
  else t

/-- The outer loop of `kissat_find_xor_gate` over the watches from position `p` on. -/
def xorGate (lit : Lit) (negative : Bool) :
    List Watch → Nat → Nat → Solver → Bool × Solver
  | [], _, _, t => (false, t)
  | .binary _ :: ws, p, steps, t => xorGate lit negative ws (p + 1) steps t
  | .large ref :: ws, p, steps, t =>
      if steps > s.options.occurrences then (false, t)
      else if s.terminated steps then (false, t)
      else
        let steps := steps + 1
        if t.flags.garbage ref then xorGate lit negative ws (p + 1) steps t
        else if (s.arena ref).length > s.options.xorClauseSize then
          xorGate lit negative ws (p + 1) steps t
        else
          match s.copyLiterals lit (s.arena ref) [] with
          | .failed => xorGate lit negative ws (p + 1) steps t
          | .satisfied =>
              xorGate lit negative ws (p + 1) steps
                { t with flags := t.flags.eliminateClause ref }
          | .done lits =>
              if lits.length < 3 then xorGate lit negative ws (p + 1) steps t
              else
                let x := s.xorLoop lit lits (2 ^ (lits.length - 1)) (xorStart lits p steps t)
                let t := s.xorFinish lit negative lits x t
                if t.gates false = [] then xorGate lit negative ws (p + 1) x.steps t
                else (true, t)

/-- `kissat_find_xor_gate` -/
def kissatFindXorGate (lit : Lit) (negative : Bool) : Bool × Solver :=
  if !s.options.xors then (false, s)
  else if s.options.xorClauseSize < 3 then (false, s)
  else if s.watches lit = [] then (false, s)
  else if (s.watches lit).countP isLarge < 2 then (false, s)
  else if (s.watches (NOT lit)).countP isLarge < 2 then (false, s)
  else s.xorGate lit negative (s.watches lit) 0 0 s

variable {s}

/-! ### Copied literals and matched clauses -/

theorem copyLiterals_done {lit : Lit} {c lits r : List Lit}
    (h : s.copyLiterals lit c lits = .done r) :
  ∃ inputs, r = lits ++ inputs ++ [lit] ∧ inputs.Sublist c ∧ lit ∉ inputs
    ∧ ∀ l ∈ c, l = lit ∨ s.value l = some false ∨ l ∈ inputs
  := by
  induction c generalizing lits with
  | nil =>
      cases h
      exact ⟨[], by simp, List.Sublist.refl _, List.not_mem_nil, by simp⟩
  | cons other rest ih =>
      rw [copyLiterals] at h
      have hskip : s.copyLiterals lit rest lits = .done r →
          (other = lit ∨ s.value other = some false) →
          ∃ inputs, r = lits ++ inputs ++ [lit] ∧ inputs.Sublist (other :: rest)
            ∧ lit ∉ inputs
            ∧ ∀ l ∈ other :: rest, l = lit ∨ s.value l = some false ∨ l ∈ inputs := by
        intro h hother
        obtain ⟨inputs, hr, hsub, hlit, hrest⟩ := ih h
        refine ⟨inputs, hr, hsub.cons other, hlit, ?_⟩
        rw [List.forall_mem_cons]
        refine ⟨?_, hrest⟩
        obtain heq | hfalse := hother
        · exact Or.inl heq
        · exact Or.inr (Or.inl hfalse)
      split at h
      · next heq => exact hskip h (Or.inl heq)
      · next hne =>
          split at h
          · cases h
          · next hfalse => exact hskip h (Or.inr hfalse)
          · obtain ⟨inputs, hr, hsub, hlit, hrest⟩ := ih h
            refine ⟨other :: inputs, by simpa using hr, hsub.cons_cons other, ?_, ?_⟩
            · rw [List.mem_cons, not_or]
              exact ⟨Ne.symm hne, hlit⟩
            · rw [List.forall_mem_cons]
              refine ⟨Or.inr (Or.inr List.mem_cons_self), ?_⟩
              intro l hl
              exact (hrest l hl).imp_right (Or.imp_right (List.mem_cons_of_mem _))

/-- The literals of a watched clause have different variables. -/
theorem Connected.nodup_IDX (hs : s.Connected) {lit : Lit} {w : Watch} (hw : w ∈ s.watches lit)
    {ls : List Lit} (hls : ls.Nodup) (hsub : ∀ l ∈ ls, l ∈ s.watchToClause lit w) :
  (ls.map IDX).Nodup
  := by
  apply List.Nodup.map_on _ hls
  intro k hk l hl hkl
  obtain rfl | rfl := eq_or_eq_NOT hkl
  · rfl
  · exact absurd (hsub _ hk) (hs.not_taut lit w hw l (hsub l hl))

theorem matchLitsWatch_within {marks : Lit → Bool} {lit : Lit} {size : Nat} {w : Watch}
    {f : Flags} (h : (s.matchLitsWatch marks size w f).1 = true) :
  s.Within lit w (fun l => marks l = true)
  := by
  intro l hl hvar
  cases w with
  | binary other =>
      rw [matchLitsWatch] at h
      split at h
      · cases h
      · next hmark =>
          right
          obtain rfl | rfl | hl := List.mem_cons.mp hl |>.imp_right List.mem_cons.mp
          · exact absurd rfl hvar
          · simpa using hmark
          · cases hl
  | large ref =>
      rw [matchLitsWatch, matchLitsRef] at h
      split at h
      · cases h
      split at h
      · cases h
      · cases h
      · next found hdone => exact matchLiterals_done hdone l hl

/-! ### The inner loop -/

/-- A clause has been found for the literals with the signs `n`: the last bit, which is the
sign of `lit`, says among which watches. -/
def Matched (s : Solver) (lit : Lit) (inputs : List Lit) (x : XorState) (n : Nat) : Prop :=
  ∃ q ∈ x.xorted (n.testBit inputs.length), ∃ w,
    (s.watches (side lit (n.testBit inputs.length)))[q]? = some w
      ∧ s.Within (side lit (n.testBit inputs.length)) w (· ∈ signed n 0 (inputs ++ [lit]))

/-- The invariant of the inner loop when `k` signs have been matched beside the first. -/
structure XorInv (s : Solver) (lit : Lit) (inputs : List Lit) (k : Nat) (x : XorState) :
    Prop where
  signs : x.signs = evenNumber (inputs.length + 1) k
  marks : ∀ l, x.marks l = true ↔ l ∈ signed x.signs 0 (inputs ++ [lit])
  matched : ∀ j ≤ k, s.Matched lit inputs x (evenNumber (inputs.length + 1) j)
  count : (x.xorted false).length + (x.xorted true).length = k + 1

theorem signed_congr {m n i : Nat} {lits : List Lit}
    (h : ∀ j < lits.length, m.testBit (i + j) = n.testBit (i + j)) :
  signed m i lits = signed n i lits
  := by
  induction lits generalizing i with
  | nil => rfl
  | cons lit lits ih =>
      rw [signed, signed]
      congr 1
      · rw [show m.testBit i = n.testBit i from h 0 (by simp)]
      · apply ih
        intro j hj
        rw [Nat.add_right_comm, Nat.add_assoc]
        exact h (j + 1) (by simpa using hj)

/-- The mark of the last literal is its sign. -/
theorem last_mem_signed {n : Nat} {lit : Lit} {inputs : List Lit}
    (hnodup : ((inputs ++ [lit]).map IDX).Nodup) :
  lit ∈ signed n 0 (inputs ++ [lit]) ↔ n.testBit inputs.length = false
  := by
  rw [mem_signed]
  constructor
  · rintro ⟨j, k, hk, heq⟩
    have hj : j = inputs.length := by
      have hjlen := (List.getElem?_eq_some_iff.mp hk).1
      have hi : j < ((inputs ++ [lit]).map IDX).length := by simpa using hjlen
      have hlast : inputs.length < ((inputs ++ [lit]).map IDX).length := by simp
      have hvar : IDX lit = IDX k := (congrArg IDX heq).trans (IDX_side _ _)
      have hsame : ((inputs ++ [lit]).map IDX)[j] = ((inputs ++ [lit]).map IDX)[inputs.length] := by
        rw [List.getElem_map, List.getElem_map, List.getElem_concat_length rfl]
        exact (congrArg IDX (List.getElem?_eq_some_iff.mp hk).2).trans hvar.symm
      exact hnodup.getElem_inj_iff.mp hsame
    subst hj
    rw [List.getElem?_concat_length, Option.some.injEq] at hk
    subst hk
    rw [Nat.zero_add] at heq
    cases hbit : n.testBit inputs.length with
    | false => rfl
    | true =>
        rw [hbit] at heq
        exact absurd heq.symm (NOT_ne lit)
  · intro hbit
    refine ⟨inputs.length, lit, List.getElem?_concat_length, ?_⟩
    rw [Nat.zero_add, hbit, side_false]

theorem Matched.mono {lit : Lit} {inputs : List Lit} {x y : XorState} {n : Nat}
    (h : s.Matched lit inputs x n) (hxy : ∀ b, ∀ q ∈ x.xorted b, q ∈ y.xorted b) :
  s.Matched lit inputs y n
  := by
  obtain ⟨q, hq, w, hw, hwithin⟩ := h
  exact ⟨q, hxy _ q hq, w, hw, hwithin⟩

/-- At the end of the inner loop the marked literals are those of the current signs, and if as
many clauses have been found as there are signs of even parity, one has been found for each. -/
theorem xorLoop_spec {lit : Lit} {inputs : List Lit}
    (hnodup : ((inputs ++ [lit]).map IDX).Nodup) {fuel k : Nat} {x : XorState}
    (hx : s.XorInv lit inputs k x) (hk : k < 2 ^ inputs.length)
    (hfuel : 2 ^ inputs.length ≤ fuel + k) {y : XorState}
    (hy : s.xorLoop lit (inputs ++ [lit]) fuel x = y) :
  (∀ l, y.marks l = true ↔ l ∈ signed y.signs 0 (inputs ++ [lit]))
    ∧ (∀ b, ∀ q ∈ x.xorted b, q ∈ y.xorted b)
    ∧ ((y.xorted false).length + (y.xorted true).length = 2 ^ inputs.length →
      ∀ j < 2 ^ inputs.length, s.Matched lit inputs y (evenNumber (inputs.length + 1) j))
  := by
  have hlen : (inputs ++ [lit]).length = inputs.length + 1 := by simp
  induction fuel generalizing k x with
  | zero => omega
  | succ fuel ih =>
      -- without a further match all signs are matched only if these were the last ones
      have hcount : ∀ {z : XorState}, z.xorted = x.xorted →
          (z.xorted false).length + (z.xorted true).length = 2 ^ inputs.length →
          ∀ j < 2 ^ inputs.length,
            s.Matched lit inputs z (evenNumber (inputs.length + 1) j) := by
        intro z hz hlast j hj
        rw [hz, hx.count] at hlast
        apply (hx.matched j (by omega)).mono
        rw [hz]
        exact fun b q hq => hq
      rw [xorLoop] at hy
      split at hy
      swap
      · subst hy
        exact ⟨hx.marks, fun b q hq => hq, hcount rfl⟩
      rw [nextMarking, hlen, hx.signs, nextEven_evenNumber (Nat.succ_pos _)] at hy
      have hmarks := changeMarks_apply (P := fun _ => False)
        (evenNumber (inputs.length + 1) (k + 1)) hnodup (fun _ h => absurd h id)
        (fun l => by rw [hx.marks l, false_or])
      rw [hx.signs] at hmarks
      simp only [false_or] at hmarks
      dsimp only at hy
      obtain hlast | hmore : k + 1 = 2 ^ inputs.length ∨ k + 1 < 2 ^ inputs.length := by omega
      · rw [hlast] at hy hmarks
        rw [evenNumber_two_pow] at hmarks
        rw [evenNumber_two_pow, if_pos rfl, if_pos rfl] at hy
        subst hy
        refine ⟨?_, fun b q hq => hq, hcount rfl⟩
        intro l
        rw [hmarks]
        dsimp only
        rw [signed_congr]
        intro j hj
        rw [Nat.zero_add, Nat.zero_testBit, Nat.testBit_two_pow_of_ne (by omega)]
      · have hlt := evenNumber_lt hmore
        have hne : evenNumber (inputs.length + 1) (k + 1) ≠ 0 := by
          rw [evenNumber]
          omega
        rw [if_neg (Nat.ne_of_lt hlt), if_neg hne] at hy
        generalize evenNumber (inputs.length + 1) k = prev at *
        generalize hnext : evenNumber (inputs.length + 1) (k + 1) = next at *
        generalize changeMarks prev next 0 (inputs ++ [lit]) x.marks = marks at *
        have hbit : (!marks lit) = next.testBit inputs.length := by
          have h := (hmarks lit).trans (last_mem_signed hnodup)
          cases hm : marks lit <;> simp_all
        rw [hbit] at hy
        split at hy
        · subst hy
          exact ⟨hmarks, fun b q hq => hq, hcount rfl⟩
        · next q w hq =>
            obtain ⟨-, hget, f, hmatch⟩ := findWatch_some (Prod.ext hq rfl)
            have hgrow : ∀ b, ∀ p ∈ x.xorted b,
                p ∈ (if b = next.testBit inputs.length then x.xorted b ++ [q] else x.xorted b) := by
              intro b p hp
              split
              · exact List.mem_append_left _ hp
              · exact hp
            have hinv : s.XorInv lit inputs (k + 1) {
                signs := next
                marks := marks
                xorted := fun n =>
                  if n = next.testBit inputs.length then x.xorted n ++ [q] else x.xorted n
                steps := x.steps + stepsOf (s.watches (side lit (next.testBit inputs.length)))
                  (findWatch (s.matchLitsWatch marks (inputs.length + 1))
                    (s.watches (side lit (next.testBit inputs.length))) 0 x.flags).1
                flags := (findWatch (s.matchLitsWatch marks (inputs.length + 1))
                  (s.watches (side lit (next.testBit inputs.length))) 0 x.flags).2 } := by
              constructor
              · exact hnext.symm
              · exact hmarks
              · intro j hj
                obtain rfl | hj := Nat.eq_or_lt_of_le hj
                · rw [hnext]
                  refine ⟨q, by simp, w, by simpa using hget, ?_⟩
                  exact (matchLitsWatch_within hmatch).mono (fun l _ => (hmarks l).mp)
                · exact (hx.matched j (by omega)).mono hgrow
              · have hcount := hx.count
                cases next.testBit inputs.length <;>
                  simp only [Bool.false_eq_true, Bool.true_eq_false, if_true, if_false,
                    List.length_append, List.length_singleton] <;> omega
            obtain ⟨hymarks, hyx, hall⟩ := ih hinv hmore (by omega) hy
            exact ⟨hymarks, fun b p hp => hyx b p (hgrow b p hp), hall⟩

/-- The inner loop ends within the rounds it is given. -/
theorem xorLoop_add_fuel {lit : Lit} {inputs : List Lit} {fuel k : Nat} {x : XorState}
    (hx : x.signs = evenNumber (inputs.length + 1) k) (hk : k < 2 ^ inputs.length)
    (hfuel : 2 ^ inputs.length ≤ fuel + k) (more : Nat) :
  s.xorLoop lit (inputs ++ [lit]) (fuel + more) x = s.xorLoop lit (inputs ++ [lit]) fuel x
  := by
  have hlen : (inputs ++ [lit]).length = inputs.length + 1 := by simp
  induction fuel generalizing k x with
  | zero => omega
  | succ fuel ih =>
      rw [Nat.add_right_comm, xorLoop, xorLoop, nextMarking, hlen, hx,
        nextEven_evenNumber (Nat.succ_pos _)]
      split
      swap
      · rfl
      obtain hlast | hmore : k + 1 = 2 ^ inputs.length ∨ k + 1 < 2 ^ inputs.length := by omega
      · rw [hlast, evenNumber_two_pow, if_pos rfl]
        rfl
      · rw [if_neg (Nat.ne_of_lt (evenNumber_lt hmore))]
        dsimp only
        split
        · rfl
        split
        · rfl
        · exact ih rfl hmore (by omega)

/-! ### The gate -/

theorem mem_dropRepeated (prev : Option Nat) (ps : List Nat) (q : Nat) :
  (q ∈ dropRepeated prev ps ∨ prev = some q) ↔ (q ∈ ps ∨ prev = some q)
  := by
  induction ps generalizing prev with
  | nil => rfl
  | cons p ps ih =>
      have hp := ih (some p)
      rw [dropRepeated, List.mem_cons]
      rw [Option.some.injEq] at hp
      split
      · next hprev => grind
      · grind

theorem mem_xorSide {watches : List Watch} {xorted : List Nat} {w : Watch} :
  w ∈ xorSide watches xorted ↔ ∃ q ∈ xorted, watches[q]? = some w
  := by
  rw [xorSide, List.mem_filterMap]
  apply exists_congr
  intro q
  have h := mem_dropRepeated none (xorted.insertionSort (· ≤ ·)) q
  simp only [reduceCtorEq, or_false] at h
  rw [h, List.mem_insertionSort]

/-- If a clause has been found for all signs, then each assignment falsifies one of them
apart from the literal. -/
theorem xor_refuted {lit : Lit} {inputs : List Lit} {x : XorState}
    (hall : ∀ j < 2 ^ inputs.length, s.Matched lit inputs x (evenNumber (inputs.length + 1) j))
    {σ : Assignment Nat} (hσ : s.Extends σ)
    (hsat : ∀ b, ∀ w ∈ xorSide (s.watches (side lit b)) (x.xorted b),
      Clause.SatOff σ (IDX lit) (s.watchToClause (side lit b) w)) :
  False
  := by
  obtain ⟨n, hn, hparity, hbits⟩ :=
    exists_even_testBit inputs.length (fun i => σ.value (inputs.getD i lit))
  have hmatched := hall (n / 2) (by rw [Nat.pow_succ] at hn; omega)
  rw [evenNumber_div_two (Nat.succ_pos _) hparity] at hmatched
  obtain ⟨q, hq, w, hw, hwithin⟩ := hmatched
  have hsatw := hsat _ w (mem_xorSide.mpr ⟨q, hq, hw⟩)
  rw [← IDX_side lit (n.testBit inputs.length)] at hsatw
  obtain ⟨l, hl, hvar, hval⟩ := hwithin.exists_true hσ hsatw
  obtain ⟨j, k, hk, rfl⟩ := mem_signed.mp hl
  obtain hj | hj := Nat.lt_or_ge j inputs.length
  · rw [List.getElem?_append_left hj, List.getElem?_eq_getElem hj, Option.some.injEq] at hk
    have hbit := hbits j hj
    rw [List.getD_eq_getElem _ _ hj, hk] at hbit
    rw [Nat.zero_add, hbit, value_side, Bool.xor_self] at hval
    cases hval
  · rw [List.getElem?_append_right hj] at hk
    obtain rfl := List.mem_singleton.mp (List.mem_of_getElem? hk)
    rw [IDX_side, IDX_side] at hvar
    exact hvar rfl

/-- Among the clauses for all signs are some of the literal and some of its complement. -/
theorem xorSide_ne_nil {lit : Lit} {inputs : List Lit} (hpos : 0 < inputs.length) {x : XorState}
    (hall : ∀ j < 2 ^ inputs.length, s.Matched lit inputs x (evenNumber (inputs.length + 1) j))
    (b : Bool) :
  xorSide (s.watches (side lit b)) (x.xorted b) ≠ []
  := by
  have hbit : ∃ j < 2 ^ inputs.length,
      (evenNumber (inputs.length + 1) j).testBit inputs.length = b := by
    cases b with
    | false =>
        use 0, Nat.two_pow_pos _
        rw [evenNumber_zero (Nat.succ_pos _), Nat.zero_testBit]
    | true =>
        obtain ⟨n, hn, hparity, hbit⟩ := exists_even_testBit_last hpos
        refine ⟨n / 2, by rw [Nat.pow_succ] at hn; omega, ?_⟩
        rw [evenNumber_div_two (Nat.succ_pos _) hparity, hbit]
  obtain ⟨j, hj, rfl⟩ := hbit
  obtain ⟨q, hq, w, hw, -⟩ := hall j hj
  exact List.ne_nil_of_mem (mem_xorSide.mpr ⟨q, hq, hw⟩)

/-- The state before the inner loop satisfies its invariant. -/
theorem xorStart_inv {lit : Lit} {ref p steps : Nat} {inputs : List Lit} {t : Solver}
    (hunmarked : t.Unmarked) (hp : (s.watches lit)[p]? = some (.large ref))
    (hinputs : ∀ l ∈ s.arena ref, l = lit ∨ s.value l = some false ∨ l ∈ inputs) :
  s.XorInv lit inputs 0 (xorStart (inputs ++ [lit]) p steps t)
  := by
  have hzero := evenNumber_zero (Nat.succ_pos inputs.length)
  constructor
  · exact hzero.symm
  · intro l
    rw [xorStart, markLiterals_apply, hunmarked]
    simp
  · intro j hj
    rw [Nat.le_zero.mp hj, hzero]
    refine ⟨p, by simp [xorStart], .large ref, by simpa [side] using hp, ?_⟩
    intro l hl hvar
    obtain rfl | hfalse | hmem := hinputs l hl
    · simp [side] at hvar
    · exact Or.inl hfalse
    · right
      obtain ⟨j, hj⟩ := List.mem_iff_getElem?.mp (List.mem_append_left [lit] hmem)
      exact mem_signed.mpr ⟨j, l, hj, by simp [side]⟩
  · simp [xorStart]

/-- After a candidate no literal is marked, and either nothing has been pushed or a gate has
been found. -/
theorem xorFinish_spec (hs : s.Connected) (hgates : s.NoGates) {lit : Lit} {negative : Bool}
    {ref p : Nat} (steps : Nat) {lits : List Lit} {t t' : Solver} (hsame : Same s t)
    (hunmarked : t.Unmarked) (ht : t.gates = s.gates)
    (hp : (s.watches (side lit negative))[p]? = some (.large ref))
    (hcopy : s.copyLiterals (side lit negative) (s.arena ref) [] = .done lits)
    (hsize : 3 ≤ lits.length)
    (h : s.xorFinish (side lit negative) negative lits (s.xorLoop (side lit negative) lits
      (2 ^ (lits.length - 1)) (xorStart lits p steps t)) t = t') :
  Same s t' ∧ t'.printed = t.printed ∧ t'.Unmarked
    ∧ (t'.gates = s.gates ∨ t'.gates false ≠ [] ∧ Found s lit t'.gates)
  := by
  obtain ⟨inputs, hlits, hsub, hnot, hinputs⟩ := copyLiterals_done hcopy
  rw [List.nil_append] at hlits
  subst hlits
  have hmem := List.mem_of_getElem? hp
  have hclause := hs.mem _ _ hmem
  have hnodup : ((inputs ++ [side lit negative]).map IDX).Nodup := by
    apply hs.nodup_IDX hmem
    · rw [List.nodup_append]
      refine ⟨(hs.nodup _ _ hmem).sublist hsub, List.nodup_singleton _, ?_⟩
      rintro a ha b hb rfl
      rw [List.mem_singleton.mp hb] at ha
      exact hnot ha
    · intro l hl
      rw [List.mem_append, List.mem_singleton] at hl
      obtain hl | rfl := hl
      · exact hsub.subset hl
      · exact hclause
  have hlen : (inputs ++ [side lit negative]).length - 1 = inputs.length := by simp
  rw [hlen] at h
  obtain ⟨hmarks, -, hall⟩ := xorLoop_spec hnodup (xorStart_inv hunmarked hp hinputs)
    (Nat.two_pow_pos _) (Nat.le_refl _) rfl
  generalize s.xorLoop _ _ _ _ = x at h hmarks hall
  have hclean : ∀ l, unmarkLiterals x.signs 0 (inputs ++ [side lit negative]) x.marks l
      = false := by
    intro l
    rw [Bool.eq_false_iff]
    intro hl
    obtain ⟨hl, hnl⟩ := unmarkLiterals_apply.mp hl
    exact hnl ((hmarks l).mp hl)
  rw [xorFinish, hlen] at h
  dsimp only at h
  split at h
  · next hcount =>
      have hfound := hall hcount
      have hpush : ∀ n w, w ∈ t'.gates n ↔ w ∈ xorSide (s.watches (side lit n))
          (x.xorted (negative ^^ n)) := by
        intro n w
        subst h
        have hn := hgates n
        cases negative <;> cases n <;> simp [mem_pushGates, ht, hn, side]
      have hside : ∀ n, xorSide (s.watches (side lit n)) (x.xorted (negative ^^ n)) ≠ [] := by
        intro n
        rw [List.length_append, List.length_singleton] at hsize
        have hne := xorSide_ne_nil (by omega) hfound (negative ^^ n)
        rwa [side_side, ← Bool.xor_assoc, Bool.xor_self, Bool.false_xor] at hne
      have hsame' : Same s t' := by
        subst h
        exact ⟨hsame.options, hsame.arena, hsame.watches, hsame.values⟩
      have hprinted : t'.printed = t.printed := by
        subst h
        rfl
      have hunmarked' : t'.Unmarked := by
        subst h
        exact hclean
      refine ⟨hsame', hprinted, hunmarked', Or.inr ⟨?_, ?_, ?_⟩⟩
      · obtain ⟨w, hw⟩ := List.exists_mem_of_ne_nil _ (hside false)
        exact List.ne_nil_of_mem ((hpush false w).mpr hw)
      · intro n w hw
        obtain ⟨q, -, hget⟩ := mem_xorSide.mp ((hpush n w).mp hw)
        exact List.mem_of_getElem? hget
      · intro σ hσ hsat
        apply xor_refuted hfound hσ
        intro b w hw
        rw [IDX_side, side_side]
        apply hsat
        rw [side_side] at hw
        rw [hpush, ← Bool.xor_assoc, Bool.xor_self, Bool.false_xor]
        exact hw
  · subst h
    exact ⟨⟨hsame.options, hsame.arena, hsame.watches, hsame.values⟩, rfl, hclean, Or.inl ht⟩

theorem xorGate_extracted (hs : s.Connected) (hgates : s.NoGates) {lit : Lit} {negative : Bool}
    {ws : List Watch} {p steps : Nat} {t : Solver}
    (hws : ∀ i w, ws[i]? = some w → (s.watches (side lit negative))[p + i]? = some w)
    (hsame : Same s t) (hprinted : t.printed = s.printed) (hunmarked : t.Unmarked)
    (ht : t.gates = s.gates) :
  Extracted s lit (s.xorGate (side lit negative) negative ws p steps t)
  := by
  have hfail : Extracted s lit (false, t) :=
    ⟨hsame, hprinted, hunmarked, fun _ => ht, fun h => by cases h⟩
  induction ws generalizing p steps t with
  | nil => exact hfail
  | cons w ws ih =>
      have hrest : ∀ i v, ws[i]? = some v →
          (s.watches (side lit negative))[p + 1 + i]? = some v := by
        intro i v hv
        rw [Nat.add_right_comm, Nat.add_assoc]
        exact hws (i + 1) v hv
      have hnext : ∀ steps, Extracted s lit
          (s.xorGate (side lit negative) negative ws (p + 1) steps t) :=
        fun steps => ih hrest hsame hprinted hunmarked ht hfail
      cases w with
      | binary other => exact hnext steps
      | large ref =>
          rw [xorGate]
          split
          · exact hfail
          split
          · exact hfail
          dsimp only
          split
          · exact hnext _
          split
          · exact hnext _
          split
          · exact hnext _
          · have hsame' : Same s { t with flags := t.flags.eliminateClause ref } :=
              ⟨hsame.options, hsame.arena, hsame.watches, hsame.values⟩
            exact ih hrest hsame' hprinted hunmarked ht
              ⟨hsame', hprinted, hunmarked, fun _ => ht, fun h => by cases h⟩
          · next lits hcopy =>
              split
              · exact hnext _
              · next hsize =>
                  have hspec := xorFinish_spec hs hgates (steps + 1) hsame hunmarked ht
                    (hws 0 _ rfl) hcopy (Nat.le_of_not_lt hsize) rfl
                  rw [Nat.add_zero] at hspec
                  generalize s.xorFinish _ _ _ _ _ = t' at hspec ⊢
                  obtain ⟨hsame', hprinted', hunmarked', hpushed⟩ := hspec
                  have hprinted' := hprinted'.trans hprinted
                  split
                  · next hnil =>
                      obtain ht' | ⟨hne, -⟩ := hpushed
                      · exact ih hrest hsame' hprinted' hunmarked' ht'
                          ⟨hsame', hprinted', hunmarked', fun _ => ht', fun h => by cases h⟩
                      · exact absurd hnil hne
                  · next hne =>
                      obtain ht' | ⟨-, hfound⟩ := hpushed
                      · rw [ht', hgates] at hne
                        exact absurd rfl hne
                      · exact ⟨hsame', hprinted', hunmarked', (by simp), fun _ _ => hfound⟩

/-- The clauses for all signs of even parity define the literal. -/
theorem findXorGate_extracted (hs : s.Connected) (hunmarked : s.Unmarked)
    (hgates : s.NoGates) (lit : Lit) (negative : Bool) :
  Extracted s lit (s.kissatFindXorGate (side lit negative) negative)
  := by
  have hfail : Extracted s lit (false, s) :=
    ⟨Same.refl s, rfl, hunmarked, fun _ => rfl, fun h => by cases h⟩
  rw [kissatFindXorGate]
  repeat' split
  · exact hfail
  · exact hfail
  · exact hfail
  · exact hfail
  · exact hfail
  · apply xorGate_extracted hs hgates _ (Same.refl s) rfl hunmarked rfl
    intro i w hw
    rwa [Nat.zero_add]

end Solver

end Kissat
