import IgnoreGates.Cadical.Eliminate
import IgnoreGates.Logic.Weakening

/-!
# The extension stack

The removed clauses are kept in one array of external literals: a zero, the witness, a zero and
the clause, one entry after the other.  `extend` and the traversals read this array, and see the
entries that have been pushed.
-/

namespace Cadical

open Logic

namespace External

/-- The array with the given entries. -/
def flatten (E : List Entry) : List Int :=
  E.flatMap (fun e => 0 :: e.witness.map Lit.int ++ 0 :: e.clause.map Lit.int)

/-! ### Pushing -/

/-- The array, and the literals that are marked in `witness` and in `tainted`. -/
structure Extension where
  extension : List Int
  witness : Finset Int
  tainted : Finset Int
  deriving DecidableEq

namespace Extension

variable (s : Extension)

def pushZeroOnExtensionStack : Extension :=
  { s with extension := s.extension ++ [0] }

def pushClauseLiteralOnExtensionStack (elit : Lit) : Extension :=
  { s with extension := s.extension ++ [elit.int] }

def pushWitnessLiteralOnExtensionStack (elit : Lit) : Extension :=
  { s with extension := s.extension ++ [elit.int], witness := insert elit.int s.witness }

/-- `push_clause_on_extension_stack` without a witness. -/
def pushClauseOnExtensionStack (c : List Lit) : Extension :=
  c.foldl pushClauseLiteralOnExtensionStack s.pushZeroOnExtensionStack

/-- `push_clause_on_extension_stack` with the pivot as witness. -/
def pushClauseWithPivotOnExtensionStack (c : List Lit) (pivot : Lit) : Extension :=
  (s.pushZeroOnExtensionStack.pushWitnessLiteralOnExtensionStack
    pivot).pushClauseOnExtensionStack c

def pushBinaryClauseOnExtensionStack (pivot other : Lit) : Extension :=
  ((s.pushZeroOnExtensionStack.pushWitnessLiteralOnExtensionStack
    pivot).pushZeroOnExtensionStack.pushClauseLiteralOnExtensionStack
    pivot).pushClauseLiteralOnExtensionStack other

/-- The witness is pushed literal by literal, and the clause behind it. -/
def pushClauseAndWitness (c w : List Lit) : Extension :=
  (w.foldl pushWitnessLiteralOnExtensionStack
    s.pushZeroOnExtensionStack).pushClauseOnExtensionStack c

end Extension

/-! ### Extending -/

/-- `ival`: a positive number for a true literal, a negative one for a false literal. -/
def ival (maxVar : Nat) (vals : Nat → Bool) (elit : Int) : Int :=
  let res : Int :=
    if maxVar < elit.natAbs then -1
    else if vals elit.natAbs then elit.natAbs
    else -elit.natAbs
  if elit < 0 then -res else res

/-- The values of the internal solver are taken over. -/
def mapVals (maxVar : Nat) (e2i : Nat → Int) (val : Int → Int) (vals : Nat → Bool) (i : Nat) :
    Bool :=
  if i = 0 ∨ maxVar < i ∨ e2i i = 0 then vals i else decide (0 < val (e2i i))

/-- The clause is read backward, and it is found whether it is satisfied; `none` when the
beginning of the array is passed. -/
def clauseLoop (maxVar : Nat) (vals : Nat → Bool) : List Int → Bool → Option (Bool × List Int)
  | [], _ => none
  | lit :: i, satisfied =>
      if lit = 0 then some (satisfied, i)
      else clauseLoop maxVar vals i (satisfied || 0 < ival maxVar vals lit)

/-- The witness is skipped. -/
def skipLoop : List Int → Option (List Int)
  | [] => none
  | lit :: i => if lit = 0 then some i else skipLoop i

/-- The false literals of the witness are flipped. -/
def flipLoop (maxVar : Nat) : List Int → (Nat → Bool) → Option ((Nat → Bool) × List Int)
  | [], _ => none
  | lit :: i, vals =>
      if lit = 0 then some (vals, i)
      else if ival maxVar vals lit < 0 then
        flipLoop maxVar i (Function.update vals lit.natAbs (!vals lit.natAbs))
      else flipLoop maxVar i vals

/-- The array is read backward, for a bounded number of entries. -/
def extendLoop (maxVar : Nat) : Nat → List Int → (Nat → Bool) → Option (Nat → Bool)
  | 0, _, _ => none
  | n + 1, i, vals =>
      if i = [] then some vals
      else
        match clauseLoop maxVar vals i false with
        | none => none
        | some (true, i) =>
            match skipLoop i with
            | none => none
            | some i => extendLoop maxVar n i vals
        | some (false, i) =>
            match flipLoop maxVar i vals with
            | none => none
            | some (vals, i) => extendLoop maxVar n i vals

/-- `External::extend` -/
def extendStack (maxVar : Nat) (e2i : Nat → Int) (val : Int → Int) (vals : Nat → Bool)
    (extension : List Int) : Option (Nat → Bool) :=
  extendLoop maxVar (extension.length + 1) extension.reverse (mapVals maxVar e2i val vals)

/-! ### Traversing -/

/-- The literals before the next zero, and what is behind it. -/
def readUntil : List Int → List Int × Option (List Int)
  | [] => ([], none)
  | lit :: i =>
      if lit = 0 then ([], some i)
      else
        let (l, i) := readUntil i
        (lit :: l, i)

variable {S : Type}

/-- The loop of `traverse_witnesses_forward`, behind the zero of an entry. -/
def forwardLoop (it : S → List Int → List Int → S × Bool) : Nat → List Int → S → Option (S × Bool)
  | 0, _, _ => none
  | n + 1, i, st =>
      match readUntil i with
      | (_, none) => none
      | (witness, some i) =>
          let (clause, i) := readUntil i
          match it st clause witness with
          | (st, false) => some (st, false)
          | (st, true) =>
              match i with
              | none => some (st, true)
              | some i => if i = [] then some (st, true) else forwardLoop it n i st

def traverseWitnessesForward (unsat : Bool) (it : S → List Int → List Int → S × Bool)
    (extension : List Int) (st : S) : Option (S × Bool) :=
  if unsat then some (st, true)
  else
    match extension with
    | [] => some (st, true)
    | _ :: i => forwardLoop it extension.length i st

/-- The loop of `traverse_witnesses_backward`. -/
def backwardLoop (it : S → List Int → List Int → S × Bool) : Nat → List Int → S → Option (S × Bool)
  | 0, _, _ => none
  | n + 1, i, st =>
      if i = [] then some (st, true)
      else
        match readUntil i with
        | (_, none) => none
        | (clause, some i) =>
            match readUntil i with
            | (_, none) => none
            | (witness, some i) =>
                match it st clause.reverse witness.reverse with
                | (st, false) => some (st, false)
                | (st, true) => backwardLoop it n i st

def traverseWitnessesBackward (unsat : Bool) (it : S → List Int → List Int → S × Bool)
    (extension : List Int) (st : S) : Option (S × Bool) :=
  if unsat then some (st, true)
  else backwardLoop it (extension.length + 1) extension.reverse st

/-- The iterator visits the entries in turn, until it stops. -/
def visitEntries (it : S → List Int → List Int → S × Bool) : S → List Entry → S × Bool
  | st, [] => (st, true)
  | st, e :: E =>
      match it st (e.clause.map Lit.int) (e.witness.map Lit.int) with
      | (st, false) => (st, false)
      | (st, true) => visitEntries it st E

/-! ### The entries that have been pushed -/

/-- The array of entries behind entries. -/
theorem flatten_append (E E' : List Entry) :
  flatten (E ++ E') = flatten E ++ flatten E'
  := List.flatMap_append

/-- An entry stands in the array as its witness and its clause, each behind a zero. -/
theorem flatten_cons (e : Entry) (E : List Entry) :
  flatten (e :: E) = 0 :: (e.witness.map Lit.int ++ 0 :: (e.clause.map Lit.int ++ flatten E))
  := by
  rw [flatten, List.flatMap_cons, List.cons_append, List.cons_append, List.append_assoc,
    List.cons_append]
  rfl

/-- Read from its end, the array begins with the clause of the last entry. -/
theorem flatten_concat (E : List Entry) (e : Entry) :
  (flatten (E ++ [e])).reverse = (e.clause.map Lit.int).reverse
    ++ 0 :: ((e.witness.map Lit.int).reverse ++ 0 :: (flatten E).reverse)
  := by
  rw [flatten_append, flatten_cons]
  simp [flatten]

namespace Extension

/-- The array has the entries, and their witness literals are marked. -/
structure Has (s : Extension) (E : List Entry) : Prop where
  extension : s.extension = flatten E
  witness : ∀ e ∈ E, ∀ l ∈ e.witness, l.int ∈ s.witness

variable {s : Extension} {E : List Entry}

/-- The literals of a clause are pushed one behind the other. -/
theorem foldl_push_clause (s : Extension) (c : List Lit) :
  c.foldl pushClauseLiteralOnExtensionStack s
    = { s with extension := s.extension ++ c.map Lit.int }
  := by
  induction c generalizing s with
  | nil => rw [List.map_nil, List.append_nil, List.foldl_nil]
  | cons l c ih =>
      rw [List.foldl_cons, ih, pushClauseLiteralOnExtensionStack, List.map_cons,
        List.append_assoc, List.singleton_append]

/-- The literals of a witness are pushed one behind the other, and all of them are marked as witness
literals. -/
theorem foldl_push_witness (s : Extension) (w : List Lit) :
  (w.foldl pushWitnessLiteralOnExtensionStack s).extension = s.extension ++ w.map Lit.int
    ∧ (w.foldl pushWitnessLiteralOnExtensionStack s).tainted = s.tainted
    ∧ (∀ v ∈ (w.foldl pushWitnessLiteralOnExtensionStack s).witness,
      v ∈ s.witness ∨ ∃ l ∈ w, l.int = v)
    ∧ s.witness ⊆ (w.foldl pushWitnessLiteralOnExtensionStack s).witness
    ∧ ∀ l ∈ w, l.int ∈ (w.foldl pushWitnessLiteralOnExtensionStack s).witness
  := by
  induction w generalizing s with
  | nil => exact ⟨by simp, rfl, fun _ hv => Or.inl hv, fun _ => id, nofun⟩
  | cons l w ih =>
      obtain ⟨hextension, htainted, honly, hsub, hall⟩ :=
        ih (s.pushWitnessLiteralOnExtensionStack l)
      rw [List.foldl_cons]
      refine ⟨?_, htainted, ?_, fun v hv => hsub (Finset.mem_insert_of_mem hv),
        List.forall_mem_cons.mpr ⟨?_, hall⟩⟩
      · rw [hextension, pushWitnessLiteralOnExtensionStack, List.map_cons, List.append_assoc,
          List.singleton_append]
      · intro v hv
        obtain hv | ⟨k, hk, hkv⟩ := honly v hv
        · obtain rfl | hv := Finset.mem_insert.mp hv
          · exact Or.inr ⟨l, List.mem_cons_self, rfl⟩
          · exact Or.inl hv
        · exact Or.inr ⟨k, List.mem_cons_of_mem l hk, hkv⟩
      · exact hsub (Finset.mem_insert_self _ _)

/-- Pushing a clause with its witness adds an entry at the end, and marks only its witness. -/
theorem Has.pushClauseAndWitness (h : s.Has E) (c w : List Lit) :
  (s.pushClauseAndWitness c w).Has (E ++ [⟨w, c⟩])
    ∧ (s.pushClauseAndWitness c w).tainted = s.tainted
    ∧ ∀ v ∈ (s.pushClauseAndWitness c w).witness, v ∈ s.witness ∨ ∃ l ∈ w, l.int = v
  := by
  obtain ⟨hextension, htainted, honly, hsub, hall⟩ :=
    foldl_push_witness s.pushZeroOnExtensionStack w
  rw [Extension.pushClauseAndWitness, pushClauseOnExtensionStack, foldl_push_clause]
  refine ⟨⟨?_, ?_⟩, htainted, honly⟩
  · change (w.foldl pushWitnessLiteralOnExtensionStack
      s.pushZeroOnExtensionStack).extension ++ [0] ++ c.map Lit.int = _
    rw [hextension, pushZeroOnExtensionStack, h.extension, flatten_append]
    simp [flatten]
  · intro e he l hl
    obtain he | he := List.mem_append.mp he
    · exact hsub (h.witness e he l hl)
    · rw [List.mem_singleton.mp he] at hl
      exact hall l hl

end Extension

/-- Every way to push a clause pushes it together with its witness. -/
theorem push_clause_eq (s : Extension) (c : List Lit) (pivot other : Lit) :
  s.pushClauseWithPivotOnExtensionStack c pivot = s.pushClauseAndWitness c [pivot]
    ∧ s.pushBinaryClauseOnExtensionStack pivot other
      = s.pushClauseAndWitness [pivot, other] [pivot]
  := ⟨rfl, rfl⟩

/-! ### Extending -/

/-- The literals of the entries are not above `max_var`. -/
def Below (maxVar : Nat) (E : List Entry) : Prop :=
  ∀ e ∈ E, (∀ l ∈ e.witness, l.vidx ≤ maxVar) ∧ ∀ l ∈ e.clause, l.vidx ≤ maxVar

/-- The value of a literal, as the signed literal that `ival` returns. -/
theorem ival_eq {maxVar : Nat} {l : Lit} (hl : l.vidx ≤ maxVar) (vals : Nat → Bool) :
  ival maxVar vals l.int = if Assignment.value vals l then (l.vidx : Int) else -l.vidx
  := by
  have hvalue : Assignment.value vals l = (vals l.vidx ^^ decide (l.int < 0)) := rfl
  have hnat : l.int.natAbs = l.vidx := rfl
  rw [hvalue, ival, hnat, if_neg (Nat.not_lt.mpr hl)]
  cases vals l.vidx with
  | true => by_cases h : l.int < 0 <;> simp [h]
  | false => by_cases h : l.int < 0 <;> simp [h]

theorem ival_pos_iff {maxVar : Nat} {l : Lit} (hl : l.vidx ≤ maxVar) (vals : Nat → Bool) :
  0 < ival maxVar vals l.int ↔ Assignment.value vals l = true
  := by
  have hpos : 0 < l.vidx := Int.natAbs_pos.mpr l.ne_zero
  rw [ival_eq hl]
  cases Assignment.value vals l with
  | true => simp [hpos]
  | false => simp

theorem ival_neg_iff {maxVar : Nat} {l : Lit} (hl : l.vidx ≤ maxVar) (vals : Nat → Bool) :
  ival maxVar vals l.int < 0 ↔ Assignment.value vals l = false
  := by
  have hpos : 0 < l.vidx := Int.natAbs_pos.mpr l.ne_zero
  rw [ival_eq hl]
  cases Assignment.value vals l with
  | true => simp
  | false => simp [hpos]

/-- The loop over a clause stops in front of the zero and finds whether the clause is satisfied. -/
theorem clauseLoop_append {maxVar : Nat} (vals : Nat → Bool) {c : List Lit}
    (hc : ∀ l ∈ c, l.vidx ≤ maxVar) (satisfied : Bool) (i : List Int) :
  clauseLoop maxVar vals (c.map Lit.int ++ 0 :: i) satisfied
    = some (satisfied || decide (Clause.Sat vals c), i)
  := by
  induction c generalizing satisfied with
  | nil => simp [clauseLoop, Clause.Sat]
  | cons l c ih =>
      obtain ⟨hl, hc⟩ := List.forall_mem_cons.mp hc
      rw [List.map_cons, List.cons_append, clauseLoop, if_neg l.ne_zero, ih hc, Bool.or_assoc]
      have hsat : Clause.Sat vals (l :: c) ↔ Assignment.value vals l = true ∨ Clause.Sat vals c := by
        simp [Clause.Sat]
      congr 3
      rw [Bool.eq_iff_iff, Bool.or_eq_true, decide_eq_true_eq, decide_eq_true_eq, decide_eq_true_eq,
        ival_pos_iff hl, hsat]

/-- The witness of a clause that is satisfied is skipped. -/
theorem skipLoop_append (w : List Lit) (i : List Int) :
  skipLoop (w.map Lit.int ++ 0 :: i) = some i
  := by
  induction w with
  | nil => rfl
  | cons l w ih => rw [List.map_cons, List.cons_append, skipLoop, if_neg l.ne_zero, ih]

/-- The literals of the witness are flipped one by one. -/
theorem flipLoop_append {maxVar : Nat} (vals : Nat → Bool) {w : List Lit}
    (hw : ∀ l ∈ w, l.vidx ≤ maxVar) (i : List Int) :
  flipLoop maxVar (w.map Lit.int ++ 0 :: i) vals
    = some (w.foldl (fun vals l => flip vals l) vals, i)
  := by
  induction w generalizing vals with
  | nil => rfl
  | cons l w ih =>
      obtain ⟨hl, hw⟩ := List.forall_mem_cons.mp hw
      rw [List.map_cons, List.cons_append, flipLoop, if_neg l.ne_zero, List.foldl_cons, flip]
      split
      · next hneg =>
          rw [(ival_neg_iff hl vals).mp hneg, ih _ hw]
          rfl
      · next hneg =>
          rw [ival_neg_iff hl, Bool.not_eq_false] at hneg
          rw [hneg, ih _ hw, if_pos rfl]

/-- Reading the array backward processes the entries from the last one on. -/
theorem extendLoop_flatten {maxVar : Nat} {E : List Entry} (hE : Below maxVar E) {n : Nat}
    (hn : E.length < n) (vals : Nat → Bool) :
  extendLoop maxVar n (flatten E).reverse vals = some (External.extend E vals)
  := by
  induction E using List.reverseRecOn generalizing n vals with
  | nil =>
      obtain ⟨n, rfl⟩ := Nat.exists_eq_succ_of_ne_zero (Nat.ne_of_gt hn)
      rfl
  | append_singleton E e ih =>
      obtain ⟨n, rfl⟩ := Nat.exists_eq_succ_of_ne_zero (Nat.ne_of_gt (Nat.zero_lt_of_lt hn))
      obtain ⟨hw, hc⟩ := hE e (List.mem_append_right _ (List.mem_singleton_self e))
      have hE' : Below maxVar E := fun d hd => hE d (List.mem_append_left _ hd)
      rw [List.length_append, List.length_singleton] at hn
      rw [extendLoop, flatten_concat, if_neg (by simp), ← List.map_reverse,
        clauseLoop_append vals (fun l hl => hc l (List.mem_reverse.mp hl)), Bool.false_or]
      have hsat : Clause.Sat vals e.clause.reverse ↔ Clause.Sat vals e.clause := by
        simp [Clause.Sat]
      rw [External.extend, List.foldr_append, List.foldr_cons, List.foldr_nil, extendEntry]
      by_cases h : Clause.Sat vals e.clause
      · rw [decide_eq_true (hsat.mpr h), if_pos h]
        simp only
        rw [← List.map_reverse, skipLoop_append]
        exact ih hE' (by omega) vals
      · rw [decide_eq_false (fun h' => h (hsat.mp h')), if_neg h]
        simp only
        rw [← List.map_reverse, flipLoop_append vals (fun l hl => hw l (List.mem_reverse.mp hl)),
          List.foldl_reverse]
        exact ih hE' (by omega) _

/-- An entry takes at least one place of the array. -/
theorem length_le_flatten (E : List Entry) :
  E.length ≤ (flatten E).length
  := by
  induction E with
  | nil => exact Nat.le_refl 0
  | cons e E ih =>
      rw [flatten_cons]
      simp only [List.length_cons, List.length_append]
      omega

/-- `extend` never reads before the beginning of the array, and it extends the values of the
internal solver by the entries that have been pushed. -/
theorem extendStack_flatten {maxVar : Nat} {E : List Entry} (hE : Below maxVar E)
    (e2i : Nat → Int) (val : Int → Int) (vals : Nat → Bool) :
  extendStack maxVar e2i val vals (flatten E)
    = some (External.extend E (mapVals maxVar e2i val vals))
  := extendLoop_flatten hE (Nat.lt_succ_of_le (length_le_flatten E)) _

/-! ### Traversing -/

/-- The literals are read up to the zero. -/
theorem readUntil_append (l : List Lit) (i : List Int) :
  readUntil (l.map Lit.int ++ 0 :: i) = (l.map Lit.int, some i)
  := by
  induction l with
  | nil => rfl
  | cons k l ih => rw [List.map_cons, List.cons_append, readUntil, if_neg k.ne_zero, ih]

/-- Without a zero, the literals are read to the end. -/
theorem readUntil_map (l : List Lit) :
  readUntil (l.map Lit.int) = (l.map Lit.int, none)
  := by
  induction l with
  | nil => rfl
  | cons k l ih => rw [List.map_cons, readUntil, if_neg k.ne_zero, ih]

/-- The forward traversal visits the entries from the first to the last. -/
theorem forwardLoop_flatten (it : S → List Int → List Int → S × Bool) (e : Entry) (E : List Entry)
    {n : Nat} (hn : E.length < n) (st : S) :
  forwardLoop it n (e.witness.map Lit.int ++ 0 :: (e.clause.map Lit.int ++ flatten E)) st
    = some (visitEntries it st (e :: E))
  := by
  induction E generalizing n e st with
  | nil =>
      obtain ⟨n, rfl⟩ := Nat.exists_eq_succ_of_ne_zero (Nat.ne_of_gt hn)
      rw [forwardLoop, readUntil_append, visitEntries]
      simp only [flatten, List.flatMap_nil, List.append_nil, readUntil_map]
      cases h : it st (e.clause.map Lit.int) (e.witness.map Lit.int) with
      | mk st' b => cases b <;> rfl
  | cons e' E ih =>
      obtain ⟨n, rfl⟩ := Nat.exists_eq_succ_of_ne_zero (Nat.ne_of_gt (Nat.zero_lt_of_lt hn))
      rw [List.length_cons] at hn
      rw [forwardLoop, readUntil_append, visitEntries, flatten_cons]
      simp only [readUntil_append]
      cases h : it st (e.clause.map Lit.int) (e.witness.map Lit.int) with
      | mk st' b =>
          cases b with
          | false => rfl
          | true =>
              simp only
              rw [if_neg (by simp)]
              exact ih e' (by omega) st'

/-- The backward traversal visits the entries from the last to the first. -/
theorem backwardLoop_flatten (it : S → List Int → List Int → S × Bool) (E : List Entry) {n : Nat}
    (hn : E.length < n) (st : S) :
  backwardLoop it n (flatten E).reverse st = some (visitEntries it st E.reverse)
  := by
  induction E using List.reverseRecOn generalizing n st with
  | nil =>
      obtain ⟨n, rfl⟩ := Nat.exists_eq_succ_of_ne_zero (Nat.ne_of_gt hn)
      rfl
  | append_singleton E e ih =>
      obtain ⟨n, rfl⟩ := Nat.exists_eq_succ_of_ne_zero (Nat.ne_of_gt (Nat.zero_lt_of_lt hn))
      rw [List.length_append, List.length_singleton] at hn
      rw [backwardLoop, flatten_concat, if_neg (by simp), ← List.map_reverse, ← List.map_reverse,
        readUntil_append]
      simp only
      rw [readUntil_append]
      simp only
      rw [List.map_reverse, List.map_reverse, List.reverse_reverse, List.reverse_reverse,
        List.reverse_append, List.reverse_singleton, List.singleton_append, visitEntries]
      cases h : it st (e.clause.map Lit.int) (e.witness.map Lit.int) with
      | mk st' b =>
          cases b with
          | false => rfl
          | true => exact ih (by omega) st'

/-- The traversals never read outside of the array, and they visit the entries that have been
pushed, from the first one on or from the last one on, until the iterator stops. -/
theorem traverse_witnesses (it : S → List Int → List Int → S × Bool) (E : List Entry) (st : S) :
  traverseWitnessesForward false it (flatten E) st = some (visitEntries it st E)
    ∧ traverseWitnessesBackward false it (flatten E) st = some (visitEntries it st E.reverse)
  := by
  constructor
  · cases E with
    | nil => rfl
    | cons e E =>
        rw [flatten_cons]
        change forwardLoop it _ _ st = _
        apply forwardLoop_flatten
        have hle := length_le_flatten E
        simp only [List.length_cons, List.length_append]
        omega
  · rw [traverseWitnessesBackward, if_neg Bool.false_ne_true]
    exact backwardLoop_flatten it E (Nat.lt_succ_of_le (length_le_flatten E)) st

end External

end Cadical
