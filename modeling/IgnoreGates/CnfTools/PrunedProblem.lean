import Mathlib.Algebra.BigOperators.Group.Finset.Basic
import Mathlib.Algebra.Order.BigOperators.Group.Finset
import IgnoreGates.Graph.Worklist
import IgnoreGates.CnfTools.GateLevels
import IgnoreGates.CnfTools.Pruning
import IgnoreGates.CnfTools.Stamp

/-!
# The pruned problem

`getPrunedProblem` follows the gates below the literals of the roots as far as a model makes
them true, and means to collect their clauses.  It passes the end iterator of the result to
`std::copy`, which writes behind the end of the result as soon as there is a clause to copy.
-/

namespace CnfTools

namespace GateFormula

/-! ### The loop -/

/-- `std::copy(clauses.begin(), clauses.end(), result.end())`. -/
def copyToEnd (clauses result : For) : Except Fault For :=
  if clauses.isEmpty then .ok result else .error .outOfBounds

/-- `std::unique`, and the erasure of what is behind its result. -/
def unique : List Lit → List Lit
  | [] => []
  | [a] => [a]
  | a :: b :: ls => if a = b then unique (b :: ls) else a :: unique (b :: ls)

/-- The clauses that are copied for a gate that is visited. -/
def copyGate (gate : Gate) (result : For) : Except Fault For := do
  let result ← copyToEnd gate.fwd result
  if gate.hasNonMonotonicParent then copyToEnd gate.bwd result else .ok result

/-- The loop of `getPrunedProblem`, for a bounded number of iterations; the list holds the
vector `literals` from its back. -/
def prunedLoop (gates : GateFormula) (model : Lit → UInt8) :
    Nat → Stamp → List Lit → For → Except Fault For
  | _, _, [], result => .ok result
  | 0, _, _ :: _, _ => .error .outOfFuel
  | n + 1, visited, o :: literals, result =>
      let gate := gates.gates o.var
      if !gate.isDefined then
        prunedLoop gates model n visited literals result
      else if !visited.isStamped o.var && (gate.hasNonMonotonicParent || model o ≠ 0) then do
        let result ← copyGate gate result
        prunedLoop gates model n (visited.set o.var) (gate.inp.reverse ++ literals) result
      else
        prunedLoop gates model n visited literals result

/-- The literals that the loop starts with. -/
def startLiterals (F : CNFFormula) (gates : GateFormula) : List Lit :=
  unique ((gates.getRoots F).insertionSort (· ≤ ·))

/-- `getPrunedProblem`, for a bounded number of iterations. -/
def getPrunedProblem (F : CNFFormula) (gates : GateFormula) (model : Lit → UInt8) (n : Nat) :
    Except Fault For := do
  let result ← prunedLoop gates model n (Stamp.ofSize 255 (size F))
    (gates.startLiterals F).reverse gates.roots
  return result ++ gates.remainder

theorem mem_unique {ls : List Lit} (l : Lit) :
  l ∈ unique ls ↔ l ∈ ls
  := by
  induction ls with
  | nil => rfl
  | cons a ls ih =>
      cases ls with
      | nil => rfl
      | cons b ls =>
          rw [unique]
          split
          · next heq =>
              subst heq
              rw [ih, List.mem_cons (a := l) (b := a) (l := a :: ls)]
              simp
          · rw [List.mem_cons, ih, ← List.mem_cons]

theorem mem_startLiterals {F : CNFFormula} {gates : GateFormula} (l : Lit) :
  l ∈ gates.startLiterals F ↔ l ∈ gates.getRoots F
  := by
  rw [startLiterals, mem_unique]
  exact (List.perm_insertionSort _ _).mem_iff

/-! ### The gates that are visited -/

/-- The gate of the literal is followed: it is defined, and it is non-monotone or the model
makes the literal true. -/
def Opens (gates : GateFormula) (model : Lit → UInt8) (o : Lit) : Prop :=
  (gates.gates o.var).isDefined = true
    ∧ ((gates.gates o.var).hasNonMonotonicParent = true ∨ model o ≠ 0)

/-- The literal is an input of the gate. -/
def Input (gates : GateFormula) (v : Nat) (l : Lit) : Prop :=
  l ∈ (gates.gates v).inp

/-- The gate of the variable is reached from the literals of the roots and followed. -/
abbrev VisitedGate (F : CNFFormula) (gates : GateFormula) (model : Lit → UInt8) (v : Nat) : Prop :=
  Graph.Opened (· ∈ gates.getRoots F) (gates.Opens model) Lit.var gates.Input v

/-- The state of the search of `getPrunedProblem`. -/
abbrev Searching (F : CNFFormula) (gates : GateFormula) (model : Lit → UInt8) (visited : Stamp)
    (literals : List Lit) : Prop :=
  Graph.Searched (· ∈ gates.getRoots F) (gates.Opens model) Lit.var gates.Input
    (fun v => visited.isStamped v = true) (· ∈ literals)

variable {F : CNFFormula} {gates : GateFormula} {model : Lit → UInt8}

theorem copyGate_ok_iff {gate : Gate} {result result' : For} :
  copyGate gate result = .ok result' ↔ keptClauses gate = [] ∧ result' = result
  := by
  rw [copyGate, keptClauses, List.append_eq_nil_iff]
  cases hfwd : gate.fwd with
  | cons p ps => simp [copyToEnd, bind, Except.bind]
  | nil =>
      cases hmono : gate.hasNonMonotonicParent with
      | false => simp [copyToEnd, bind, Except.bind, eq_comm]
      | true =>
          cases hbwd : gate.bwd with
          | nil => simp [copyToEnd, bind, Except.bind, eq_comm]
          | cons p ps => simp [copyToEnd, bind, Except.bind]

/-- One iteration: the literal is passed over, or its gate is followed. -/
theorem prunedLoop_cases (gates : GateFormula) (model : Lit → UInt8) (n : Nat) (visited : Stamp)
    (o : Lit) (literals : List Lit) (result : For) :
  ((gates.Opens model o → visited.isStamped o.var = true)
      ∧ prunedLoop gates model (n + 1) visited (o :: literals) result
        = prunedLoop gates model n visited literals result)
    ∨ gates.Opens model o ∧ visited.isStamped o.var = false
      ∧ prunedLoop gates model (n + 1) visited (o :: literals) result
        = (do
          let result ← copyGate (gates.gates o.var) result
          prunedLoop gates model n (visited.set o.var) ((gates.gates o.var).inp.reverse ++ literals)
            result)
  := by
  rw [prunedLoop, Opens]
  split
  · next hdefined =>
      left
      refine ⟨?_, rfl⟩
      rintro ⟨h, -⟩
      simp [h] at hdefined
  · next hdefined =>
      rw [Bool.not_eq_true', Bool.not_eq_false] at hdefined
      split
      · next hvisit =>
          right
          rw [Bool.and_eq_true, Bool.or_eq_true, Bool.not_eq_true'] at hvisit
          exact ⟨⟨hdefined, by simpa using hvisit.2⟩, hvisit.1, rfl⟩
      · next hvisit =>
          left
          refine ⟨?_, rfl⟩
          rintro ⟨-, hopens⟩
          by_contra hnot
          apply hvisit
          rw [Bool.not_eq_true] at hnot
          rw [hnot]
          simpa using hopens

theorem Searching.skip {visited : Stamp} {o : Lit} {literals : List Lit}
    (h : Searching F gates model visited (o :: literals))
    (ho : gates.Opens model o → visited.isStamped o.var = true) :
  Searching F gates model visited literals
  := Graph.Searched.skip h ho (fun _ => List.mem_cons)

theorem Searching.visit {visited : Stamp} {o : Lit} {literals : List Lit}
    (h : Searching F gates model visited (o :: literals)) (ho : gates.Opens model o)
    (hlt : o.var < visited.stamped.length) :
  Searching F gates model (visited.set o.var) ((gates.gates o.var).inp.reverse ++ literals)
  := by
  apply Graph.Searched.open h ho _ List.mem_cons_self _ _ (Stamp.isStamped_set hlt)
  · intro b hb
    obtain rfl | hb := List.mem_cons.mp hb
    · exact Or.inl rfl
    · exact Or.inr (List.mem_append_right _ hb)
  · intro b hb
    obtain hb | hb := List.mem_append.mp hb
    · exact Or.inr (List.mem_reverse.mp hb)
    · exact Or.inl (List.mem_cons_of_mem _ hb)
  · intro b hb
    exact List.mem_append_left _ (List.mem_reverse.mpr hb)

theorem Searching.done {visited : Stamp} (h : Searching F gates model visited []) {v : Nat}
    (hv : VisitedGate F gates model v) :
  visited.isStamped v = true
  := by
  have hempty : Graph.Searched (· ∈ gates.getRoots F) (gates.Opens model) Lit.var gates.Input
      (fun v => visited.isStamped v = true) (fun _ => False) := by
    convert h using 2
    simp
  exact (hempty.marked_iff v).mpr hv

/-- The literals that are reached are within the bounds of the vectors. -/
theorem reached_lt (hinp : ∀ v, ∀ l ∈ (gates.gates v).inp, l.var < size F) {o : Lit}
    (h : Graph.Reached (· ∈ gates.getRoots F) (gates.Opens model) Lit.var gates.Input o) :
  o.var < size F
  := by
  cases h with
  | start ho =>
      obtain ⟨p, -, hp⟩ := List.mem_flatMap.mp ho
      have hle := F.deref_var_le hp
      rw [size]
      omega
  | succ _ _ ho => exact hinp _ o ho

/-- A loop that ends has visited the gates and copied nothing. -/
theorem prunedLoop_ok (hinp : ∀ v, ∀ l ∈ (gates.gates v).inp, l.var < size F) {n : Nat}
    {visited : Stamp} {literals : List Lit} {result r : For}
    (h : Searching F gates model visited literals) (hlen : visited.stamped.length = size F)
    (hkept : ∀ v, visited.isStamped v = true → keptClauses (gates.gates v) = [])
    (hrun : prunedLoop gates model n visited literals result = .ok r) :
  r = result ∧ ∀ v, VisitedGate F gates model v → keptClauses (gates.gates v) = []
  := by
  induction n generalizing visited literals result with
  | zero =>
      cases literals with
      | nil =>
          refine ⟨(Except.ok.inj hrun).symm, ?_⟩
          intro v hv
          exact hkept v (h.done hv)
      | cons o literals => cases hrun
  | succ n ih =>
      cases literals with
      | nil =>
          refine ⟨(Except.ok.inj hrun).symm, ?_⟩
          intro v hv
          exact hkept v (h.done hv)
      | cons o literals =>
          obtain ⟨hskip, heq⟩ | ⟨hopens, -, heq⟩ :=
            prunedLoop_cases gates model n visited o literals result
          · rw [heq] at hrun
            exact ih (h.skip hskip) hlen hkept hrun
          · rw [heq] at hrun
            cases hcopy : copyGate (gates.gates o.var) result with
            | error f =>
                rw [hcopy] at hrun
                cases hrun
            | ok result' =>
                obtain ⟨hnil, rfl⟩ := copyGate_ok_iff.mp hcopy
                rw [hcopy] at hrun
                have hlt : o.var < visited.stamped.length := by
                  rw [hlen]
                  exact reached_lt hinp (h.reached o List.mem_cons_self)
                apply ih (h.visit hopens hlt) ((Stamp.length_set _ _).trans hlen) _ hrun
                intro v hv
                obtain rfl | hv := (Stamp.isStamped_set hlt v).mp hv
                · exact hnil
                · exact hkept v hv

/-- The number of literals on the worklist and of the inputs of the gates not visited yet. -/
def potential (F : CNFFormula) (gates : GateFormula) (visited : Stamp) (literals : List Lit) :
    Nat :=
  literals.length
    + ∑ v ∈ (Finset.range (size F)).filter (fun v => visited.isStamped v = false),
      (gates.gates v).inp.length

theorem potential_visit (gates : GateFormula) (literals : List Lit) {visited : Stamp} {o : Lit}
    (hlt : o.var < visited.stamped.length) (hlen : visited.stamped.length = size F)
    (hnot : visited.isStamped o.var = false) :
  potential F gates (visited.set o.var) ((gates.gates o.var).inp.reverse ++ literals) + 1
    = potential F gates visited (o :: literals)
  := by
  have herase : (Finset.range (size F)).filter (fun v => (visited.set o.var).isStamped v = false)
      = ((Finset.range (size F)).filter (fun v => visited.isStamped v = false)).erase o.var := by
    ext v
    have hset := Stamp.isStamped_set hlt v
    rw [Finset.mem_erase, Finset.mem_filter, Finset.mem_filter, ← Bool.not_eq_true, hset, not_or,
      Bool.not_eq_true]
    tauto
  have hmem : o.var ∈ (Finset.range (size F)).filter (fun v => visited.isStamped v = false) := by
    rw [Finset.mem_filter, Finset.mem_range, ← hlen]
    exact ⟨hlt, hnot⟩
  have hsum := Finset.add_sum_erase _ (fun v => (gates.gates v).inp.length) hmem
  rw [potential, potential, herase, List.length_append, List.length_reverse, List.length_cons,
    ← hsum]
  omega

/-- The loop ends, if no gate that is visited has clauses to copy. -/
theorem prunedLoop_total (result : For)
    (hinp : ∀ v, ∀ l ∈ (gates.gates v).inp, l.var < size F)
    (hvisited : ∀ v, VisitedGate F gates model v → keptClauses (gates.gates v) = []) {n : Nat}
    {visited : Stamp} {literals : List Lit}
    (h : Searching F gates model visited literals) (hlen : visited.stamped.length = size F)
    (hn : potential F gates visited literals ≤ n) :
  ∃ r, prunedLoop gates model n visited literals result = .ok r
  := by
  induction n generalizing visited literals with
  | zero =>
      cases literals with
      | nil => exact ⟨result, rfl⟩
      | cons o literals =>
          rw [potential, List.length_cons] at hn
          omega
  | succ n ih =>
      cases literals with
      | nil => exact ⟨result, rfl⟩
      | cons o literals =>
          obtain ⟨hskip, heq⟩ | ⟨hopens, hnot, heq⟩ :=
            prunedLoop_cases gates model n visited o literals result
          · rw [heq]
            apply ih (h.skip hskip) hlen
            rw [potential, List.length_cons] at hn
            rw [potential]
            omega
          · have hreached := h.reached o List.mem_cons_self
            have hlt : o.var < visited.stamped.length := by
              rw [hlen]
              exact reached_lt hinp hreached
            have hcopy : copyGate (gates.gates o.var) result = .ok result :=
              copyGate_ok_iff.mpr ⟨hvisited _ ⟨o, hreached, hopens, rfl⟩, rfl⟩
            rw [heq, hcopy]
            apply ih (h.visit hopens hlt) ((Stamp.length_set _ _).trans hlen)
            have hpotential := potential_visit gates literals hlt hlen hnot
            omega

/-! ### The result -/

/-- The function ends, and it returns the roots, the remainder and the clauses kept for each
gate that is visited, once. -/
def PrunedCorrect (F : CNFFormula) (gates : GateFormula) (model : Lit → UInt8) : Prop :=
  ∃ (N : Nat) (result : For) (vs : List Nat),
    (∀ n, N ≤ n → getPrunedProblem F gates model n = .ok result)
    ∧ vs.Nodup ∧ (∀ v, v ∈ vs ↔ VisitedGate F gates model v)
    ∧ result.Perm
      (gates.roots ++ gates.remainder ++ vs.flatMap (fun v => keptClauses (gates.gates v)))

theorem searching_start :
  Searching F gates model (Stamp.ofSize 255 (size F)) (gates.startLiterals F).reverse
  := by
  have hstart : Graph.Searched (· ∈ gates.getRoots F) (gates.Opens model) Lit.var gates.Input
      (fun v => (Stamp.ofSize 255 (size F)).isStamped v = true) (· ∈ gates.getRoots F) :=
    Graph.Searched.init (fun v => by simp [Stamp.isStamped_ofSize])
  have hmem : (· ∈ (gates.startLiterals F).reverse) = (· ∈ gates.getRoots F) := by
    funext l
    rw [List.mem_reverse, mem_startLiterals]
  rwa [Searching, hmem]

/-- A run that ends returns the roots and the remainder; the gates visited have no clauses to
copy. -/
theorem getPrunedProblem_ok (hinp : ∀ v, ∀ l ∈ (gates.gates v).inp, l.var < size F) {n : Nat}
    {result : For} (hrun : getPrunedProblem F gates model n = .ok result) :
  result = gates.roots ++ gates.remainder
    ∧ ∀ v, VisitedGate F gates model v → keptClauses (gates.gates v) = []
  := by
  rw [getPrunedProblem] at hrun
  cases hloop : prunedLoop gates model n (Stamp.ofSize 255 (size F))
      (gates.startLiterals F).reverse gates.roots with
  | error f =>
      rw [hloop] at hrun
      cases hrun
  | ok r =>
      rw [hloop] at hrun
      cases hrun
      obtain ⟨rfl, hvisited⟩ := prunedLoop_ok hinp searching_start
        (Stamp.length_ofSize (by decide) _)
        (fun v hv => by simp [Stamp.isStamped_ofSize] at hv) hloop
      exact ⟨rfl, hvisited⟩

/-- The pruned problem is computed exactly when no gate that is visited has clauses that are to
be copied. -/
theorem getPrunedProblem_iff (F : CNFFormula) (gates : GateFormula) (model : Lit → UInt8)
    (hinp : ∀ v, ∀ l ∈ (gates.gates v).inp, l.var < size F) :
  PrunedCorrect F gates model
    ↔ ∀ v, VisitedGate F gates model v → (gates.gates v).fwd = []
      ∧ ((gates.gates v).hasNonMonotonicParent = true → (gates.gates v).bwd = [])
  := by
  have hkept : ∀ g : Gate, keptClauses g = []
      ↔ g.fwd = [] ∧ (g.hasNonMonotonicParent = true → g.bwd = []) := by
    intro g
    rw [keptClauses, List.append_eq_nil_iff]
    cases g.hasNonMonotonicParent <;> simp
  simp only [← hkept]
  constructor
  · rintro ⟨N, result, vs, hrun, -⟩
    exact (getPrunedProblem_ok hinp (hrun N le_rfl)).2
  · intro hvisited
    classical
    have hrange : ∀ v, VisitedGate F gates model v → v < size F := by
      rintro v ⟨o, hreached, -, rfl⟩
      exact reached_lt hinp hreached
    refine ⟨potential F gates (Stamp.ofSize 255 (size F)) (gates.startLiterals F).reverse,
      gates.roots ++ gates.remainder,
      (List.range (size F)).filter (fun v => VisitedGate F gates model v), ?_,
      List.nodup_range.filter _, ?_, ?_⟩
    · intro n hn
      obtain ⟨r, hloop⟩ := prunedLoop_total gates.roots hinp hvisited searching_start
        (Stamp.length_ofSize (by decide) _) hn
      have hrun : getPrunedProblem F gates model n = .ok (r ++ gates.remainder) := by
        rw [getPrunedProblem, hloop]
        rfl
      rw [hrun, (getPrunedProblem_ok hinp hrun).1]
    · intro v
      rw [List.mem_filter, List.mem_range, decide_eq_true_eq]
      exact ⟨And.right, fun hv => ⟨hrange v hv, hv⟩⟩
    · have hnil : ((List.range (size F)).filter (fun v => VisitedGate F gates model v)).flatMap
          (fun v => keptClauses (gates.gates v)) = [] := by
        apply List.flatMap_eq_nil_iff.mpr
        intro v hv
        exact hvisited v (of_decide_eq_true (List.mem_filter.mp hv).2)
      rw [hnil, List.append_nil]

/-- The root clause `1`, and a gate with the output 1 and the input 2. -/
def oneGate : GateFormula :=
  (addRoot (CNFFormula.readDimacs [[1], [-1, 2], [1, -2]]) init 0).addGate .TRIV ⟨2⟩ [1] [2] [⟨4⟩]

/-- Under a model that makes the output false, no gate is visited. -/
theorem getPrunedProblem_iff_oneGate :
  PrunedCorrect (CNFFormula.readDimacs [[1], [-1, 2], [1, -2]]) oneGate (fun _ => 0)
  := by
  have hgates : ∀ v, v ≠ 1 → oneGate.gates v = {} := fun v hv => Function.update_of_ne hv _ _
  apply (getPrunedProblem_iff _ _ _ _).mpr
  · rintro v ⟨o, -, ⟨hdefined, hopens⟩, rfl⟩
    by_cases ho : o.var = 1
    · rw [ho] at hopens
      obtain hmono | hmodel := hopens
      · cases hmono
      · exact absurd rfl hmodel
    · rw [hgates _ ho] at hdefined
      cases hdefined
  · intro v
    by_cases hv : v = 1
    · subst hv
      decide
    · rw [hgates v hv]
      exact fun l hl => absurd hl List.not_mem_nil

/-- Under a model that makes the output true, the clause of the gate is written behind the end
of the result. -/
theorem not_prunedCorrect :
  ¬ PrunedCorrect (CNFFormula.readDimacs [[1], [-1, 2], [1, -2]]) oneGate (fun _ => 1)
  := by
  rintro ⟨N, result, vs, hrun, -⟩
  have hfault : getPrunedProblem (CNFFormula.readDimacs [[1], [-1, 2], [1, -2]]) oneGate
      (fun _ => 1) (N + 1) = .error .outOfBounds := rfl
  rw [hrun (N + 1) (Nat.le_succ N)] at hfault
  cases hfault

end GateFormula

end CnfTools
