import Mathlib.Data.Finset.Basic
import Mathlib.Data.List.GetD
import IgnoreGates.Cadical.Compact

/-!
# Internal and external variables

The solver works on internal variables.  The table `e2i` maps an external variable to the
internal literal that stands for it, `i2e` an internal variable to the external one.  New
internal variables are appended to both tables, and `compact` renumbers the internal variables:
it maps all fixed variables to the first fixed one and forgets the other inactive variables.

`Inv` says that the two tables are inverse to each other on the variables that are not fixed.
It holds in all states that are reached, so that the list of auxiliary variables, which consists of
external variables, can be consulted about an internal variable at any time.
-/

namespace Cadical

/-- The members of `External` and `Internal` for the mapping of variables: the two tables with
the numbers of variables, the status of the internal variables, and their values. -/
structure VariableMap where
  e2i : List Int
  externalMaxVar : Nat
  i2e : List Nat
  maxVar : Nat
  status : Nat → Status
  vals : Nat → Int

namespace VariableMap

/-- The solver at the beginning. -/
def empty : VariableMap where
  e2i := []
  externalMaxVar := 0
  i2e := []
  maxVar := 0
  status := fun _ => .unused
  vals := fun _ => 0

/-- `External::is_aux`, for the list of auxiliary variables. -/
def isAux (aux : Finset Nat) (elit : Nat) : Bool :=
  elit ∈ aux

/-! ### New variables -/

/-- `Internal::init_vars`. -/
def initVars (s : VariableMap) (newMaxVar : Nat) : VariableMap :=
  if newMaxVar ≤ s.maxVar then s else { s with maxVar := newMaxVar }

/-- The body of the loop of `External::init`, for the next external variable `eidx` and the next
internal one `iidx`. -/
def mapNext (s : VariableMap) (eidx iidx : Nat) : VariableMap :=
  { s with
    e2i := s.e2i ++ [(iidx : Int)]
    i2e := s.i2e ++ [eidx] }

/-- The loop of `External::init`, for a number of variables. -/
def initLoop (s : VariableMap) (eidx iidx : Nat) : Nat → VariableMap
  | 0 => s
  | n + 1 => (s.mapNext eidx iidx).initLoop (eidx + 1) (iidx + 1) n

/-- `External::init`. -/
def init (s : VariableMap) (newMaxVar : Nat) : VariableMap :=
  if newMaxVar ≤ s.externalMaxVar then
    s
  else
    let newVars := newMaxVar - s.externalMaxVar
    let oldInternalMaxVar := s.maxVar
    let s := s.initVars (oldInternalMaxVar + newVars)
    let s := if s.externalMaxVar = 0 then
        { s with e2i := s.e2i ++ [0], i2e := s.i2e ++ [0] }
      else s
    let s := s.initLoop (s.externalMaxVar + 1) (oldInternalMaxVar + 1) newVars
    { s with externalMaxVar := newMaxVar }

/-- The status of a variable is changed. -/
def setStatus (s : VariableMap) (idx : Nat) (status : Status) : VariableMap :=
  { s with status := Function.update s.status idx status }

/-- The end of `internalize`: a variable that is unused is marked as active, and one that has
been removed is reactivated. -/
def activate (s : VariableMap) (idx : Nat) : VariableMap :=
  if s.status idx ≠ .active ∧ s.status idx ≠ .fixed then s.setStatus idx .active else s

/-- `External::internalize`, as far as the tables and the status are concerned. -/
def internalize (s : VariableMap) (elit : Int) : Int × VariableMap :=
  if elit = 0 then
    (0, s)
  else
    let eidx := elit.natAbs
    let s := if s.externalMaxVar < eidx then s.init eidx else s
    let ilit := s.e2i.getD eidx 0
    if ilit = 0 then
      let ilit := s.maxVar + 1
      let s := s.initVars ilit
      let s := { s with e2i := s.e2i.set eidx (ilit : Int), i2e := s.i2e ++ [eidx] }
      (if elit < 0 then -(ilit : Int) else ilit, s.activate ilit)
    else
      (if elit < 0 then -ilit else ilit, s.activate ilit.natAbs)

/-! ### Compacting -/

/-- `Internal::val` -/
def val (s : VariableMap) (lit : Int) : Int :=
  if lit < 0 then -s.vals lit.natAbs else s.vals lit.natAbs

/-- The `Mapper` that `compact` uses. -/
def mapper (s : VariableMap) : Mapper :=
  Mapper.make s.status s.maxVar

/-- The member `map_first_fixed`. -/
def mapFirstFixed (s : VariableMap) : Nat :=
  if s.mapper.firstFixed = 0 then 0 else s.mapper.table s.mapper.firstFixed

/-- The member `first_fixed_val`. -/
def firstFixedVal (s : VariableMap) : Int :=
  if s.mapper.firstFixed = 0 then 0 else s.val s.mapper.firstFixed

/-- `Mapper::map_lit` -/
def mapLit (s : VariableMap) (src : Int) : Int :=
  let res := s.mapper.table src.natAbs
  if res = 0 then
    let tmp := s.val src
    if tmp = 0 then 0
    else if tmp ≠ s.firstFixedVal then -(s.mapFirstFixed : Int)
    else s.mapFirstFixed
  else if src < 0 then -(res : Int)
  else res

/-- The mapping of the values, into a new array. -/
def mapValues (s : VariableMap) : Nat → Int :=
  Function.update ((Evsids.vars s.maxVar).foldl
    (fun newVals src => Function.update newVals (s.mapper.table src) (s.vals src)) (fun _ => 0))
    0 0

/-- `Internal::active`: the number of active variables. -/
def active (s : VariableMap) : Nat :=
  (Evsids.vars s.maxVar).countP (fun idx => s.status idx = .active)

/-- `Internal::compact`, as far as the tables, the status and the values are concerned. -/
def compact (s : VariableMap) : VariableMap where
  e2i := s.e2i.map (fun src => if src = 0 then src else s.mapLit src)
  externalMaxVar := s.externalMaxVar
  i2e := (List.range (s.mapper.newMaxVar + 1)).map
    (s.mapper.mapVector s.maxVar 0 (fun idx => s.i2e.getD idx 0))
  maxVar := s.mapper.newMaxVar
  status := s.mapper.mapVector s.maxVar .unused s.status
  vals := s.mapValues

/-! ### Runs -/

/-- What happens to the variables: calls of `init`, `internalize` and `compact`, the changes of
the status, and assignments by the search.  `compacting` makes sure that there is a variable which
is not active before `compact` is called. -/
inductive Step : VariableMap → VariableMap → Prop where
  | init (s : VariableMap) (newMaxVar : Nat) : Step s (s.init newMaxVar)
  | internalize (s : VariableMap) (elit : Int) : Step s (s.internalize elit).2
  | compact (s : VariableMap) (h : s.active < s.maxVar) : Step s s.compact
  | mark_fixed (s : VariableMap) (idx : Nat) (h : s.status idx = .active) :
      Step s (s.setStatus idx .fixed)
  | mark_eliminated (s : VariableMap) (idx : Nat) (h : s.status idx = .active) :
      Step s (s.setStatus idx .eliminated)
  | mark_substituted (s : VariableMap) (idx : Nat) (h : s.status idx = .active) :
      Step s (s.setStatus idx .substituted)
  | mark_pure (s : VariableMap) (idx : Nat) (h : s.status idx = .active) :
      Step s (s.setStatus idx .pure)
  | reactivate (s : VariableMap) (idx : Nat) (hunused : s.status idx ≠ .unused)
      (hactive : s.status idx ≠ .active) (hfixed : s.status idx ≠ .fixed) :
      Step s (s.setStatus idx .active)
  | assign (s : VariableMap) (vals : Nat → Int) : Step s { s with vals }

inductive Reachable : VariableMap → Prop where
  | empty : Reachable empty
  | step {s s' : VariableMap} (h : Reachable s) (hstep : Step s s') : Reachable s'

/-! ### The invariant -/

/-- The internal literal of an external variable. -/
def toInternal (s : VariableMap) (e : Nat) : Int :=
  s.e2i.getD e 0

/-- The external variable of an internal one. -/
def toExternal (s : VariableMap) (v : Nat) : Nat :=
  s.i2e.getD v 0

/-- The tables are inverse to each other on the variables that are not fixed. -/
structure Inv (s : VariableMap) : Prop where
  lengths : s.externalMaxVar = 0 ∧ s.maxVar = 0 ∧ s.e2i = [] ∧ s.i2e = []
    ∨ 0 < s.externalMaxVar ∧ s.e2i.length = s.externalMaxVar + 1
      ∧ s.i2e.length = s.maxVar + 1
  range : ∀ e, 1 ≤ e → e ≤ s.externalMaxVar → (s.toInternal e).natAbs ≤ s.maxVar
  left : ∀ e, 1 ≤ e → e ≤ s.externalMaxVar → s.toInternal e ≠ 0 →
    s.status (s.toInternal e).natAbs ≠ .fixed →
      0 < s.toInternal e ∧ s.toExternal (s.toInternal e).natAbs = e
  right : ∀ v, 1 ≤ v → v ≤ s.maxVar → s.status v ≠ .fixed →
    1 ≤ s.toExternal v ∧ s.toExternal v ≤ s.externalMaxVar ∧ s.toInternal (s.toExternal v) = v

theorem empty_inv :
  Inv empty
  := by
  constructor
  · exact Or.inl ⟨rfl, rfl, rfl, rfl⟩
  · exact fun e _ _ => Nat.zero_le _
  · intro e _ _ hne
    exact absurd rfl hne
  · intro v hpos hle
    exact absurd hpos (Nat.not_succ_le_zero _ ∘ fun h => h.trans hle)

variable {s s' : VariableMap}

/-- What the loop of `External::init` appends to the tables. -/
theorem initLoop_eq (s : VariableMap) (eidx iidx n : Nat) :
  s.initLoop eidx iidx n = { s with
    e2i := s.e2i ++ (List.range' iidx n).map (fun i : Nat => (i : Int))
    i2e := s.i2e ++ List.range' eidx n }
  := by
  induction n generalizing s eidx iidx with
  | zero => simp [initLoop]
  | succ n ih =>
      rw [initLoop, ih]
      simp [mapNext, List.range'_succ]

/-- The entries of a table behind which others are appended. -/
theorem getD_append_range' {α : Type} [Zero α] (f : Nat → α) (xs : List α) (base n : Nat) :
  (∀ i, i < xs.length → (xs ++ (List.range' base n).map f).getD i 0 = xs.getD i 0)
    ∧ ∀ i, i < n → (xs ++ (List.range' base n).map f).getD (xs.length + i) 0 = f (base + i)
  := by
  constructor
  · intro i hi
    rw [List.getD_append _ _ _ _ hi]
  · intro i hi
    rw [List.getD_append_right _ _ _ _ (Nat.le_add_right _ _), Nat.add_sub_cancel_left,
      List.getD_eq_getElem _ _ (by simpa using hi), List.getElem_map, List.getElem_range',
      Nat.one_mul]

/-- The state after `init`, for new variables. -/
structure Initialized (s : VariableMap) (newMaxVar : Nat) (s' : VariableMap) : Prop where
  externalMaxVar : s'.externalMaxVar = newMaxVar
  maxVar : s'.maxVar = s.maxVar + (newMaxVar - s.externalMaxVar)
  status : s'.status = s.status
  e2i_length : s'.e2i.length = newMaxVar + 1
  i2e_length : s'.i2e.length = s'.maxVar + 1
  e2i_old : ∀ e, 1 ≤ e → e ≤ s.externalMaxVar → s'.toInternal e = s.toInternal e
  i2e_old : ∀ v, 1 ≤ v → v ≤ s.maxVar → s'.toExternal v = s.toExternal v
  e2i_new : ∀ i, i < newMaxVar - s.externalMaxVar →
    s'.toInternal (s.externalMaxVar + 1 + i) = (s.maxVar + 1 + i : Nat)
  i2e_new : ∀ i, i < newMaxVar - s.externalMaxVar →
    s'.toExternal (s.maxVar + 1 + i) = s.externalMaxVar + 1 + i

/-- The tables get their entry for the index zero before the first variable. -/
theorem Inv.init_spec (h : Inv s) {newMaxVar : Nat} (hlt : s.externalMaxVar < newMaxVar) :
  Initialized s newMaxVar (s.init newMaxVar)
  := by
  obtain ⟨E, I, hE, hI, heq, hEold, hIold⟩ : ∃ (E : List Int) (I : List Nat),
      E.length = s.externalMaxVar + 1 ∧ I.length = s.maxVar + 1
      ∧ s.init newMaxVar =
        { e2i := E ++ (List.range' (s.maxVar + 1) (newMaxVar - s.externalMaxVar)).map
            (fun i : Nat => (i : Int))
          externalMaxVar := newMaxVar
          i2e := I ++ List.range' (s.externalMaxVar + 1) (newMaxVar - s.externalMaxVar)
          maxVar := s.maxVar + (newMaxVar - s.externalMaxVar)
          status := s.status
          vals := s.vals }
      ∧ (∀ e, 1 ≤ e → e ≤ s.externalMaxVar → E.getD e 0 = s.toInternal e)
      ∧ ∀ v, 1 ≤ v → v ≤ s.maxVar → I.getD v 0 = s.toExternal v := by
    have hinit : s.initVars (s.maxVar + (newMaxVar - s.externalMaxVar))
        = { s with maxVar := s.maxVar + (newMaxVar - s.externalMaxVar) } := by
      rw [initVars, if_neg]
      omega
    obtain ⟨hemax, hmax, he2i, hi2e⟩ | ⟨hpos, he2i, hi2e⟩ := h.lengths
    · refine ⟨[0], [0], by rw [hemax]; rfl, by rw [hmax]; rfl, ?_, ?_, ?_⟩
      · simp only [VariableMap.init, if_neg (Nat.not_le_of_lt hlt), hinit]
        simp [initLoop_eq, hemax, he2i, hi2e]
      · intro e hpos hle
        omega
      · intro v hpos hle
        omega
    · refine ⟨s.e2i, s.i2e, he2i, hi2e, ?_, fun _ _ _ => rfl, fun _ _ _ => rfl⟩
      simp only [VariableMap.init, if_neg (Nat.not_le_of_lt hlt), hinit]
      simp [initLoop_eq, Nat.ne_of_gt hpos]
  obtain ⟨hEfst, hEsnd⟩ := getD_append_range' (fun i : Nat => (i : Int)) E (s.maxVar + 1)
    (newMaxVar - s.externalMaxVar)
  obtain ⟨hIfst, hIsnd⟩ := getD_append_range' (fun i => i) I (s.externalMaxVar + 1)
    (newMaxVar - s.externalMaxVar)
  rw [List.map_id'] at hIfst hIsnd
  rw [heq]
  constructor
  · rfl
  · rfl
  · rfl
  · simp [hE]
    omega
  · simp [hI]
    omega
  · intro e hpos hle
    exact (hEfst e (by omega)).trans (hEold e hpos hle)
  · intro v hpos hle
    exact (hIfst v (by omega)).trans (hIold v hpos hle)
  · intro i hi
    rw [← hE]
    exact hEsnd i hi
  · intro i hi
    rw [← hI]
    exact hIsnd i hi

/-- New variables are appended to both tables. -/
theorem Inv.init (h : Inv s) (newMaxVar : Nat) :
  Inv (s.init newMaxVar)
  := by
  obtain hlt | hle := Nat.lt_or_ge s.externalMaxVar newMaxVar
  · have hspec := h.init_spec hlt
    revert hspec
    generalize s.init newMaxVar = s'
    intro hspec
    constructor
    · exact Or.inr ⟨by rw [hspec.externalMaxVar]; omega,
        by rw [hspec.e2i_length, hspec.externalMaxVar], hspec.i2e_length⟩
    · intro e hpos hle
      rw [hspec.externalMaxVar] at hle
      rw [hspec.maxVar]
      obtain hold | hnew := le_or_gt e s.externalMaxVar
      · rw [hspec.e2i_old e hpos hold]
        have hrange := h.range e hpos hold
        omega
      · obtain ⟨i, rfl⟩ := Nat.exists_eq_add_of_lt hnew
        rw [show s.externalMaxVar + i + 1 = s.externalMaxVar + 1 + i by omega,
          hspec.e2i_new i (by omega)]
        omega
    · intro e hpos hle hne hfixed
      rw [hspec.externalMaxVar] at hle
      rw [hspec.status] at hfixed
      obtain hold | hnew := le_or_gt e s.externalMaxVar
      · rw [hspec.e2i_old e hpos hold] at hne hfixed ⊢
        rw [hspec.i2e_old _ (by omega) (h.range e hpos hold)]
        exact h.left e hpos hold hne hfixed
      · obtain ⟨i, rfl⟩ := Nat.exists_eq_add_of_lt hnew
        rw [show s.externalMaxVar + i + 1 = s.externalMaxVar + 1 + i by omega,
          hspec.e2i_new i (by omega), Int.natAbs_natCast, hspec.i2e_new i (by omega)]
        omega
    · intro v hpos hle hfixed
      rw [hspec.maxVar] at hle
      rw [hspec.status] at hfixed
      rw [hspec.externalMaxVar]
      obtain hold | hnew := le_or_gt v s.maxVar
      · rw [hspec.i2e_old v hpos hold]
        obtain ⟨hepos, hele, heq⟩ := h.right v hpos hold hfixed
        rw [hspec.e2i_old _ hepos hele]
        exact ⟨hepos, by omega, heq⟩
      · obtain ⟨i, rfl⟩ := Nat.exists_eq_add_of_lt hnew
        rw [show s.maxVar + i + 1 = s.maxVar + 1 + i by omega, hspec.i2e_new i (by omega),
          hspec.e2i_new i (by omega)]
        omega
  · rw [VariableMap.init, if_pos hle]
    exact h

/-- The status of a variable that is not fixed is not relevant. -/
theorem Inv.setStatus (h : Inv s) {idx : Nat} (hidx : s.status idx ≠ .fixed) (status : Status) :
  Inv (s.setStatus idx status)
  := by
  have hstatus : ∀ v, (s.setStatus idx status).status v ≠ .fixed → s.status v ≠ .fixed := by
    intro v hv
    by_cases heq : v = idx
    · rw [heq]
      exact hidx
    · have hother : (s.setStatus idx status).status v = s.status v :=
        Function.update_of_ne heq _ _
      rwa [hother] at hv
  constructor
  · exact h.lengths
  · exact h.range
  · intro e hpos hle hne hfixed
    exact h.left e hpos hle hne (hstatus _ hfixed)
  · intro v hpos hle hfixed
    exact h.right v hpos hle (hstatus _ hfixed)

/-- Activating a variable keeps the invariant. -/
theorem Inv.activate (h : Inv s) (idx : Nat) :
  Inv (s.activate idx)
  := by
  rw [VariableMap.activate]
  split
  · next hcond => exact h.setStatus hcond.2 _
  · exact h

/-- A new internal variable for an external one that has none. -/
theorem Inv.append (h : Inv s) {eidx : Nat} (hpos : 1 ≤ eidx) (hle : eidx ≤ s.externalMaxVar)
    (hzero : s.toInternal eidx = 0) :
  Inv { s with
    maxVar := s.maxVar + 1
    e2i := s.e2i.set eidx ((s.maxVar + 1 : Nat) : Int)
    i2e := s.i2e ++ [eidx] }
  := by
  obtain ⟨hemax, -⟩ | ⟨-, he2i, hi2e⟩ := h.lengths
  · omega
  · have hnew : (s.e2i.set eidx ((s.maxVar + 1 : Nat) : Int)).getD eidx 0
        = ((s.maxVar + 1 : Nat) : Int) := by
      rw [List.getD_eq_getElem?_getD, List.getElem?_set_self (by omega), Option.getD_some]
    have hother : ∀ e, e ≠ eidx →
        (s.e2i.set eidx ((s.maxVar + 1 : Nat) : Int)).getD e 0 = s.toInternal e := by
      intro e hne
      rw [List.getD_eq_getElem?_getD, List.getElem?_set_ne hne.symm, ← List.getD_eq_getElem?_getD]
      rfl
    have hlast : (s.i2e ++ [eidx]).getD (s.maxVar + 1) 0 = eidx := by
      rw [← hi2e, List.getD_append_right _ _ _ _ le_rfl, Nat.sub_self]
      rfl
    have hfirst : ∀ v, v ≤ s.maxVar → (s.i2e ++ [eidx]).getD v 0 = s.toExternal v := by
      intro v hv
      rw [List.getD_append _ _ _ _ (by omega)]
      rfl
    constructor
    · refine Or.inr ⟨hpos.trans hle, ?_, ?_⟩
      · rw [List.length_set]
        exact he2i
      · rw [List.length_append, hi2e]
        rfl
    · intro e hpos hle
      change ((s.e2i.set eidx ((s.maxVar + 1 : Nat) : Int)).getD e 0).natAbs ≤ s.maxVar + 1
      by_cases heq : e = eidx
      · rw [heq, hnew, Int.natAbs_natCast]
      · rw [hother e heq]
        exact (h.range e hpos hle).trans (Nat.le_succ _)
    · intro e hpos hle hne hfixed
      change (s.e2i.set eidx ((s.maxVar + 1 : Nat) : Int)).getD e 0 ≠ 0 at hne
      change s.status ((s.e2i.set eidx ((s.maxVar + 1 : Nat) : Int)).getD e 0).natAbs ≠ _ at hfixed
      change 0 < (s.e2i.set eidx ((s.maxVar + 1 : Nat) : Int)).getD e 0
        ∧ (s.i2e ++ [eidx]).getD ((s.e2i.set eidx ((s.maxVar + 1 : Nat) : Int)).getD e 0).natAbs 0
          = e
      by_cases heq : e = eidx
      · rw [heq, hnew, Int.natAbs_natCast, hlast]
        exact ⟨Int.natCast_pos.mpr (Nat.succ_pos _), rfl⟩
      · rw [hother e heq] at hne hfixed ⊢
        rw [hfirst _ (h.range e hpos hle)]
        exact h.left e hpos hle hne hfixed
    · intro v hvpos hvle hfixed
      change v ≤ s.maxVar + 1 at hvle
      change 1 ≤ (s.i2e ++ [eidx]).getD v 0 ∧ (s.i2e ++ [eidx]).getD v 0 ≤ s.externalMaxVar
        ∧ (s.e2i.set eidx ((s.maxVar + 1 : Nat) : Int)).getD ((s.i2e ++ [eidx]).getD v 0) 0 = v
      obtain hold | hnewest := le_or_gt v s.maxVar
      · rw [hfirst v hold]
        obtain ⟨hepos, hele, heq⟩ := h.right v hvpos hold hfixed
        refine ⟨hepos, hele, ?_⟩
        rw [hother]
        · exact heq
        · intro heidx
          rw [heidx, hzero] at heq
          omega
      · rw [show v = s.maxVar + 1 by omega, hlast, hnew]
        exact ⟨hpos, hle, rfl⟩

/-- Internalizing an external literal keeps the invariant: its variable may be new, and gets the
next internal one then. -/
theorem Inv.internalize (h : Inv s) (elit : Int) :
  Inv (s.internalize elit).2
  := by
  rw [VariableMap.internalize]
  split
  · exact h
  · next hne =>
      have hinit : ∃ s', (if s.externalMaxVar < elit.natAbs then s.init elit.natAbs else s) = s'
          ∧ Inv s' ∧ elit.natAbs ≤ s'.externalMaxVar := by
        refine ⟨_, rfl, ?_⟩
        split
        · next hlt => exact ⟨h.init _, (h.init_spec hlt).externalMaxVar.ge⟩
        · next hlt => exact ⟨h, Nat.le_of_not_lt hlt⟩
      obtain ⟨s', heq, h', hle⟩ := hinit
      simp only [heq]
      split
      · next hzero =>
          have hvars : s'.initVars (s'.maxVar + 1) = { s' with maxVar := s'.maxVar + 1 } := by
            rw [initVars, if_neg]
            omega
          simp only [hvars]
          apply Inv.activate
          exact h'.append (Int.natAbs_pos.mpr hne) hle hzero
      · exact h'.activate _

/-! ### The invariant under compacting -/

/-- The internal literal of an external variable is mapped. -/
theorem compact_toInternal (s : VariableMap) (e : Nat) :
  s.compact.toInternal e = if s.toInternal e = 0 then 0 else s.mapLit (s.toInternal e)
  := by
  have hmap : ∀ src : Int, (if src = 0 then src else s.mapLit src)
      = if src = 0 then 0 else s.mapLit src := by
    intro src
    split
    · next hzero => exact hzero
    · rfl
  have hget := List.getD_map s.e2i (d := 0) (n := e)
    (fun src => if src = 0 then src else s.mapLit src)
  rw [if_pos rfl] at hget
  exact hget.trans (hmap _)

/-- The status of a variable that is kept does not change. -/
theorem compact_status (s : VariableMap) {src : Nat} (hsrc : s.mapper.table src ≠ 0) :
  s.compact.status (s.mapper.table src) = s.status src
  := (Mapper.make_spec s.status s.maxVar).mapVector Status.unused s.status hsrc

/-- A variable that is kept has the same external variable as before. -/
theorem compact_toExternal (s : VariableMap) {src : Nat} (hsrc : s.mapper.table src ≠ 0) :
  s.compact.toExternal (s.mapper.table src) = s.toExternal src
  := by
  have hspec := Mapper.make_spec s.status s.maxVar
  have hlt : s.mapper.table src < s.mapper.newMaxVar + 1 :=
    Nat.lt_succ_of_le (hspec.le_new src)
  rw [toExternal, compact, List.getD_eq_getElem _ _ (by simpa using hlt), List.getElem_map,
    List.getElem_range]
  exact hspec.mapVector 0 (fun idx => s.i2e.getD idx 0) hsrc

/-- The literals of variables that are not kept are mapped to the first fixed variable, if they
are mapped at all. -/
theorem mapLit_dropped (s : VariableMap) {src : Int} (hsrc : s.mapper.table src.natAbs = 0)
    (hne : s.mapLit src ≠ 0) :
  (s.mapLit src).natAbs ≤ s.mapper.newMaxVar
    ∧ s.compact.status (s.mapLit src).natAbs = .fixed
  := by
  have hspec := Mapper.make_spec s.status s.maxVar
  have habs : (s.mapLit src).natAbs = s.mapFirstFixed := by
    rw [mapLit] at hne ⊢
    simp only [hsrc, if_true] at hne ⊢
    split
    · next hval => exact absurd (by rw [if_pos hval]) hne
    · split
      · rw [Int.natAbs_neg, Int.natAbs_natCast]
      · rw [Int.natAbs_natCast]
  have hpos : s.mapFirstFixed ≠ 0 := by
    rw [← habs]
    exact Int.natAbs_ne_zero.mpr hne
  rw [habs]
  rw [mapFirstFixed] at hpos ⊢
  split
  · next hzero =>
      rw [if_pos hzero] at hpos
      exact absurd rfl hpos
  · next hfirst =>
      rw [if_neg hfirst] at hpos
      refine ⟨hspec.le_new _, ?_⟩
      rw [s.compact_status hpos]
      exact (hspec.fixed hfirst).1

/-- The literals of variables that are kept are mapped with their sign. -/
theorem mapLit_kept (s : VariableMap) {src : Int} (hsrc : s.mapper.table src.natAbs ≠ 0) :
  s.mapLit src = if src < 0 then -(s.mapper.table src.natAbs : Int) else s.mapper.table src.natAbs
  := by
  rw [mapLit]
  simp only [if_neg hsrc]

/-- A literal of a variable that is kept is mapped to a literal of its new variable. -/
theorem mapLit_kept_natAbs (s : VariableMap) {src : Int}
    (hsrc : s.mapper.table src.natAbs ≠ 0) :
  (s.mapLit src).natAbs = s.mapper.table src.natAbs
  := by
  rw [s.mapLit_kept hsrc]
  split
  · rw [Int.natAbs_neg, Int.natAbs_natCast]
  · rw [Int.natAbs_natCast]

/-- The literal of a variable that is not fixed stays positive. -/
theorem Inv.mapLit_pos (h : Inv s) {e : Nat} (hpos : 1 ≤ e) (hle : e ≤ s.externalMaxVar)
    (hne : s.toInternal e ≠ 0) (hfixed : s.status (s.toInternal e).natAbs ≠ .fixed)
    (hsrc : s.mapper.table (s.toInternal e).natAbs ≠ 0) :
  s.mapLit (s.toInternal e) = s.mapper.table (s.toInternal e).natAbs
  := by
  have hpositive := (h.left e hpos hle hne hfixed).1
  rw [s.mapLit_kept hsrc, if_neg (by omega)]

/-- Compacting keeps the tables inverse to each other. -/
theorem Inv.compact (h : Inv s) (hactive : s.active < s.maxVar) :
  Inv s.compact
  := by
  have hspec := Mapper.make_spec s.status s.maxVar
  obtain ⟨-, hmax, -⟩ | ⟨hemax, he2i, hi2e⟩ := h.lengths
  · omega
  · constructor
    · refine Or.inr ⟨hemax, ?_, ?_⟩
      · rw [VariableMap.compact, List.length_map]
        exact he2i
      · rw [VariableMap.compact, List.length_map, List.length_range]
    · intro e hpos hle
      change _ ≤ s.mapper.newMaxVar
      rw [compact_toInternal]
      split
      · exact Nat.zero_le _
      · by_cases hsrc : s.mapper.table (s.toInternal e).natAbs = 0
        · by_cases hne : s.mapLit (s.toInternal e) = 0
          · rw [hne]
            exact Nat.zero_le _
          · exact (s.mapLit_dropped hsrc hne).1
        · rw [s.mapLit_kept_natAbs hsrc]
          exact hspec.le_new _
    · intro e hpos hle hne hfixed
      rw [compact_toInternal] at hne hfixed ⊢
      by_cases hzero : s.toInternal e = 0
      · rw [if_pos hzero] at hne
        exact absurd rfl hne
      · rw [if_neg hzero] at hne hfixed ⊢
        by_cases hsrc : s.mapper.table (s.toInternal e).natAbs = 0
        · exact absurd (s.mapLit_dropped hsrc hne).2 hfixed
        · rw [s.mapLit_kept_natAbs hsrc, s.compact_status hsrc] at hfixed
          rw [s.mapLit_kept_natAbs hsrc, s.compact_toExternal hsrc,
            h.mapLit_pos hpos hle hzero hfixed hsrc]
          exact ⟨by omega, (h.left e hpos hle hzero hfixed).2⟩
    · intro v hpos hle hfixed
      obtain ⟨src, rfl⟩ := hspec.onto v hpos hle
      have hsrc : s.mapper.table src ≠ 0 := Nat.ne_of_gt hpos
      obtain ⟨⟨hsrcpos, hsrcle⟩, -⟩ := (hspec.kept src).mp hsrc
      have hstatus := s.compact_status hsrc
      change s.compact.status (s.mapper.table src) ≠ _ at hfixed
      rw [hstatus] at hfixed
      obtain ⟨hepos, hele, heq⟩ := h.right src hsrcpos hsrcle hfixed
      change 1 ≤ s.compact.toExternal (s.mapper.table src)
        ∧ s.compact.toExternal (s.mapper.table src) ≤ s.externalMaxVar
        ∧ s.compact.toInternal (s.compact.toExternal (s.mapper.table src)) = s.mapper.table src
      rw [s.compact_toExternal hsrc, compact_toInternal]
      refine ⟨hepos, hele, ?_⟩
      have habs : (s.toInternal (s.toExternal src)).natAbs = src := by
        rw [heq, Int.natAbs_natCast]
      rw [if_neg (by omega), h.mapLit_pos hepos hele (by omega) (by rwa [habs]) (by rwa [habs]),
        habs]

/-- Every step keeps the invariant. -/
theorem Step.inv (hstep : Step s s') (h : Inv s) :
  Inv s'
  := by
  cases hstep with
  | init newMaxVar => exact h.init newMaxVar
  | internalize elit => exact h.internalize elit
  | compact hactive => exact h.compact hactive
  | mark_fixed idx hidx => exact h.setStatus (by rw [hidx]; decide) _
  | mark_eliminated idx hidx => exact h.setStatus (by rw [hidx]; decide) _
  | mark_substituted idx hidx => exact h.setStatus (by rw [hidx]; decide) _
  | mark_pure idx hidx => exact h.setStatus (by rw [hidx]; decide) _
  | reactivate idx _ _ hidx => exact h.setStatus hidx _
  | assign vals => exact ⟨h.lengths, h.range, h.left, h.right⟩

/-- The invariant holds after every sequence of steps. -/
theorem Reachable.inv (h : Reachable s) :
  Inv s
  := by
  induction h with
  | empty => exact empty_inv
  | step _ hstep ih => exact hstep.inv ih

/-! ### The list of auxiliary variables -/

/-- The internal variable of an external variable is active. -/
def IsActive (s : VariableMap) (e : Nat) : Prop :=
  (1 ≤ e ∧ e ≤ s.externalMaxVar) ∧ s.toInternal e ≠ 0
    ∧ s.status (s.toInternal e).natAbs = .active

/-- What the test for auxiliary variables relies on. -/
structure AuxStable (aux : Finset Nat) (s : VariableMap) : Prop where
  inverse : ∀ e, s.IsActive e → 0 < s.toInternal e ∧ s.toExternal (s.toInternal e).natAbs = e
  injective : ∀ e e', s.IsActive e → s.IsActive e' →
    (s.toInternal e).natAbs = (s.toInternal e').natAbs → e = e'
  own : ∀ v, 1 ≤ v → v ≤ s.maxVar → s.status v = .active →
    ∃ e, (1 ≤ e ∧ e ≤ s.externalMaxVar) ∧ (s.toInternal e = v
      ∧ ∀ e', 1 ≤ e' → e' ≤ s.externalMaxVar → (s.toInternal e').natAbs = v → e' = e)
      ∧ isAux aux (s.toExternal v) = decide (e ∈ aux)

/-- The renumbering of the active variables by `compact`: they keep their external variables, and
no other variable becomes active. -/
structure Renumbered (aux : Finset Nat) (s : VariableMap) : Prop where
  isActive : ∀ e, s.compact.IsActive e ↔ s.IsActive e
  renumbered : ∀ e, s.IsActive e →
    s.compact.toInternal e = s.mapper.table (s.toInternal e).natAbs
  isAux : ∀ v, 1 ≤ v → v ≤ s.maxVar → s.status v = .active →
    isAux aux (s.compact.toExternal (s.mapper.table v)) = isAux aux (s.toExternal v)

/-- Under the invariant, what the test for auxiliary variables relies on holds. -/
theorem Inv.auxStable (h : Inv s) (aux : Finset Nat) :
  AuxStable aux s
  := by
  have hinverse : ∀ e, s.IsActive e →
      0 < s.toInternal e ∧ s.toExternal (s.toInternal e).natAbs = e := by
    rintro e ⟨⟨hpos, hle⟩, hne, hactive⟩
    exact h.left e hpos hle hne (by rw [hactive]; decide)
  constructor
  · exact hinverse
  · intro e e' he he' heq
    rw [← (hinverse e he).2, heq]
    exact (hinverse e' he').2
  · intro v hpos hle hactive
    obtain ⟨hepos, hele, heq⟩ := h.right v hpos hle (by rw [hactive]; decide)
    refine ⟨s.toExternal v, ⟨hepos, hele⟩, ⟨heq, ?_⟩, rfl⟩
    intro e' hepos' hele' hv
    rw [← hv]
    refine ((hinverse e' ⟨⟨hepos', hele'⟩, ?_, ?_⟩).2).symm
    · intro hzero
      rw [hzero] at hv
      omega
    · rw [hv]
      exact hactive

theorem Inv.renumbered (h : Inv s) (aux : Finset Nat) :
  Renumbered aux s
  := by
  have hspec := Mapper.make_spec s.status s.maxVar
  have hkept : ∀ v, 1 ≤ v → v ≤ s.maxVar → s.status v = .active → s.mapper.table v ≠ 0 :=
    fun v hpos hle hactive => (hspec.kept v).mpr ⟨⟨hpos, hle⟩, Or.inl hactive⟩
  have hactive : ∀ e, s.IsActive e → s.mapper.table (s.toInternal e).natAbs ≠ 0
      ∧ s.compact.toInternal e = s.mapper.table (s.toInternal e).natAbs := by
    rintro e ⟨⟨hpos, hle⟩, hne, hactive⟩
    have hsrc := hkept _ (Int.natAbs_pos.mpr hne) (h.range e hpos hle) hactive
    refine ⟨hsrc, ?_⟩
    rw [compact_toInternal, if_neg hne]
    exact h.mapLit_pos hpos hle hne (by rw [hactive]; decide) hsrc
  constructor
  · intro e
    constructor
    · rintro ⟨hrange, hne, hstatus⟩
      rw [compact_toInternal] at hne hstatus
      by_cases hzero : s.toInternal e = 0
      · rw [if_pos hzero] at hne
        exact absurd rfl hne
      · rw [if_neg hzero] at hne hstatus
        by_cases hsrc : s.mapper.table (s.toInternal e).natAbs = 0
        · rw [(s.mapLit_dropped hsrc hne).2] at hstatus
          cases hstatus
        · refine ⟨hrange, hzero, ?_⟩
          rwa [s.mapLit_kept_natAbs hsrc, s.compact_status hsrc] at hstatus
    · intro he
      obtain ⟨hsrc, heq⟩ := hactive e he
      refine ⟨he.1, ?_, ?_⟩
      · rw [heq]
        omega
      · rw [heq, Int.natAbs_natCast, s.compact_status hsrc]
        exact he.2.2
  · exact fun e he => (hactive e he).2
  · intro v hpos hle hstatus
    rw [s.compact_toExternal (hkept v hpos hle hstatus)]

/-- In all states that are reached, the tables are inverse to each other on the active variables,
and the test for auxiliary variables is about the external variable of an internal one, before and
after compacting. -/
theorem aux_stable (aux : Finset Nat) (h : Reachable s) :
  AuxStable aux s ∧ Renumbered aux s
  := ⟨h.inv.auxStable aux, h.inv.renumbered aux⟩

/-- The first variable is eliminated and forgotten, and gets a new internal variable later. -/
def reinternalized : VariableMap :=
  (((empty.internalize 1).2.internalize (-2)).2.setStatus 1 .eliminated).compact.internalize 1 |>.2

/-- The internal variables of 1 and 2 have changed their places, and 2 is still the auxiliary one.
-/
theorem aux_stable_reinternalized :
  (reinternalized.toInternal 1 = 2 ∧ reinternalized.toInternal 2 = 1)
    ∧ AuxStable {2} reinternalized ∧ Renumbered {2} reinternalized
  := by
  refine ⟨by decide, aux_stable {2} ?_⟩
  have h₁ : Reachable (empty.internalize 1).2 := .step .empty (.internalize _ 1)
  have h₂ : Reachable ((empty.internalize 1).2.internalize (-2)).2 := .step h₁ (.internalize _ (-2))
  have h₃ := h₂.step (.mark_eliminated _ 1 (by decide))
  have h₄ := h₃.step (.compact _ (by decide))
  exact h₄.step (.internalize _ 1)

end VariableMap

end Cadical
