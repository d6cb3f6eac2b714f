import Mathlib.Data.Finset.Insert
import Mathlib.Data.List.Nodup
import Mathlib.Data.List.MinMax
import IgnoreGates.Logic.Implication

/-!
# The trail of the search

A search state consists of the trail of assigned literals, the level and the reason of each
variable, and the current level.  The states are built by decisions, assumptions and pseudo
decision levels, by literals that clauses or units force, and by backtracking; literals that
stay on the trail when the search backtracks keep their order.
-/

namespace Cadical

open Logic

/-- An internal literal. -/
@[ext]
structure Lit where
  int : Int
  ne_zero : int ≠ 0
  deriving DecidableEq

namespace Lit

/-- The literal that a number stands for.  There is no literal zero. -/
def ofInt (n : Int) : Lit :=
  if h : n = 0 then ⟨1, Int.one_ne_zero⟩ else ⟨n, h⟩

/-- `vidx`: the index of the variable. -/
def vidx (l : Lit) : Nat :=
  l.int.natAbs

instance : Literal Lit Nat where
  var := vidx
  sign := fun l => l.int < 0
  neg := fun l => ⟨-l.int, by simpa using l.ne_zero⟩
  var_neg := fun l => Int.natAbs_neg l.int
  sign_neg := by
    rintro ⟨l, hl⟩
    rw [Bool.eq_not, ne_eq, decide_eq_decide]
    change ¬ (-l < 0 ↔ l < 0)
    omega
  ext := by
    rintro ⟨k, hk⟩ ⟨l, hl⟩ hvar hsign
    apply Lit.ext
    simp only [decide_eq_decide] at hsign
    simp only [vidx] at hvar
    change k = l
    omega

instance : Neg Lit :=
  ⟨Literal.neg⟩

@[simp]
theorem neg_neg (l : Lit) :
  - -l = l
  := Literal.neg_neg l

@[simp]
theorem vidx_neg (l : Lit) :
  (-l).vidx = l.vidx
  := Literal.var_neg l

theorem neg_ne (l : Lit) :
  -l ≠ l
  := Literal.neg_ne l

/-- Literals with the same index are equal or complementary. -/
theorem eq_or_eq_neg {k l : Lit} (h : k.vidx = l.vidx) :
  k = l ∨ k = -l
  := Literal.eq_or_eq_neg h

end Lit

/-- `External`: the auxiliary variables, and the external variable of an index. -/
structure External where
  aux : Finset Nat
  i2e : Nat → Nat

/-- `is_aux` for the external variable of an index. -/
def External.isAuxIdx (e : External) (idx : Nat) : Bool :=
  e.i2e idx ∈ e.aux

/-- `external->is_aux(i2e[vidx(lit)])`. -/
def External.isAux (e : External) (lit : Lit) : Bool :=
  e.isAuxIdx lit.vidx

/-- `struct Var`. -/
structure Var where
  level : Nat
  reason : Option (List Lit)

/-- The state of the search. -/
structure Search where
  trail : List Lit
  vtab : Nat → Var
  level : Nat

/-- The argument `reason` of `search_assign`: zero, `decision_reason` or a clause. -/
inductive Reason where
  | unit
  | decision
  | clause (c : List Lit)

namespace Search

/-- The state at the beginning. -/
def init : Search where
  trail := []
  vtab := fun _ => { level := 0, reason := none }
  level := 0

variable (s : Search)

def var (lit : Lit) : Var :=
  s.vtab lit.vidx

@[simp]
theorem var_neg (lit : Lit) :
  s.var (-lit) = s.var lit
  := by
  rw [var, var, Lit.vidx_neg]

/-- Neither the literal nor its complement is on the trail. -/
def Unassigned (lit : Lit) : Prop :=
  ∀ x ∈ s.trail, x.vidx ≠ lit.vidx

instance (lit : Lit) : Decidable (s.Unassigned lit) :=
  inferInstanceAs (Decidable (∀ x ∈ s.trail, x.vidx ≠ lit.vidx))

/-- The largest level of the literals other than `lit`.  Without `opts.chrono` this is the
current level, and it is not computed. -/
def assignmentLevel (lit : Lit) (reason : List Lit) : Nat :=
  (reason.filter (· ≠ lit)).foldl (fun res other => max res (s.var other).level) 0

/-- The level that is stored for the literal. -/
def litLevel (lit : Lit) : Reason → Nat
  | .unit => 0
  | .decision => s.level
  | .clause c => s.assignmentLevel lit c

/-- The reason that is stored for the literal. -/
def litReason (lit : Lit) : Reason → Option (List Lit)
  | .unit => none
  | .decision => none
  | .clause c => if s.assignmentLevel lit c = 0 then none else some c

def searchAssign (lit : Lit) (reason : Reason) : Search :=
  { s with
    trail := s.trail ++ [lit]
    vtab := Function.update s.vtab lit.vidx
      { level := s.litLevel lit reason, reason := s.litReason lit reason } }

/-- `level++`, also for the pseudo decision levels. -/
def newLevel : Search :=
  { s with level := s.level + 1 }

def searchAssumeDecision (lit : Lit) : Search :=
  s.newLevel.searchAssign lit .decision

/-- `backtrack`: the literals up to the level stay on the trail. -/
def backtrack (newLevel : Nat) : Search :=
  { s with
    trail := s.trail.filter (fun lit => (s.var lit).level ≤ newLevel)
    level := newLevel }

/-- One step of building the trail. -/
inductive Step : Search → Search → Prop
  | decide (s : Search) {lit : Lit} (hlit : s.Unassigned lit) :
      Step s (s.searchAssumeDecision lit)
  | pseudo (s : Search) : Step s s.newLevel
  | unit (s : Search) {lit : Lit} (hlit : s.Unassigned lit) : Step s (s.searchAssign lit .unit)
  | imply (s : Search) {lit : Lit} {c : List Lit} (hlit : s.Unassigned lit) (hmem : lit ∈ c)
      (hfalse : ∀ k ∈ c, k ≠ lit → -k ∈ s.trail) : Step s (s.searchAssign lit (.clause c))
  | backtrack (s : Search) {newLevel : Nat} (h : newLevel ≤ s.level) :
      Step s (s.backtrack newLevel)

/-- The states that the search can reach. -/
inductive Reachable : Search → Prop
  | init : Reachable init
  | step {s s' : Search} (h : Reachable s) (hstep : Step s s') : Reachable s'

/-! ### The invariant -/

/-- What holds on every trail: a reason contains the literal, and its other literals are
false, were assigned before, and one of them is on the level of the literal; a literal above
root level without a reason is the first one on its level. -/
structure Inv : Prop where
  nodup : (s.trail.map Lit.vidx).Nodup
  level_le : ∀ x ∈ s.trail, (s.var x).level ≤ s.level
  level_pos : ∀ x ∈ s.trail, ∀ r, (s.var x).reason = some r → 0 < (s.var x).level
  reason_mem : ∀ x ∈ s.trail, ∀ r, (s.var x).reason = some r → x ∈ r
  before : ∀ pre x post r, s.trail = pre ++ x :: post → (s.var x).reason = some r →
    ∀ k ∈ r, k ≠ x → -k ∈ pre ∧ (s.var k).level ≤ (s.var x).level
  same_level : ∀ x ∈ s.trail, ∀ r, (s.var x).reason = some r →
    ∃ k ∈ r, k ≠ x ∧ (s.var k).level = (s.var x).level
  first : ∀ pre x post, s.trail = pre ++ x :: post → (s.var x).reason = none →
    0 < (s.var x).level → ∀ y ∈ pre, (s.var y).level ≠ (s.var x).level

variable {s}

/-- The fold is the greatest of the start value and the values of the function. -/
theorem foldl_max_spec {α : Type*} (f : α → Nat) (l : List α) (n : Nat) :
  n ≤ l.foldl (fun m a => max m (f a)) n ∧ (∀ a ∈ l, f a ≤ l.foldl (fun m a => max m (f a)) n)
    ∧ (l.foldl (fun m a => max m (f a)) n = n
      ∨ ∃ a ∈ l, f a = l.foldl (fun m a => max m (f a)) n)
  := by
  induction l generalizing n with
  | nil => simp
  | cons a l ih =>
      obtain ⟨hle, hall, heq⟩ := ih (max n (f a))
      rw [List.foldl_cons]
      refine ⟨(le_max_left n (f a)).trans hle, ?_, ?_⟩
      · intro b hb
        obtain rfl | hb := List.mem_cons.mp hb
        · exact (le_max_right n (f b)).trans hle
        · exact hall b hb
      · obtain heq | ⟨b, hb, heq⟩ := heq
        · obtain hmax | hmax := max_choice n (f a)
          · left
            rw [heq, hmax]
          · right
            use a, List.mem_cons_self
            rw [heq, hmax]
        · exact Or.inr ⟨b, List.mem_cons_of_mem a hb, heq⟩

/-- The assignment level of a literal is at least the level of every other literal of its reason. -/
theorem le_assignmentLevel {lit k : Lit} {c : List Lit} (hk : k ∈ c) (hne : k ≠ lit) :
  (s.var k).level ≤ s.assignmentLevel lit c
  := by
  apply (foldl_max_spec (fun other => (s.var other).level) _ 0).2.1
  rw [List.mem_filter]
  exact ⟨hk, by simpa using hne⟩

/-- An assignment level above zero is the level of another literal of the reason. -/
theorem exists_assignmentLevel {lit : Lit} {c : List Lit} (h : 0 < s.assignmentLevel lit c) :
  ∃ k ∈ c, k ≠ lit ∧ (s.var k).level = s.assignmentLevel lit c
  := by
  obtain hzero | ⟨k, hk, heq⟩ := (foldl_max_spec (fun other => (s.var other).level)
    (c.filter (· ≠ lit)) 0).2.2
  · rw [assignmentLevel, hzero] at h
    exact absurd h (Nat.lt_irrefl 0)
  · rw [List.mem_filter] at hk
    exact ⟨k, hk.1, by simpa using hk.2, heq⟩

/-- The assignment level is at most a bound on the levels of the other literals. -/
theorem assignmentLevel_le {lit : Lit} {c : List Lit} {n : Nat}
    (h : ∀ k ∈ c, k ≠ lit → (s.var k).level ≤ n) :
  s.assignmentLevel lit c ≤ n
  := by
  obtain hzero | hpos := Nat.eq_zero_or_pos (s.assignmentLevel lit c)
  · omega
  · obtain ⟨k, hk, hne, heq⟩ := exists_assignmentLevel hpos
    rw [← heq]
    exact h k hk hne

/-- Assigning an unassigned literal leaves the data of the literals on the trail as it is. -/
theorem searchAssign_var_of_mem {lit x : Lit} (hlit : s.Unassigned lit) (reason : Reason)
    (hx : x ∈ s.trail) :
  (s.searchAssign lit reason).var x = s.var x
  := Function.update_of_ne (hlit x hx) _ _

/-- The literal that is assigned gets its level and its reason. -/
theorem searchAssign_var_self (lit : Lit) (reason : Reason) :
  (s.searchAssign lit reason).var lit
    = { level := s.litLevel lit reason, reason := s.litReason lit reason }
  := Function.update_self _ _ _

/-- The last literal of a longer trail. -/
theorem append_singleton_eq {α : Type*} {l pre post : List α} {a x : α}
    (h : l ++ [a] = pre ++ x :: post) :
  (pre = l ∧ x = a ∧ post = []) ∨ ∃ post', l = pre ++ x :: post' ∧ post = post' ++ [a]
  := by
  obtain rfl | ⟨post', b, rfl⟩ := List.eq_nil_or_concat post
  · left
    obtain ⟨rfl, hx⟩ := List.append_inj' h rfl
    exact ⟨rfl, (List.singleton_inj.mp hx).symm, rfl⟩
  · right
    rw [List.concat_eq_append, ← List.cons_append, ← List.append_assoc] at h
    obtain ⟨rfl, hb⟩ := List.append_inj' h rfl
    rw [List.singleton_inj.mp hb]
    exact ⟨post', rfl, List.concat_eq_append⟩

/-- Assigning a literal keeps the invariant. -/
theorem Inv.searchAssign (h : s.Inv) {lit : Lit} (hlit : s.Unassigned lit) {reason : Reason}
    (hclause : ∀ c, reason = .clause c → lit ∈ c ∧ ∀ k ∈ c, k ≠ lit → -k ∈ s.trail)
    (hdecision : reason = .decision → ∀ x ∈ s.trail, (s.var x).level ≠ s.level) :
  (s.searchAssign lit reason).Inv
  := by
  have hold {x : Lit} (hx : x ∈ s.trail) := searchAssign_var_of_mem hlit reason hx
  have hneg {k : Lit} (hk : -k ∈ s.trail) : (s.searchAssign lit reason).var k = s.var k := by
    rw [← var_neg, hold hk, var_neg]
  have hmem {pre post : List Lit} {x : Lit} (hsplit : s.trail = pre ++ x :: post) :
      x ∈ s.trail := by
    rw [hsplit]
    exact List.mem_append_right pre List.mem_cons_self
  have hreason {r : List Lit} (hr : ((s.searchAssign lit reason).var lit).reason = some r) :
      reason = .clause r ∧ 0 < s.assignmentLevel lit r := by
    rw [searchAssign_var_self] at hr
    cases reason with
    | unit => cases hr
    | decision => cases hr
    | clause c =>
        simp only [litReason] at hr
        split at hr
        · cases hr
        · next hlevel =>
            cases hr
            exact ⟨rfl, Nat.pos_of_ne_zero hlevel⟩
  refine ⟨?_, ?_, ?_, ?_, ?_, ?_, ?_⟩
  · change ((s.trail ++ [lit]).map Lit.vidx).Nodup
    rw [List.map_append, List.nodup_append']
    refine ⟨h.nodup, List.nodup_singleton _, ?_⟩
    rw [List.map_singleton, List.disjoint_singleton]
    intro hlitmem
    obtain ⟨x, hx, hvar⟩ := List.mem_map.mp hlitmem
    exact hlit x hx hvar
  · intro x hx
    obtain hx | hx := List.mem_append.mp hx
    · rw [hold hx]
      exact h.level_le x hx
    · rw [List.mem_singleton.mp hx, searchAssign_var_self]
      cases reason with
      | unit => exact Nat.zero_le _
      | decision => exact le_rfl
      | clause c =>
          apply assignmentLevel_le
          intro k hk hne
          rw [← var_neg]
          exact h.level_le _ ((hclause c rfl).2 k hk hne)
  · intro x hx r hr
    obtain hx | hx := List.mem_append.mp hx
    · rw [hold hx] at hr ⊢
      exact h.level_pos x hx r hr
    · obtain rfl := List.mem_singleton.mp hx
      obtain ⟨rfl, hpos⟩ := hreason hr
      rw [searchAssign_var_self]
      exact hpos
  · intro x hx r hr
    obtain hx | hx := List.mem_append.mp hx
    · rw [hold hx] at hr
      exact h.reason_mem x hx r hr
    · obtain rfl := List.mem_singleton.mp hx
      obtain ⟨rfl, -⟩ := hreason hr
      exact (hclause r rfl).1
  · intro pre x post r hsplit hr k hk hne
    obtain ⟨rfl, rfl, rfl⟩ | ⟨post', hsplit', -⟩ := append_singleton_eq hsplit
    · obtain ⟨rfl, -⟩ := hreason hr
      have hkmem := (hclause r rfl).2 k hk hne
      use hkmem
      rw [searchAssign_var_self, hneg hkmem]
      exact le_assignmentLevel hk hne
    · rw [hold (hmem hsplit')] at hr ⊢
      obtain ⟨hkpre, hle⟩ := h.before pre x post' r hsplit' hr k hk hne
      have hkmem : -k ∈ s.trail := by
        rw [hsplit']
        exact List.mem_append_left _ hkpre
      rw [hneg hkmem]
      exact ⟨hkpre, hle⟩
  · intro x hx r hr
    obtain hx | hx := List.mem_append.mp hx
    · rw [hold hx] at hr ⊢
      obtain ⟨k, hk, hne, heq⟩ := h.same_level x hx r hr
      refine ⟨k, hk, hne, ?_⟩
      obtain ⟨pre, post, hsplit⟩ := List.append_of_mem hx
      have hkpre := (h.before pre x post r hsplit hr k hk hne).1
      rw [hneg (by rw [hsplit]; exact List.mem_append_left _ hkpre), heq]
    · obtain rfl := List.mem_singleton.mp hx
      obtain ⟨rfl, hpos⟩ := hreason hr
      obtain ⟨k, hk, hne, heq⟩ := exists_assignmentLevel hpos
      refine ⟨k, hk, hne, ?_⟩
      rw [searchAssign_var_self, hneg ((hclause r rfl).2 k hk hne), heq]
      rfl
  · intro pre x post hsplit hr hpos y hy
    obtain ⟨rfl, rfl, rfl⟩ | ⟨post', hsplit', -⟩ := append_singleton_eq hsplit
    · rw [searchAssign_var_self] at hr hpos ⊢
      rw [hold hy]
      cases reason with
      | unit => exact absurd hpos (Nat.lt_irrefl 0)
      | decision => exact hdecision rfl y hy
      | clause c =>
          have hpos : 0 < s.assignmentLevel x c := hpos
          simp only [litReason] at hr
          rw [if_neg (Nat.ne_of_gt hpos)] at hr
          cases hr
    · rw [hold (hmem hsplit')] at hr hpos ⊢
      rw [hold (by rw [hsplit']; exact List.mem_append_left _ hy)]
      exact h.first pre x post' hsplit' hr hpos y hy

/-- A new decision level keeps the invariant. -/
theorem Inv.newLevel (h : s.Inv) :
  s.newLevel.Inv
  where
    nodup := h.nodup
    level_le := fun x hx => (h.level_le x hx).trans (Nat.le_succ _)
    level_pos := h.level_pos
    reason_mem := h.reason_mem
    before := h.before
    same_level := h.same_level
    first := h.first

/-- Backtracking keeps the invariant. -/
theorem Inv.backtrack (h : s.Inv) (n : Nat) :
  (s.backtrack n).Inv
  := by
  have hsplit {pre x post} (heq : (s.backtrack n).trail = pre ++ x :: post) :
      ∃ pre' post', s.trail = pre' ++ x :: post' ∧ (s.var x).level ≤ n
        ∧ pre = pre'.filter (fun lit => (s.var lit).level ≤ n) := by
    obtain ⟨pre', rest, hl, hpre, hrest⟩ := List.filter_eq_append_iff.mp heq
    obtain ⟨skipped, post', rfl, hskipped, hx, -⟩ := List.filter_eq_cons_iff.mp hrest
    refine ⟨pre' ++ skipped, post', by rw [hl, List.append_assoc], by simpa using hx, ?_⟩
    rw [List.filter_append, hpre, List.filter_eq_nil_iff.mpr hskipped, List.append_nil]
  refine ⟨?_, ?_, ?_, ?_, ?_, ?_, ?_⟩
  · exact h.nodup.sublist (List.filter_sublist.map Lit.vidx)
  · intro x hx
    have hle := (List.mem_filter.mp hx).2
    rwa [decide_eq_true_eq] at hle
  · intro x hx
    exact h.level_pos x (List.mem_of_mem_filter hx)
  · intro x hx
    exact h.reason_mem x (List.mem_of_mem_filter hx)
  · intro pre x post r heq hr k hk hne
    obtain ⟨pre', post', hl, hle, rfl⟩ := hsplit heq
    obtain ⟨hkpre, hkle⟩ := h.before pre' x post' r hl hr k hk hne
    refine ⟨?_, hkle⟩
    rw [List.mem_filter]
    refine ⟨hkpre, ?_⟩
    rw [decide_eq_true_eq, var_neg]
    exact hkle.trans hle
  · intro x hx
    exact h.same_level x (List.mem_of_mem_filter hx)
  · intro pre x post heq hr hpos y hy
    obtain ⟨pre', post', hl, -, rfl⟩ := hsplit heq
    exact h.first pre' x post' hl hr hpos y (List.mem_of_mem_filter hy)

/-- Every step keeps the invariant. -/
theorem Inv.step {s' : Search} (h : s.Inv) (hstep : Step s s') :
  s'.Inv
  := by
  cases hstep with
  | decide hlit =>
      apply h.newLevel.searchAssign hlit (by simp)
      intro _ x hx
      exact Nat.ne_of_lt (Nat.lt_succ_of_le (h.level_le x hx))
  | pseudo => exact h.newLevel
  | unit hlit => exact h.searchAssign hlit (by simp) (by simp)
  | imply hlit hmem hfalse =>
      apply h.searchAssign hlit _ (by simp)
      rintro c ⟨⟩
      exact ⟨hmem, hfalse⟩
  | backtrack => exact h.backtrack _

/-- The invariant holds in every reachable state. -/
theorem Reachable.inv (h : Reachable s) :
  s.Inv
  := by
  induction h with
  | init => refine ⟨List.nodup_nil, ?_, ?_, ?_, ?_, ?_, ?_⟩ <;> simp [Search.init]
  | step h hstep ih => exact ih.step hstep

end Search

end Cadical
