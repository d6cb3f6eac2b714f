import Mathlib.Data.List.TakeWhile
import Mathlib.Data.List.Induction
import IgnoreGates.CnfTools.GateAnalyzer

/-!
# The input literals of a gate

`getInputLiterals` merges sorted clauses.  When the merge reaches the end of the literals that
it has collected, the rest of the clause is copied, without the literal that comes next behind
the literals up to `output`.  This literal is `output`, unless the merge has passed it before:
then an input is skipped.
-/

namespace CnfTools

namespace Analyzer

/-- The loop of `getInputLiterals` over the clauses. -/
def inputLiterals (output : Lit) (clauses : List Cl) : List Lit :=
  clauses.foldl (mergeInputs output) []

theorem getInputLiterals_eq (F : CNFFormula) (output : Lit) (clauses : For) :
  getInputLiterals F output clauses = inputLiterals output (clauses.map F.deref)
  := by
  rw [getInputLiterals, inputLiterals, List.foldl_map]

/-- The literals that occur in some clause, without `output`. -/
def IsInput (output : Lit) (clauses : List Cl) (l : Lit) : Prop :=
  l ≠ output ∧ ∃ c ∈ clauses, l ∈ c

/-! ### One clause -/

/-- The list is split before its first literal that is not below `it`. -/
theorem split_lt (it : Lit) (inp : List Lit) :
  (inp.dropWhile (· < it) = [] ∧ ∀ p ∈ inp, p < it)
    ∨ ∃ below p above, inp = below ++ p :: above ∧ inp.takeWhile (· < it) = below
      ∧ inp.dropWhile (· < it) = p :: above ∧ (∀ q ∈ below, q < it) ∧ ¬ p < it
  := by
  cases hdrop : inp.dropWhile (· < it) with
  | nil =>
      left
      refine ⟨rfl, ?_⟩
      intro p hp
      simpa using List.dropWhile_eq_nil_iff.mp hdrop p hp
  | cons p above =>
      right
      refine ⟨inp.takeWhile (· < it), p, above, ?_, rfl, rfl, ?_, ?_⟩
      · rw [← hdrop, List.takeWhile_append_dropWhile]
      · intro q hq
        simpa using List.mem_takeWhile_imp hq
      · have hne : inp.dropWhile (· < it) ≠ [] := by
          rw [hdrop]
          exact List.cons_ne_nil p above
        have hhead := List.head_dropWhile_not (fun q => decide (q < it)) hne
        simpa [hdrop] using hhead

/-- The literal comes behind `output`, and is the first input of the clause above `inp`. -/
def SkipsAbove (output : Lit) (inp : List Lit) (c : Cl) (l : Lit) : Prop :=
  output < l ∧ (∀ p ∈ inp, p < l) ∧ ∀ k ∈ c, k ≠ output → (∀ p ∈ inp, p < k) → l ≤ k

/-- At the end of `inp`, with the next literal below `output`, the rest of the clause is copied
without `output`. -/
theorem copy_below {output it : Lit} {inp : List Lit} {clause : Cl} (hinp : inp.Pairwise (· < ·))
    (hc : (it :: clause).Pairwise (· < ·)) (hall : ∀ p ∈ inp, p < it) (hlt : it < output)
    (hout : output ∈ clause) :
  (inp ++ (it :: clause).takeWhile (· < output)
      ++ ((it :: clause).dropWhile (· < output)).tail).Pairwise (· < ·)
    ∧ ∀ l, l ∈ inp ++ (it :: clause).takeWhile (· < output)
        ++ ((it :: clause).dropWhile (· < output)).tail
      ↔ l ∈ inp ∨ (l ∈ it :: clause ∧ l ≠ output ∧ ¬ SkipsAbove output inp (it :: clause) l)
  := by
  obtain ⟨-, hbelow⟩ | ⟨below, p, above, heq, htake, hdrop, hbelow, hp⟩ :=
    split_lt output (it :: clause)
  · exact absurd (hbelow output (List.mem_cons_of_mem it hout)) (Nat.lt_irrefl _)
  · have hc' := hc
    rw [heq, List.pairwise_append, List.pairwise_cons] at hc'
    have hpout : p = output := by
      have hmem : output ∈ below ++ p :: above := heq ▸ List.mem_cons_of_mem it hout
      obtain hmem | hmem := List.mem_append.mp hmem
      · exact absurd (hbelow output hmem) (Nat.lt_irrefl _)
      · obtain hmem | hmem := List.mem_cons.mp hmem
        · exact hmem.symm
        · exact absurd (hc'.2.1.1 output hmem) hp
    subst hpout
    rw [htake, hdrop, List.tail_cons]
    have hitle : ∀ l ∈ it :: clause, it.x ≤ l.x := by
      intro l hl
      obtain rfl | hl := List.mem_cons.mp hl
      · exact le_rfl
      · exact le_of_lt (List.rel_of_pairwise_cons hc hl)
    have hsub : (below ++ above).Sublist (it :: clause) := by
      rw [heq]
      exact (List.sublist_cons_self p above).append_left below
    constructor
    · rw [List.append_assoc, List.pairwise_append]
      refine ⟨hinp, hc.sublist hsub, ?_⟩
      intro k hk l hl
      exact lt_of_lt_of_le (hall k hk) (hitle l (hsub.subset hl))
    · intro l
      have hskip : ¬ SkipsAbove p inp (it :: clause) l := by
        rintro ⟨hpl, -, hfirst⟩
        have hle := hfirst it List.mem_cons_self (by
          rintro rfl
          exact Nat.lt_irrefl _ hlt) hall
        exact absurd (lt_of_lt_of_le hpl hle) (Nat.lt_asymm hlt)
      have hp' : p ∉ below ++ above := by
        intro hmem
        obtain hmem | hmem := List.mem_append.mp hmem
        · exact Nat.lt_irrefl _ (hbelow p hmem)
        · exact Nat.lt_irrefl _ (hc'.2.1.1 p hmem)
      rw [List.append_assoc, List.mem_append, heq, List.mem_append, List.mem_append,
        List.mem_cons, ← heq]
      grind

/-- At the end of `inp`, with the next literal above `output`, this literal is skipped and the
rest of the clause is copied. -/
theorem copy_above {output it : Lit} {inp : List Lit} {clause : Cl} (hinp : inp.Pairwise (· < ·))
    (hc : (it :: clause).Pairwise (· < ·)) (hall : ∀ p ∈ inp, p < it) (hlt : output < it) :
  (inp ++ (it :: clause).takeWhile (· < output)
      ++ ((it :: clause).dropWhile (· < output)).tail).Pairwise (· < ·)
    ∧ ∀ l, l ∈ inp ++ (it :: clause).takeWhile (· < output)
        ++ ((it :: clause).dropWhile (· < output)).tail
      ↔ l ∈ inp ∨ (l ∈ it :: clause ∧ l ≠ output ∧ ¬ SkipsAbove output inp (it :: clause) l)
  := by
  have hnlt : ¬ it < output := Nat.lt_asymm hlt
  rw [List.takeWhile_cons_of_neg (by simpa using hnlt),
    List.dropWhile_cons_of_neg (by simpa using hnlt), List.tail_cons, List.append_nil]
  obtain ⟨hit, hclause⟩ := List.pairwise_cons.mp hc
  constructor
  · rw [List.pairwise_append]
    refine ⟨hinp, hclause, ?_⟩
    intro k hk l hl
    exact Nat.lt_trans (hall k hk) (hit l hl)
  · intro l
    have hne : it ≠ output := by
      rintro rfl
      exact Nat.lt_irrefl _ hlt
    constructor
    · intro hl
      obtain hl | hl := List.mem_append.mp hl
      · exact Or.inl hl
      · have hitl := hit l hl
        refine Or.inr ⟨List.mem_cons_of_mem it hl, ?_, ?_⟩
        · rintro rfl
          exact Nat.lt_asymm hlt hitl
        · rintro ⟨-, -, hfirst⟩
          exact absurd hitl (Nat.not_lt_of_le (hfirst it List.mem_cons_self hne hall))
    · rintro (hl | ⟨hl, -, hskip⟩)
      · exact List.mem_append_left clause hl
      · obtain rfl | hl := List.mem_cons.mp hl
        · refine absurd ⟨hlt, hall, ?_⟩ hskip
          intro k hk _ _
          obtain rfl | hk := List.mem_cons.mp hk
          · exact Nat.le_refl _
          · exact Nat.le_of_lt (hit k hk)
        · exact List.mem_append_right inp hl

/-- The merge adds the inputs of the clause, but for one that it skips. -/
theorem mergeInputs_spec {output : Lit} {inp : List Lit} {c : Cl} (hinp : inp.Pairwise (· < ·))
    (hc : c.Pairwise (· < ·)) (hout : output ∈ c ∨ ∀ l ∈ c, output < l) :
  (mergeInputs output inp c).Pairwise (· < ·)
    ∧ ∀ l, l ∈ mergeInputs output inp c
      ↔ l ∈ inp ∨ (l ∈ c ∧ l ≠ output ∧ ¬ SkipsAbove output inp c l)
  := by
  induction c generalizing inp with
  | nil => exact ⟨hinp, fun l => by simp [mergeInputs]⟩
  | cons it clause ih =>
      obtain ⟨hit, hclause⟩ := List.pairwise_cons.mp hc
      rw [mergeInputs]
      split
      · next heq =>
          subst heq
          obtain ⟨hsorted, hmem⟩ := ih hinp hclause (Or.inr hit)
          refine ⟨hsorted, ?_⟩
          intro l
          rw [hmem]
          simp only [SkipsAbove, Lit.lt_iff, Lit.le_iff] at *
          grind
      · next hne =>
          have hout' : output ∈ clause ∨ ∀ l ∈ clause, output < l := by
            obtain hout | hout := hout
            · exact Or.inl ((List.mem_cons.mp hout).resolve_left (Ne.symm hne))
            · exact Or.inr (fun l hl => hout l (List.mem_cons_of_mem it hl))
          obtain ⟨hdrop, hall⟩ | ⟨below, p, above, rfl, htake, hdrop, hbelow, hp⟩ :=
            split_lt it inp
          · rw [hdrop]
            obtain hlt | hlt := Nat.lt_or_gt_of_ne (fun heq => hne (Lit.ext heq))
            · have hin : output ∈ it :: clause := by
                obtain hin | habove := hout
                · exact hin
                · exact absurd (habove it List.mem_cons_self) (Nat.lt_asymm hlt)
              exact copy_below hinp hc hall hlt
                ((List.mem_cons.mp hin).resolve_left (Ne.symm hne))
            · exact copy_above hinp hc hall hlt
          · rw [hdrop, htake]
            obtain ⟨hbelow', hpabove, hcross⟩ := List.pairwise_append.mp hinp
            obtain ⟨hpa, habove⟩ := List.pairwise_cons.mp hpabove
            simp only
            split
            · next hlt =>
                obtain ⟨hsorted, hmem⟩ := ih hpabove hclause hout'
                constructor
                · rw [List.pairwise_append, List.pairwise_cons]
                  simp only [hmem, Lit.lt_iff] at *
                  grind
                · intro l
                  simp only [List.mem_append, List.mem_cons, hmem, SkipsAbove, Lit.lt_iff,
                    Lit.le_iff] at *
                  grind
            · next hnlt =>
                obtain ⟨hsorted, hmem⟩ := ih habove hclause hout'
                have heq : p = it := Lit.ext (by
                  rw [Lit.lt_iff] at hp hnlt
                  omega)
                subst heq
                constructor
                · rw [List.pairwise_append, List.pairwise_cons]
                  simp only [hmem, Lit.lt_iff] at *
                  grind
                · intro l
                  simp only [List.mem_append, List.mem_cons, hmem, SkipsAbove, Lit.lt_iff,
                    Lit.le_iff] at *
                  grind

/-! ### All clauses -/

/-- Above the literals with numbers below `bound`, the first input of the clause is `l`, and it
comes behind `output`. -/
def Skips (output : Lit) (bound : Nat) (c : Cl) (l : Lit) : Prop :=
  output < l ∧ bound ≤ l.x ∧ ∀ k ∈ c, k ≠ output → bound ≤ k.x → l ≤ k

instance (output : Lit) (bound : Nat) (c : Cl) (l : Lit) : Decidable (Skips output bound c l) :=
  inferInstanceAs (Decidable (output < l ∧ bound ≤ l.x
    ∧ ∀ k ∈ c, k ≠ output → bound ≤ k.x → l ≤ k))

/-- The inputs of the clause that are not skipped. -/
def kept (output : Lit) (bound : Nat) (c : Cl) : Cl :=
  c.filter (fun l => l ≠ output ∧ ¬ Skips output bound c l)

/-- The least number above the literals and not below `bound`. -/
def raise (bound : Nat) (c : Cl) : Nat :=
  c.foldl (fun b l => max b (l.x + 1)) bound

/-- The bound of the inputs of the clauses that are not skipped. -/
def reach (output : Lit) (clauses : List Cl) : Nat :=
  clauses.foldl (fun b c => raise b (kept output b c)) 0

/-- Every input occurs in a clause that does not skip it. -/
def Covered (output : Lit) (clauses : List Cl) : Prop :=
  ∀ l, IsInput output clauses l →
    ∃ pre c post, clauses = pre ++ c :: post ∧ l ∈ c ∧ ¬ Skips output (reach output pre) c l

/-- The bound tells which literals are above all literals of the list. -/
def Bounds (bound : Nat) (inp : List Lit) : Prop :=
  ∀ x, bound ≤ x ↔ ∀ p ∈ inp, p.x < x

theorem raise_spec (c : Cl) (bound x : Nat) :
  raise bound c ≤ x ↔ bound ≤ x ∧ ∀ l ∈ c, l.x < x
  := by
  induction c generalizing bound with
  | nil => simp [raise]
  | cons l c ih =>
      have hstep : raise bound (l :: c) = raise (max bound (l.x + 1)) c := rfl
      rw [hstep, ih, Nat.max_le, List.forall_mem_cons, and_assoc]
      rfl

theorem skips_iff {output : Lit} {inp : List Lit} {c : Cl} {bound : Nat}
    (h : Bounds bound inp) (l : Lit) :
  Skips output bound c l ↔ SkipsAbove output inp c l
  := by
  rw [Skips, SkipsAbove, h]
  apply and_congr_right
  intro _
  apply and_congr_right
  intro _
  apply forall₃_congr
  intro k _ _
  rw [h]
  rfl

/-- The merge of the clauses: its literals are the inputs that some clause does not skip. -/
theorem inputLiterals_spec {output : Lit} {clauses : List Cl}
    (hsorted : ∀ c ∈ clauses, c.Pairwise (· < ·)) (hout : ∀ c ∈ clauses, output ∈ c) :
  (inputLiterals output clauses).Pairwise (· < ·)
    ∧ Bounds (reach output clauses) (inputLiterals output clauses)
    ∧ ∀ l, l ∈ inputLiterals output clauses ↔ l ≠ output ∧ ∃ pre c post,
      clauses = pre ++ c :: post ∧ l ∈ c ∧ ¬ Skips output (reach output pre) c l
  := by
  induction clauses using List.reverseRecOn with
  | nil =>
      refine ⟨List.Pairwise.nil, ?_, ?_⟩
      · intro x
        simp [reach, inputLiterals]
      · intro l
        simp [inputLiterals]
  | append_singleton clauses d ih =>
      have hmem {c : Cl} (hc : c ∈ clauses) : c ∈ clauses ++ [d] := List.mem_append_left [d] hc
      have hd : d ∈ clauses ++ [d] := List.mem_append_right clauses (List.mem_singleton_self d)
      obtain ⟨hinp, hbounds, hin⟩ :=
        ih (fun c hc => hsorted c (hmem hc)) (fun c hc => hout c (hmem hc))
      obtain ⟨hinp', hin'⟩ := mergeInputs_spec hinp (hsorted d hd) (Or.inl (hout d hd))
      have hstep : inputLiterals output (clauses ++ [d])
          = mergeInputs output (inputLiterals output clauses) d := by
        rw [inputLiterals, List.foldl_append]
        rfl
      have hreach : reach output (clauses ++ [d])
          = raise (reach output clauses) (kept output (reach output clauses) d) := by
        rw [reach, List.foldl_append]
        rfl
      simp only [← skips_iff hbounds] at hin'
      rw [hstep, hreach]
      refine ⟨hinp', ?_, ?_⟩
      · intro x
        rw [raise_spec, hbounds]
        simp only [hin', kept, List.mem_filter, decide_eq_true_eq]
        constructor
        · rintro ⟨hold, hnew⟩ l (hl | hl)
          · exact hold l hl
          · exact hnew l hl
        · intro h
          exact ⟨fun l hl => h l (Or.inl hl), fun l hl => h l (Or.inr hl)⟩
      · intro l
        rw [hin', hin]
        constructor
        · rintro (⟨hne, pre, c, post, rfl, hl, hskip⟩ | ⟨hl, hne, hskip⟩)
          · exact ⟨hne, pre, c, post ++ [d], by simp, hl, hskip⟩
          · exact ⟨hne, clauses, d, [], rfl, hl, hskip⟩
        · rintro ⟨hne, pre, c, post, heq, hl, hskip⟩
          obtain rfl | ⟨post, e, rfl⟩ := List.eq_nil_or_concat' post
          · obtain ⟨rfl, hcd⟩ := List.append_inj' heq rfl
            rw [← List.singleton_inj.mp hcd] at hl hskip
            exact Or.inr ⟨hl, hne, hskip⟩
          · rw [← List.cons_append, ← List.append_assoc] at heq
            obtain ⟨rfl, -⟩ := List.append_inj' heq rfl
            exact Or.inl ⟨hne, pre, c, post, rfl, hl, hskip⟩

/-- On sorted clauses with `output`, the merge is sorted.  It consists of all inputs if and only
if every input occurs in a clause that does not skip it. -/
theorem inputLiterals_iff {output : Lit} {clauses : List Cl}
    (hsorted : ∀ c ∈ clauses, c.Pairwise (· < ·)) (hout : ∀ c ∈ clauses, output ∈ c) :
  ((inputLiterals output clauses).Pairwise (· < ·)
    ∧ ∀ l, l ∈ inputLiterals output clauses ↔ IsInput output clauses l)
    ↔ Covered output clauses
  := by
  obtain ⟨hinp, -, hmem⟩ := inputLiterals_spec hsorted hout
  constructor
  · rintro ⟨-, hall⟩ l hl
    exact ((hmem l).mp ((hall l).mpr hl)).2
  · intro hcovered
    refine ⟨hinp, ?_⟩
    intro l
    rw [hmem]
    constructor
    · rintro ⟨hne, pre, c, post, rfl, hl, -⟩
      exact ⟨hne, c, List.mem_append_right pre List.mem_cons_self, hl⟩
    · intro hl
      exact ⟨hl.1, hcovered l hl⟩

/-- On sorted clauses with `output`, the result of `getInputLiterals` is sorted and consists of
all inputs if and only if every input occurs in a clause that does not skip it; so is the merge
of clauses that are not those of a formula. -/
theorem getInputLiterals_iff {output : Lit} {clauses : List Cl}
    (hsorted : ∀ c ∈ clauses, c.Pairwise (· < ·)) (hout : ∀ c ∈ clauses, output ∈ c) :
  (((inputLiterals output clauses).Pairwise (· < ·)
      ∧ ∀ l, l ∈ inputLiterals output clauses ↔ IsInput output clauses l)
      ↔ Covered output clauses)
    ∧ ∀ (F : CNFFormula) (ptrs : For), ptrs.map F.deref = clauses →
      (((getInputLiterals F output ptrs).Pairwise (· < ·)
        ∧ ∀ l, l ∈ getInputLiterals F output ptrs ↔ IsInput output clauses l)
        ↔ Covered output clauses)
  := by
  refine ⟨inputLiterals_iff hsorted hout, ?_⟩
  intro F ptrs hptrs
  rw [getInputLiterals_eq, hptrs]
  exact inputLiterals_iff hsorted hout

/-- A formula with one clause. -/
def oneClause : CNFFormula :=
  CNFFormula.readDimacs [[1, 2, 3]]

/-- The inputs of the clause are found when the output is its last literal. -/
theorem getInputLiterals_iff_oneClause :
  (getInputLiterals oneClause ⟨6⟩ [0]).Pairwise (· < ·)
    ∧ ∀ l, l ∈ getInputLiterals oneClause ⟨6⟩ [0] ↔ IsInput ⟨6⟩ [[⟨2⟩, ⟨4⟩, ⟨6⟩]] l
  := by
  apply ((getInputLiterals_iff (by decide) (by decide)).2 oneClause [0] (by decide +kernel)).mpr
  rintro l ⟨-, c, hc, hl⟩
  obtain rfl := List.mem_singleton.mp hc
  refine ⟨[], _, [], rfl, hl, ?_⟩
  rintro ⟨habove, -⟩
  revert l
  decide

/-- The first input is lost in the clause of the literals `2`, `4` and `6` with the output
`2`. -/
theorem not_inputLiterals :
  (∀ c ∈ [[(⟨2⟩ : Lit), ⟨4⟩, ⟨6⟩]], c.Pairwise (· < ·) ∧ (⟨2⟩ : Lit) ∈ c)
    ∧ inputLiterals ⟨2⟩ [[⟨2⟩, ⟨4⟩, ⟨6⟩]] = [⟨6⟩]
    ∧ IsInput ⟨2⟩ [[⟨2⟩, ⟨4⟩, ⟨6⟩]] ⟨4⟩ ∧ ⟨4⟩ ∉ inputLiterals ⟨2⟩ [[⟨2⟩, ⟨4⟩, ⟨6⟩]]
  := by
  refine ⟨by decide, by decide, ⟨by decide, ?_⟩, by decide⟩
  exact ⟨_, List.mem_singleton_self _, by decide⟩

end Analyzer

end CnfTools
