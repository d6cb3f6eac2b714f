import Mathlib.Data.Finset.Dedup
import IgnoreGates.CnfTools.GateStructure
import IgnoreGates.CnfTools.Ipasir
import IgnoreGates.Logic.Maxterm

/-!
# When a recorded gate determines its output

The patterns with one clause on a side determine the output of a gate.  Counting clauses
does so only for distinct clauses and a shift count below 64, and the semantic check only
when the clauses left over from earlier checks do not decide the query.  `Decisive` is this
condition on the clauses of the gate and on the solver at the time of the check; a recorded
gate determines its output exactly when it holds.
-/

namespace CnfTools

open Logic

/-- The clauses mention no variable zero, as for clauses read from a file. -/
def CNFFormula.Numbered (F : CNFFormula) : Prop :=
  ∀ c ∈ F.formula, ∀ l ∈ c, 0 < l.var

theorem CNFFormula.Numbered.var_pos {F : CNFFormula} (h : F.Numbered) {p : Ptr} {l : Lit}
    (hl : l ∈ F.deref p) :
  0 < l.var
  := by
  obtain hp | hp := F.deref_mem_or p
  · exact h _ hp l hl
  · rw [hp] at hl
    cases hl

theorem CNFFormula.Numbered.readClause {F : CNFFormula} (h : F.Numbered) {lits : List Lit}
    (hlits : ∀ l ∈ lits, 0 < l.var) :
  (F.readClause lits).Numbered
  := by
  rw [CNFFormula.readClause]
  split
  · exact h
  · next c hc =>
      intro d hd l hl
      obtain hd | hd := List.mem_append.mp hd
      · exact h d hd l hl
      · rw [List.mem_singleton.mp hd] at hl
        exact hlits l (((CNFFormula.sanitize_spec hc).2 l).mp hl)

/-- A formula read from a file mentions no variable zero: zeros end the clauses. -/
theorem CNFFormula.numbered_readDimacs {clauses : List (List Int)}
    (h : ∀ clause ∈ clauses, (0 : Int) ∉ clause) :
  (CNFFormula.readDimacs clauses).Numbered
  := by
  have hfold : ∀ F : CNFFormula, F.Numbered →
      (clauses.foldl (fun F clause => F.readClause (clause.map Lit.ofDimacs)) F).Numbered := by
    induction clauses with
    | nil => exact fun F hF => hF
    | cons c cs ih =>
        intro F hF
        apply ih (fun d hd => h d (List.mem_cons_of_mem c hd))
        apply hF.readClause
        intro l hl
        obtain ⟨i, hi, rfl⟩ := List.mem_map.mp hl
        rw [Lit.ofDimacs, Lit.ofVar_var]
        apply Int.natAbs_pos.mpr
        rintro rfl
        exact h c List.mem_cons_self hi
  exact hfold _ (fun c hc => absurd hc List.not_mem_nil)

namespace Analyzer

variable {env : Env} {F : CNFFormula}

/-! ### Inputs -/

theorem mem_inputVars {o : Lit} {clauses : For} {v : Nat} :
  v ∈ inputVars F o clauses ↔ ∃ p ∈ clauses, ∃ l ∈ F.deref p, l ≠ o ∧ l.var = v
  := by
  simp only [inputVars, List.mem_dedup, List.mem_map, List.mem_filter, List.mem_flatMap,
    decide_eq_true_eq]
  constructor
  · rintro ⟨l, ⟨⟨p, hp, hl⟩, hlo⟩, rfl⟩
    exact ⟨p, hp, l, hl, hlo, rfl⟩
  · rintro ⟨p, hp, l, hl, hlo, rfl⟩
    exact ⟨l, ⟨⟨p, hp, hl⟩, hlo⟩, rfl⟩

/-- Where the inputs are not rejected, both sides have the same input variables, and their
number is returned. -/
theorem constrainSameInputVariables_spec {o : Lit} {fwd bwd : For}
    (h : 0 < constrainSameInputVariables F o fwd bwd) :
  (∀ v, v ∈ inputVars F (~~~o) fwd ↔ v ∈ inputVars F o bwd)
    ∧ constrainSameInputVariables F o fwd bwd = (inputVars F (~~~o) fwd).toFinset.card
  := by
  have hcard : ∀ k ps, (inputVars F k ps).toFinset.card = (inputVars F k ps).length :=
    fun k ps => List.toFinset_card_of_nodup (List.nodup_dedup _)
  rw [constrainSameInputVariables] at h ⊢
  by_cases hsub : (inputVars F o bwd).any (· ∉ inputVars F (~~~o) fwd) = true
  · rw [if_pos hsub] at h
    exact absurd h (Nat.lt_irrefl 0)
  by_cases hlen : (inputVars F o bwd).length < (inputVars F (~~~o) fwd).length
  · rw [if_neg hsub, if_pos hlen] at h
    exact absurd h (Nat.lt_irrefl 0)
  rw [if_neg hsub, if_neg hlen, hcard]
  refine ⟨?_, rfl⟩
  have hsubset : (inputVars F o bwd).toFinset ⊆ (inputVars F (~~~o) fwd).toFinset := by
    intro v hv
    rw [List.mem_toFinset] at hv ⊢
    by_contra hnot
    apply hsub
    rw [List.any_eq_true]
    exact ⟨v, hv, decide_eq_true hnot⟩
  have heq := Finset.eq_of_subset_of_card_le hsubset (by rw [hcard, hcard]; omega)
  intro v
  rw [← List.mem_toFinset, ← heq, List.mem_toFinset]

/-! ### Patterns -/

/-- What the patterns say about a gate. -/
def patternOf (F : CNFFormula) (g : Gate) : GateType :=
  let inputSize := constrainSameInputVariables F g.out g.fwd g.bwd
  if 0 < inputSize then fPattern F g.fwd g.bwd inputSize else .NONE

/-- A clause with a literal has no other literal of its variable. -/
theorem var_ne_of_mem {p : Ptr} {o l : Lit} (ho : o ∈ F.deref p) (hl : l ∈ F.deref p)
    (hne : l ≠ o) :
  l.var ≠ o.var
  := by
  intro hvar
  obtain rfl | rfl : l = o ∨ l = ~~~o := Literal.eq_or_eq_neg hvar
  · exact hne rfl
  · exact (F.deref_canonical p).compl_not_mem ho hl

theorem not_taut_clausesAt (F : CNFFormula) (ps : For) :
  ∀ c ∈ F.clausesAt ps, ∀ l ∈ c, Literal.neg l ∉ c
  := by
  rintro c ⟨p, -, rfl⟩ l hl
  exact (F.deref_canonical p).compl_not_mem hl

/-- The two sides of a candidate can be exchanged with the output and its complement. -/
theorem Candidate.symm {o : Lit} {fwd bwd : For} (h : Candidate F o fwd bwd) :
  Candidate F (~~~o) bwd fwd
  := by
  constructor
  · rw [Lit.compl_compl]
    exact h.bwd_mem
  · exact h.fwd_mem
  · exact fun p hp q hq => (h.blocked q hq p hp).symm

theorem clausesAt_append_comm (F : CNFFormula) (fwd bwd : For) :
  F.clausesAt (fwd ++ bwd) = F.clausesAt (bwd ++ fwd)
  := by
  ext c
  simp only [CNFFormula.clausesAt, List.mem_append, or_comm]

/-- A binary clause has one literal besides the output. -/
theorem exists_other_of_binary {p : Ptr} {o : Lit} (ho : o ∈ F.deref p)
    (hsize : (F.deref p).length = 2) :
  ∃ k, ∀ k' ∈ F.deref p, k' ≠ o → k' = k
  := by
  obtain ⟨x, y, hxy⟩ := List.length_eq_two.mp hsize
  rw [hxy] at ho ⊢
  simp only [List.mem_cons, List.not_mem_nil, or_false] at ho ⊢
  obtain rfl | rfl := ho
  · use y
    rintro k' (rfl | rfl) hne
    · exact absurd rfl hne
    · rfl
  · use x
    rintro k' (rfl | rfl) hne
    · rfl
    · exact absurd rfl hne

/-- A single clause on one side and binary clauses on the other, over the same inputs,
determine the output. -/
theorem Candidate.defines_of_single {o : Lit} {fwd bwd : For} (h : Candidate F o fwd bwd)
    {q : Ptr} (hq : q ∈ fwd) (hsize : ∀ p ∈ bwd, (F.deref p).length = 2)
    (hinputs : ∀ l ∈ F.deref q, l ≠ ~~~o → l.var ∈ inputVars F o bwd) :
  Defines (F.clausesAt (fwd ++ bwd)) o.var
  := by
  apply defines_of_refuted (not_taut_clausesAt F _)
    (F.deref_mem_clausesAt (List.mem_append_left bwd hq))
  intro l hl hlv
  have hne : l ≠ ~~~o := by
    rintro rfl
    exact hlv (Lit.var_compl o)
  obtain ⟨p, hp, k, hk, hko, hkv⟩ := mem_inputVars.mp (hinputs l hl hne)
  refine ⟨F.deref p, F.deref_mem_clausesAt (List.mem_append_right fwd hp), ?_⟩
  obtain ⟨x, hx⟩ := exists_other_of_binary (h.bwd_mem p hp) (hsize p hp)
  obtain rfl := hx k hk hko
  intro k' hk' hk'v
  have hk'o : k' ≠ o := by
    rintro rfl
    exact hk'v rfl
  obtain ⟨l', hl', hl'o, hneg⟩ := h.blocked p hp q hq
  rw [hx k' hk' hk'o]
  rw [hx l' hl' hl'o] at hneg
  obtain heq | heq : l = ~~~k ∨ l = ~~~(~~~k) := by
    apply Literal.eq_or_eq_neg
    rw [Lit.literal_var, Lit.literal_var, Lit.var_compl, hkv]
  · rw [Lit.literal_neg, heq, Lit.compl_compl]
  · exfalso
    rw [heq, Lit.compl_compl] at hl
    exact (F.deref_canonical q).compl_not_mem hl hneg

theorem length_of_fixedClauseSize {f : For} {n : Nat} (h : fixedClauseSize F f n = true) :
  ∀ p ∈ f, (F.deref p).length = n
  := fun p hp => of_decide_eq_true (List.all_eq_true.mp h p hp)

/-- A clause of the counted size with a literal of the output is a clause over all inputs. -/
theorem fullOver_of_length {k : Lit} {W : Finset Nat} {p : Ptr} (hk : k ∈ F.deref p)
    (hW : ∀ l ∈ F.deref p, l ≠ k → l.var ∈ W) (hlen : (F.deref p).length = W.card + 1) :
  Clause.FullOver k.var W (F.deref p)
  := by
  have hvars : ((F.deref p).map Lit.var).Nodup := by
    apply (List.pairwise_map.mpr (F.deref_canonical p)).imp
    exact fun h => ne_of_lt h
  have hsub : ((F.deref p).map Lit.var).toFinset ⊆ insert k.var W := by
    intro v hv
    obtain ⟨l, hl, rfl⟩ := List.mem_map.mp (List.mem_toFinset.mp hv)
    rw [Finset.mem_insert]
    by_cases hlk : l = k
    · exact Or.inl (congrArg Lit.var hlk)
    · exact Or.inr (hW l hl hlk)
  have heq : ((F.deref p).map Lit.var).toFinset = insert k.var W := by
    apply Finset.eq_of_subset_of_card_le hsub
    rw [List.toFinset_card_of_nodup hvars, List.length_map, hlen]
    exact Finset.card_insert_le _ _
  constructor
  · intro w hw
    have hmem : w ∈ insert k.var W := Finset.mem_insert_of_mem hw
    rw [← heq, List.mem_toFinset] at hmem
    obtain ⟨l, hl, hlw⟩ := List.mem_map.mp hmem
    exact ⟨l, hl, hlw⟩
  · intro l hl hlv
    apply hW l hl
    rintro rfl
    exact hlv rfl
  · exact fun l hl => (F.deref_canonical p).compl_not_mem hl

/-- Canonical clauses with the same literals are equal. -/
theorem eq_of_mem_iff {c d : Cl} (hc : Cl.Canonical c) (hd : Cl.Canonical d)
    (h : ∀ l, l ∈ c ↔ l ∈ d) :
  c = d
  := by
  have hperm := (List.perm_ext_iff_of_nodup hc.nodup hd.nodup).mpr h
  exact hperm.eq_of_pairwise (fun k l _ _ hkl hlk => absurd hkl (Nat.lt_asymm hlk)) hc hd

/-- Clauses over all inputs with the same literal of the output variable and the same
falsifying assignment are equal. -/
theorem deref_eq_of_falsifier_eq {k : Lit} {W : Finset Nat} {p q : Ptr}
    (hp : Clause.FullOver k.var W (F.deref p)) (hq : Clause.FullOver k.var W (F.deref q))
    (hkp : k ∈ F.deref p) (hkq : k ∈ F.deref q)
    (heq : Clause.falsifier W (F.deref p) = Clause.falsifier W (F.deref q)) :
  F.deref p = F.deref q
  := by
  have hsub : ∀ {p q : Ptr}, Clause.FullOver k.var W (F.deref p) →
      Clause.FullOver k.var W (F.deref q) → k ∈ F.deref p → k ∈ F.deref q →
      Clause.falsifier W (F.deref p) = Clause.falsifier W (F.deref q) →
      ∀ l ∈ F.deref p, l ∈ F.deref q := by
    intro p q hp hq hkp hkq heq l hl
    by_cases hlk : l = k
    · rw [hlk]
      exact hkq
    · exact hp.mem_of_falsifier_eq hq heq hl (var_ne_of_mem hkp hl hlk)
  apply eq_of_mem_iff (F.deref_canonical p) (F.deref_canonical q)
  intro l
  exact ⟨hsub hp hq hkp hkq heq l, hsub hq hp hkq hkp heq.symm l⟩

/-- Counted clauses of a candidate are clauses over all inputs. -/
theorem Candidate.fullOver {o : Lit} {fwd bwd : For} (h : Candidate F o fwd bwd)
    (hn : 0 < constrainSameInputVariables F o fwd bwd)
    (hfwd : fixedClauseSize F fwd (constrainSameInputVariables F o fwd bwd + 1) = true)
    (hbwd : fixedClauseSize F bwd (constrainSameInputVariables F o fwd bwd + 1) = true) :
  ∃ W : Finset Nat, W.card = constrainSameInputVariables F o fwd bwd ∧ o.var ∉ W
    ∧ (∀ v, v ∈ W ↔ v ∈ inputVars F (~~~o) fwd)
    ∧ ∀ p ∈ fwd ++ bwd, Clause.FullOver o.var W (F.deref p)
  := by
  obtain ⟨hsame, hcard⟩ := constrainSameInputVariables_spec hn
  have hmem : ∀ v, v ∈ (inputVars F (~~~o) fwd).toFinset ↔ v ∈ inputVars F (~~~o) fwd :=
    fun v => List.mem_toFinset
  refine ⟨(inputVars F (~~~o) fwd).toFinset, hcard.symm, ?_, hmem, ?_⟩
  · rw [hmem, mem_inputVars]
    rintro ⟨p, hp, l, hl, hlo, hlv⟩
    apply var_ne_of_mem (h.fwd_mem p hp) hl hlo
    rw [hlv, Lit.var_compl]
  · intro p hp
    obtain hp | hp := List.mem_append.mp hp
    · rw [← Lit.var_compl]
      apply fullOver_of_length (h.fwd_mem p hp)
      · intro l hl hlo
        exact (hmem _).mpr (mem_inputVars.mpr ⟨p, hp, l, hl, hlo, rfl⟩)
      · rw [length_of_fixedClauseSize hfwd p hp, hcard]
    · apply fullOver_of_length (h.bwd_mem p hp)
      · intro l hl hlo
        exact (hmem _).mpr ((hsame _).mpr (mem_inputVars.mpr ⟨p, hp, l, hl, hlo, rfl⟩))
      · rw [length_of_fixedClauseSize hbwd p hp, hcard]

/-- Clauses over all inputs on the same or on different sides of a candidate are equal when
their falsifying assignments are. -/
theorem Candidate.deref_eq_of_falsifier_eq {o : Lit} {fwd bwd : For} (h : Candidate F o fwd bwd)
    {W : Finset Nat} (hfull : ∀ p ∈ fwd ++ bwd, Clause.FullOver o.var W (F.deref p)) :
  ∀ p ∈ fwd ++ bwd, ∀ q ∈ fwd ++ bwd,
    Clause.falsifier W (F.deref p) = Clause.falsifier W (F.deref q) → F.deref p = F.deref q
  := by
  have hne : ∀ p ∈ bwd, ∀ q ∈ fwd,
      Clause.falsifier W (F.deref p) ≠ Clause.falsifier W (F.deref q) := by
    intro p hp q hq
    exact (hfull p (List.mem_append_right _ hp)).falsifier_ne_of_blocked
      (hfull q (List.mem_append_left _ hq)) (h.bwd_mem p hp) (h.blocked p hp q hq)
  intro p hp' q hq' heq
  obtain hp | hp := List.mem_append.mp hp'
  · obtain hq | hq := List.mem_append.mp hq'
    · have hvar := Lit.var_compl o
      apply Analyzer.deref_eq_of_falsifier_eq (k := ~~~o) _ _ (h.fwd_mem p hp) (h.fwd_mem q hq)
        heq
      · rw [hvar]
        exact hfull p hp'
      · rw [hvar]
        exact hfull q hq'
    · exact absurd heq.symm (hne q hq p hp)
  · obtain hq | hq := List.mem_append.mp hq'
    · exact absurd heq (hne p hp q hq)
    · exact Analyzer.deref_eq_of_falsifier_eq (hfull p hp') (hfull q hq') (h.bwd_mem p hp)
        (h.bwd_mem q hq) heq

/-- Counted clauses determine the output exactly when they are distinct and the shift count
was not reduced. -/
theorem Candidate.defines_iff_of_count {o : Lit} {fwd bwd : For} (h : Candidate F o fwd bwd)
    (hn : 0 < constrainSameInputVariables F o fwd bwd)
    (hcount : fwd.length + bwd.length = shiftOne (constrainSameInputVariables F o fwd bwd))
    (hfwd : fixedClauseSize F fwd (constrainSameInputVariables F o fwd bwd + 1) = true)
    (hbwd : fixedClauseSize F bwd (constrainSameInputVariables F o fwd bwd + 1) = true) :
  Defines (F.clausesAt (fwd ++ bwd)) o.var
    ↔ ((fwd ++ bwd).map F.deref).Nodup ∧ constrainSameInputVariables F o fwd bwd < 64
  := by
  obtain ⟨W, hcard, hout, -, hfull⟩ := h.fullOver hn hfwd hbwd
  have hset : F.clausesAt (fwd ++ bwd) = {c | c ∈ (fwd ++ bwd).map F.deref} := by
    ext c
    simp only [CNFFormula.clausesAt, Set.mem_ofPred_eq, List.mem_map]
  rw [hset, defines_iff_nodup hout (k := constrainSameInputVariables F o fwd bwd % 64)]
  · rw [hcard]
    apply and_congr_right
    intro _
    omega
  · intro c hc
    obtain ⟨p, hp, rfl⟩ := List.mem_map.mp hc
    exact hfull p hp
  · intro c hc d hd heq
    obtain ⟨p, hp, rfl⟩ := List.mem_map.mp hc
    obtain ⟨q, hq, rfl⟩ := List.mem_map.mp hd
    exact h.deref_eq_of_falsifier_eq hfull p hp q hq heq
  · rw [List.length_map, List.length_append, hcount, shiftOne]
  · rw [hcard]
    exact Nat.mod_le _ 64

/-- The cases of `fPattern`: a single clause against binary clauses, or counted clauses. -/
theorem fPattern_cases (fwd bwd : For) (n : Nat) :
  (fPattern F fwd bwd n ∈ [GateType.TRIV, GateType.OR] ∧ fwd.length = 1
      ∧ fixedClauseSize F bwd 2 = true)
    ∨ (fPattern F fwd bwd n = .AND ∧ bwd.length = 1 ∧ fixedClauseSize F fwd 2 = true)
    ∨ (fPattern F fwd bwd n ∈ [GateType.EQIV, GateType.FULL]
      ∧ fwd.length + bwd.length = shiftOne n
      ∧ fixedClauseSize F fwd (n + 1) = true ∧ fixedClauseSize F bwd (n + 1) = true)
    ∨ fPattern F fwd bwd n = .NONE
  := by
  rw [fPattern]
  split
  · next h =>
      left
      refine ⟨?_, h⟩
      split <;> simp
  · split
    · next h =>
        right; left
        exact ⟨rfl, h⟩
    · split
      · next h =>
          right; right; left
          refine ⟨?_, h⟩
          split <;> simp
      · right; right; right
        rfl

/-- A candidate with a single clause on the side of the complement and binary clauses on the
other determines its output. -/
theorem Candidate.defines_of_length {o : Lit} {fwd bwd : For} (h : Candidate F o fwd bwd)
    (hsame : ∀ v, v ∈ inputVars F (~~~o) fwd ↔ v ∈ inputVars F o bwd)
    (hlen : fwd.length = 1) (hsize : fixedClauseSize F bwd 2 = true) :
  Defines (F.clausesAt (fwd ++ bwd)) o.var
  := by
  obtain ⟨q, rfl⟩ := List.length_eq_one_iff.mp hlen
  apply h.defines_of_single (List.mem_singleton_self q) (length_of_fixedClauseSize hsize)
  intro l hl hlo
  exact (hsame _).mp (mem_inputVars.mpr ⟨q, List.mem_singleton_self q, l, hl, hlo, rfl⟩)

/-- A candidate with a pattern determines its output, and where the clauses were counted
exactly when they are distinct and the shift count was not reduced. -/
theorem Candidate.defines_iff_of_pattern {o : Lit} {fwd bwd : For} (h : Candidate F o fwd bwd)
    (hn : 0 < constrainSameInputVariables F o fwd bwd)
    (hpattern : fPattern F fwd bwd (constrainSameInputVariables F o fwd bwd) ≠ .NONE) :
  Defines (F.clausesAt (fwd ++ bwd)) o.var
    ↔ (fPattern F fwd bwd (constrainSameInputVariables F o fwd bwd)
        ∈ [GateType.EQIV, GateType.FULL] →
      ((fwd ++ bwd).map F.deref).Nodup ∧ constrainSameInputVariables F o fwd bwd < 64)
  := by
  obtain ⟨hsame, -⟩ := constrainSameInputVariables_spec hn
  obtain ⟨htype, hlen, hsize⟩ | ⟨htype, hlen, hsize⟩ | ⟨htype, hcount, hfwd, hbwd⟩ | htype :=
    fPattern_cases (F := F) fwd bwd (constrainSameInputVariables F o fwd bwd)
  · apply iff_of_true (h.defines_of_length hsame hlen hsize)
    intro hcounted
    simp only [List.mem_cons, List.not_mem_nil, or_false] at htype hcounted
    obtain htype | htype := htype <;> simp [htype] at hcounted
  · apply iff_of_true
    · rw [clausesAt_append_comm, ← Lit.var_compl]
      apply h.symm.defines_of_length _ hlen hsize
      intro v
      rw [Lit.compl_compl, hsame]
    · rw [htype]
      simp
  · rw [h.defines_iff_of_count hn hcount hfwd hbwd]
    exact ⟨fun hcond _ => hcond, fun hcond => hcond htype⟩
  · exact absurd htype hpattern

/-! ### The semantic check -/

theorem value_toDimacs (σ : Assignment Nat) {l : Lit} (hl : 0 < l.var) :
  Ipasir.value σ l.toDimacs = σ.value l
  := by
  rw [Ipasir.value, Lit.toDimacs, Assignment.value]
  have hsign : Literal.sign l = l.sign := rfl
  rw [hsign, Lit.literal_var]
  cases l.sign with
  | true =>
      have hneg : -(l.var : Int) < 0 := by omega
      simp only [if_true, hneg, Int.natAbs_neg, Int.natAbs_natCast, Bool.xor_true]
  | false =>
      have hpos : ¬ (l.var : Int) < 0 := by omega
      simp [hpos]

/-- The literals of a query are those of the clause, with the output made positive. -/
def queryLits (o : Lit) (c : Cl) : List Int :=
  c.map (fun lit => if lit.var ≠ o.var then lit.toDimacs else lit.positive.toDimacs)

theorem toDimacs_ne_zero {l : Lit} (hl : 0 < l.var) :
  l.toDimacs ≠ 0
  := by
  rw [Lit.toDimacs]
  split <;> omega

theorem zero_not_mem_queryLits (hF : F.Numbered) (o : Lit) (p : Ptr) :
  (0 : Int) ∉ queryLits o (F.deref p)
  := by
  intro h
  obtain ⟨l, hl, hzero⟩ := List.mem_map.mp h
  have hpos := hF.var_pos hl
  split at hzero
  · exact toDimacs_ne_zero hpos hzero
  · exact toDimacs_ne_zero (by rwa [Lit.positive, Lit.ofVar_var]) hzero

/-- The solver reads the clauses of a query as they were given. -/
theorem finished_queries (hF : F.Numbered) (o : Lit) (fwd bwd : For) :
  Ipasir.finished [] (queries F o fwd bwd)
    = (fwd ++ bwd).map (fun p => queryLits o (F.deref p))
  := by
  have hflat : queries F o fwd bwd
      = ((fwd ++ bwd).map (fun p => queryLits o (F.deref p))).flatMap (· ++ [0]) := by
    rw [List.flatMap_map]
    rfl
  rw [hflat]
  apply Ipasir.finished_flatMap
  intro c hc
  obtain ⟨p, -, rfl⟩ := List.mem_map.mp hc
  exact zero_not_mem_queryLits hF o p

/-- With the output false, a query clause is satisfied by the inputs of the clause. -/
theorem query_satisfied_iff (hF : F.Numbered) {o : Lit} {σ : Assignment Nat}
    (hσ : σ o.var = false) (p : Ptr) :
  (∃ i ∈ queryLits o (F.deref p), Ipasir.value σ i = true)
    ↔ Clause.SatOff σ o.var (F.deref p)
  := by
  constructor
  · rintro ⟨i, hi, hval⟩
    obtain ⟨l, hl, rfl⟩ := List.mem_map.mp hi
    have hpos := hF.var_pos hl
    by_cases hlv : l.var ≠ o.var
    · rw [if_pos hlv, value_toDimacs σ hpos] at hval
      exact ⟨l, hl, hlv, hval⟩
    · rw [if_neg hlv, value_toDimacs σ (by rwa [Lit.positive, Lit.ofVar_var])] at hval
      rw [not_not] at hlv
      have hsign : Literal.sign l.positive = false := Lit.ofVar_sign l.var false
      rw [Assignment.value, hsign, Lit.literal_var, Lit.positive, Lit.ofVar_var, hlv, hσ] at hval
      cases hval
  · rintro ⟨l, hl, hlv, hval⟩
    refine ⟨l.toDimacs, ?_, ?_⟩
    · apply List.mem_map.mpr
      exact ⟨l, hl, if_pos hlv⟩
    · rwa [value_toDimacs σ (hF.var_pos hl)]

theorem value_negative {o : Lit} (ho : 0 < o.var) (σ : Assignment Nat) :
  Ipasir.value σ o.negative.toDimacs = !σ o.var
  := by
  have hsign : Literal.sign o.negative = true := Lit.ofVar_sign o.var true
  rw [value_toDimacs σ (by rwa [Lit.negative, Lit.ofVar_var]), Assignment.value, hsign,
    Lit.literal_var, Lit.negative, Lit.ofVar_var, Bool.xor_true]

/-- A query can be satisfied on its own exactly when the clauses do not determine the
output. -/
theorem satisfiableUnder_queries_iff (hF : F.Numbered) {o : Lit} (ho : 0 < o.var)
    (fwd bwd : For) :
  Ipasir.SatisfiableUnder (queries F o fwd bwd) o.negative.toDimacs
    ↔ ¬ Defines (F.clausesAt (fwd ++ bwd)) o.var
  := by
  rw [defines_iff_satOff (not_taut_clausesAt F _), Ipasir.SatisfiableUnder, finished_queries hF,
    not_forall]
  simp only [not_not]
  constructor
  · rintro ⟨σ, hσ, hsat⟩
    rw [value_negative ho, Bool.not_eq_true'] at hσ
    use σ
    rintro c ⟨p, hp, rfl⟩
    exact (query_satisfied_iff hF hσ p).mp (hsat _ (List.mem_map_of_mem hp))
  · rintro ⟨σ, hsat⟩
    have hfalse : Function.update σ o.var false o.var = false := Function.update_self _ _ _
    refine ⟨Function.update σ o.var false, ?_, ?_⟩
    · rw [value_negative ho, hfalse, Bool.not_false]
    · intro c hc
      obtain ⟨p, hp, rfl⟩ := List.mem_map.mp hc
      apply (query_satisfied_iff hF hfalse p).mpr
      obtain ⟨l, hl, hlv, hval⟩ := hsat _ (F.deref_mem_clausesAt hp)
      exact ⟨l, hl, hlv, by rwa [Assignment.value, Function.update_of_ne hlv]⟩

/-! ### Recorded gates -/

/-- The condition under which an added gate determines its output, on its clauses and on the
solver before the check: counted clauses are distinct and over fewer than 64 inputs, and the
literals given to the solver earlier leave a satisfiable query satisfiable. -/
def Decisive (F : CNFFormula) (e : Addition) : Prop :=
  match patternOf F e.gate with
  | .EQIV | .FULL =>
      ((e.gate.fwd ++ e.gate.bwd).map F.deref).Nodup
        ∧ constrainSameInputVariables F e.gate.out e.gate.fwd e.gate.bwd < 64
  | .NONE =>
      Ipasir.SatisfiableUnder (queries F e.gate.out e.gate.fwd e.gate.bwd)
          e.gate.out.negative.toDimacs →
        Ipasir.SatisfiableUnder (e.solver ++ queries F e.gate.out e.gate.fwd e.gate.bwd)
          e.gate.out.negative.toDimacs
  | _ => True

theorem getLast_append_queries (S : List Int) (o : Lit) {fwd : For} (bwd : For) (h : fwd ≠ []) :
  (S ++ queries F o fwd bwd).getLast? = some 0
  := by
  obtain ⟨ps, p, hps⟩ : ∃ ps p, fwd ++ bwd = ps ++ [p] := by
    obtain hnil | ⟨ps, p, hps⟩ := List.eq_nil_or_concat (fwd ++ bwd)
    · exact absurd (List.append_eq_nil_iff.mp hnil).1 h
    · exact ⟨ps, p, hps.trans List.concat_eq_append⟩
  rw [queries, hps, List.flatMap_append, List.flatMap_singleton, query]
  rw [← List.append_assoc, ← List.append_assoc, List.getLast?_concat]

/-- A gate without a pattern was found because the literals given to the solver are
contradictory. -/
theorem not_satisfiableUnder_of_found {e : Addition} (h : e.Wf env F)
    (hpatterns : env.patterns = true) (hsolver : Ipasir.Correct env.solve)
    (ho : 0 < e.gate.out.var) (hpattern : patternOf F e.gate = .NONE) :
  ¬ Ipasir.SatisfiableUnder (e.solver ++ queries F e.gate.out e.gate.fwd e.gate.bwd)
      e.gate.out.negative.toDimacs
  := by
  have hfound := h.found
  have hne := h.type_ne
  rw [patternOf] at hpattern
  rw [← hfound, findType] at hne
  simp only [hpatterns, gt_iff_lt, true_and, hpattern] at hne
  split at hne
  · rw [fSemantic] at hne
    apply (hsolver _ _ (getLast_append_queries _ _ _ h.fwd_ne_nil) _).mp
    · by_contra h20
      simp only [h20, if_false, ne_eq, not_true] at hne
    · apply toDimacs_ne_zero
      rwa [Lit.negative, Lit.ofVar_var]
  · exact absurd rfl hne

/-- An added gate determines its output if and only if its check was decisive. -/
theorem defines_iff_decisive {e : Addition} (h : e.Wf env F) (hF : F.Numbered)
    (hpatterns : env.patterns = true) (hsolver : Ipasir.Correct env.solve) :
  Defines (F.clausesAt (e.gate.fwd ++ e.gate.bwd)) e.gate.out.var ↔ Decisive F e
  := by
  have ho : 0 < e.gate.out.var := by
    obtain ⟨p, hp⟩ := List.exists_mem_of_ne_nil _ h.fwd_ne_nil
    have := hF.var_pos (h.fwd_mem p hp)
    rwa [Lit.var_compl] at this
  have hnone : patternOf F e.gate = .NONE →
      (Defines (F.clausesAt (e.gate.fwd ++ e.gate.bwd)) e.gate.out.var ↔ Decisive F e) := by
    intro hpattern
    have hunsat := not_satisfiableUnder_of_found h hpatterns hsolver ho hpattern
    rw [Decisive, hpattern]
    simp only [hunsat, imp_false]
    rw [satisfiableUnder_queries_iff hF ho, not_not]
  by_cases hn : 0 < constrainSameInputVariables F e.gate.out e.gate.fwd e.gate.bwd
  · have hpat : patternOf F e.gate = fPattern F e.gate.fwd e.gate.bwd
        (constrainSameInputVariables F e.gate.out e.gate.fwd e.gate.bwd) := if_pos hn
    by_cases hpattern : patternOf F e.gate = .NONE
    · exact hnone hpattern
    · rw [hpat] at hpattern
      rw [(candidate_of_wf h).defines_iff_of_pattern hn hpattern, Decisive, hpat]
      cases htype : fPattern F e.gate.fwd e.gate.bwd
          (constrainSameInputVariables F e.gate.out e.gate.fwd e.gate.bwd) <;>
        simp_all
  · exact hnone (if_neg hn)

/-- In every completed run on a formula read from a file, with a solver that answers
correctly, the gates added are the recorded ones and each of them determines its output if
and only if its check was decisive. -/
theorem determined_iff {clauses : List (List Int)} (h0 : ∀ clause ∈ clauses, (0 : Int) ∉ clause)
    (hpatterns : env.patterns = true) (hsolver : Ipasir.Correct env.solve) {r : Analyzer}
    (h : analyze env (CNFFormula.readDimacs clauses) = .ok r) :
  r.gatesAdded.Perm (r.gateFormula.recorded (CNFFormula.readDimacs clauses))
    ∧ ∀ e ∈ r.log,
      Defines ((CNFFormula.readDimacs clauses).clausesAt (e.gate.fwd ++ e.gate.bwd)) e.gate.out.var
        ↔ Decisive (CNFFormula.readDimacs clauses) e
  := by
  obtain ⟨pending, a, rfl, hreach, -, -⟩ := of_analyze h
  refine ⟨hreach.inv.1.recorded_perm.symm, ?_⟩
  intro e he
  exact defines_iff_decisive (hreach.inv.1.wf e he) (CNFFormula.numbered_readDimacs h0) hpatterns
    hsolver

open Classical in
/-- Surroundings with a solver that answers correctly. -/
noncomputable def exactEnv : Env :=
  { Env.small false with solve := fun S a => if Ipasir.SatisfiableUnder S a then 10 else 20 }

theorem exactEnv_correct :
  Ipasir.Correct exactEnv.solve
  := by
  intro S a _ _
  by_cases h : Ipasir.SatisfiableUnder S a <;> simp [exactEnv, h]

/-- The two gates of `twoGates` determine their outputs exactly when their checks were
decisive. -/
theorem determined_iff_twoGates :
  ∃ r, analyze exactEnv twoGates = .ok r ∧ r.log.length = 2
    ∧ r.gatesAdded.Perm (r.gateFormula.recorded twoGates)
    ∧ ∀ e ∈ r.log,
      Defines (twoGates.clausesAt (e.gate.fwd ++ e.gate.bwd)) e.gate.out.var
        ↔ Decisive twoGates e
  := by
  obtain ⟨r, hr, hlen⟩ := exists_ok_of_any
    (by decide +kernel : (analyze exactEnv twoGates).toOption.any (fun r => r.log.length = 2) = true)
  exact ⟨r, hr, of_decide_eq_true hlen, determined_iff (by decide) rfl exactEnv_correct hr⟩

/-- Two clauses, each of them twice, that do not determine `3` where `2` is true. -/
def doubledClauses : List (List Int) :=
  [[3], [-3, 1, 2], [-3, 1, 2], [3, -1, 2], [3, -1, 2]]

/-- The doubled clauses are counted and recorded as an equivalence. -/
theorem not_determined_doubledClauses :
  ¬ ∀ (env : Env) (clauses : List (List Int)) (r : Analyzer),
      (∀ clause ∈ clauses, (0 : Int) ∉ clause) → env.patterns = true → env.semantic = true →
      Ipasir.Correct env.solve → analyze env (CNFFormula.readDimacs clauses) = .ok r →
      ∀ g ∈ r.gateFormula.recorded (CNFFormula.readDimacs clauses),
        Defines ((CNFFormula.readDimacs clauses).clausesAt (g.fwd ++ g.bwd)) g.out.var
  := by
  intro h
  obtain ⟨r, hr, hgate⟩ := exists_ok_of_any
    (by decide +kernel : (analyze exactEnv (CNFFormula.readDimacs doubledClauses)).toOption.any
      (fun r => (r.gateFormula.recorded (CNFFormula.readDimacs doubledClauses)).map
        (fun g => (g.out, g.fwd ++ g.bwd)) = [(⟨6⟩, [1, 2, 3, 4])]) = true)
  have hmem : ((⟨6⟩, [1, 2, 3, 4]) : Lit × For)
      ∈ (r.gateFormula.recorded (CNFFormula.readDimacs doubledClauses)).map
        (fun g => (g.out, g.fwd ++ g.bwd)) := by
    rw [of_decide_eq_true hgate]
    exact List.mem_singleton_self _
  obtain ⟨g, hg, heq⟩ := List.mem_map.mp hmem
  obtain ⟨hout, hclauses⟩ := Prod.mk.inj heq
  have hdef := h exactEnv doubledClauses r (by decide) rfl rfl exactEnv_correct hr g hg
  rw [hout, hclauses] at hdef
  have hsat : ∀ b, Models (Function.update (fun _ : Nat => true) 3 b)
      ((CNFFormula.readDimacs doubledClauses).clausesAt [1, 2, 3, 4]) := by
    rintro b c ⟨p, hp, rfl⟩
    revert b p
    decide
  exact hdef (fun _ => true) ⟨hsat true, hsat false⟩

end Analyzer

end CnfTools
