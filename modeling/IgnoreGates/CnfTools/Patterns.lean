import IgnoreGates.CnfTools.Uniqueness

/-!
# What the patterns say

`fPattern` looks only at the number of clauses on each side, at their sizes and at the number
of inputs.  On distinct clauses that are pairwise blocked on the output this is enough to tell
that every assignment of the inputs fixes the output.

The label says more: a disjunction, a conjunction, an equivalence, or the exclusive or of two
inputs.  The last is not a consequence of the numbers, since two clauses on each side can also
be an encoding of the output by one of the two inputs.
-/

namespace CnfTools

open Logic

namespace Analyzer

variable {F : CNFFormula} {o : Lit} {fwd bwd : For}

/-! ### Candidates -/

/-- A clause is satisfied apart from a variable by its literals other than the one of the
variable. -/
theorem satOff_iff_other {σ : Assignment Nat} {p : Ptr} {k : Lit} (hk : k ∈ F.deref p) :
  Clause.SatOff σ k.var (F.deref p) ↔ ∃ l ∈ F.deref p, l ≠ k ∧ σ.value l = true
  := by
  apply exists_congr
  intro l
  apply and_congr_right
  intro hl
  apply and_congr_left
  intro _
  constructor
  · rintro hvar rfl
    exact hvar rfl
  · exact fun hne => var_ne_of_mem hk hl hne

/-- Clauses of a candidate that determine the output say that it is true exactly when each
clause with its complement has another true literal. -/
theorem Candidate.models_iff (h : Candidate F o fwd bwd)
    (hdefines : Defines (F.clausesAt (fwd ++ bwd)) o.var) (σ : Assignment Nat) :
  Models σ (F.clausesAt (fwd ++ bwd))
    ↔ (σ.value o = true ↔ ∀ p ∈ fwd, ∃ l ∈ F.deref p, l ≠ ~~~o ∧ σ.value l = true)
  := by
  have htotal := h.total
  rw [clausesAt_append] at hdefines htotal ⊢
  rw [models_union_iff (o := o) _ _ (not_taut_clausesAt F fwd) hdefines htotal]
  · apply iff_congr Iff.rfl
    constructor
    · intro hoff p hp
      apply (satOff_iff_other (h.fwd_mem p hp)).mp
      rw [Lit.var_compl]
      exact hoff _ (F.deref_mem_clausesAt hp)
    · rintro hoff c ⟨p, hp, rfl⟩
      have hsat := (satOff_iff_other (h.fwd_mem p hp)).mpr (hoff p hp)
      rwa [Lit.var_compl] at hsat
  · rintro d ⟨p, hp, rfl⟩
    exact h.fwd_mem p hp
  · rintro c ⟨p, hp, rfl⟩
    exact h.bwd_mem p hp

/-! ### Counting is sound -/

/-- Where distinct clauses of a candidate over the same fewer than 64 inputs have a pattern,
every assignment of the inputs is satisfied by exactly one value of the output. -/
theorem fPattern_existsUnique (h : Candidate F o fwd bwd)
    (hdistinct : ((fwd ++ bwd).map F.deref).Nodup)
    (hn : 0 < constrainSameInputVariables F o fwd bwd)
    (hlt : constrainSameInputVariables F o fwd bwd < 64)
    (hpattern : fPattern F fwd bwd (constrainSameInputVariables F o fwd bwd) ≠ .NONE)
    (σ : Assignment Nat) :
  ∃! b, Models (Function.update σ o.var b) (F.clausesAt (fwd ++ bwd))
  := by
  apply existsUnique_of_defines _ h.total
  apply (h.defines_iff_of_pattern hn hpattern).mpr
  exact fun _ => ⟨hdistinct, hlt⟩

/-- The four clauses of `3 <-> (1 xor 2)`. -/
def xorClauses : CNFFormula :=
  CNFFormula.readDimacs [[-3, 1, 2], [-3, -1, -2], [3, -1, 2], [3, 1, -2]]

theorem xorClauses_candidate :
  Candidate xorClauses ⟨6⟩ [0, 1] [2, 3]
  := by
  refine ⟨by decide, by decide, ?_⟩
  have hblocked : ∀ p ∈ [2, 3], ∀ q ∈ [0, 1],
      OccurrenceList.isBlocked ⟨6⟩ (xorClauses.deref p) (xorClauses.deref q) = true := by
    decide
  exact fun p hp q hq => OccurrenceList.isBlocked_sound (hblocked p hp q hq)

/-- The clauses of an exclusive or fix the output for every assignment of the inputs. -/
theorem fPattern_existsUnique_xorClauses :
  fPattern xorClauses [0, 1] [2, 3] (constrainSameInputVariables xorClauses ⟨6⟩ [0, 1] [2, 3])
      = .EQIV
    ∧ ∀ σ : Assignment Nat,
      ∃! b, Models (Function.update σ 3 b) (xorClauses.clausesAt ([0, 1] ++ [2, 3]))
  := by
  refine ⟨by decide, ?_⟩
  exact fPattern_existsUnique xorClauses_candidate (by decide) (by decide) (by decide) (by decide)

/-! ### Labels -/

/-- The clauses of a gate are equivalent to the statement `φ` about an assignment. -/
def Encodes (F : CNFFormula) (clauses : For) (φ : Assignment Nat → Prop) : Prop :=
  ∀ σ, Models σ (F.clausesAt clauses) ↔ φ σ

/-- What the type of a gate says about its clauses. -/
def LabelHolds (F : CNFFormula) (o : Lit) (fwd bwd : For) : GateType → Prop
  | .OR => ∃ q, fwd = [q] ∧ Encodes F (fwd ++ bwd)
      (fun σ => σ.value o = true ↔ ∃ l ∈ F.deref q, l ≠ ~~~o ∧ σ.value l = true)
  | .AND => ∃ q, bwd = [q] ∧ Encodes F (fwd ++ bwd)
      (fun σ => σ.value (~~~o) = true ↔ ∃ l ∈ F.deref q, l ≠ o ∧ σ.value l = true)
  | .TRIV => ∃ l : Lit, l.var ∈ inputVars F (~~~o) fwd ∧ Encodes F (fwd ++ bwd)
      (fun σ => σ.value o = σ.value l)
  | .EQIV => ∃ x y, x ≠ y ∧ (∀ v, v ∈ inputVars F (~~~o) fwd ↔ v = x ∨ v = y)
      ∧ (Encodes F (fwd ++ bwd) (fun σ => σ.value o = (σ x ^^ σ y))
        ∨ Encodes F (fwd ++ bwd) (fun σ => σ.value o = !(σ x ^^ σ y)))
  | _ => True

/-- Two ternary clauses on each side over two inputs, where the two clauses with the
complement of the output share the literal of an input. -/
def SharesInput (F : CNFFormula) (o : Lit) (fwd bwd : For) : Prop :=
  constrainSameInputVariables F o fwd bwd = 2 ∧ fwd.length = 2 ∧ bwd.length = 2
    ∧ fixedClauseSize F fwd 3 = true ∧ fixedClauseSize F bwd 3 = true
    ∧ ¬ fwd.Pairwise (fun p q => ∀ l ∈ F.deref p, l ∈ F.deref q → l = ~~~o)

/-- A single clause with the complement of the output is the disjunction of its other
literals. -/
theorem Candidate.encodes_or (h : Candidate F o fwd bwd)
    (hdefines : Defines (F.clausesAt (fwd ++ bwd)) o.var) (hlen : fwd.length = 1) :
  ∃ q, fwd = [q] ∧ Encodes F (fwd ++ bwd)
    (fun σ => σ.value o = true ↔ ∃ l ∈ F.deref q, l ≠ ~~~o ∧ σ.value l = true)
  := by
  obtain ⟨q, rfl⟩ := List.length_eq_one_iff.mp hlen
  refine ⟨q, rfl, ?_⟩
  intro σ
  rw [h.models_iff hdefines σ]
  simp only [List.mem_singleton, forall_eq]

/-- With one input, the single clause has one literal besides the complement of the output. -/
theorem Candidate.encodes_eq (h : Candidate F o fwd bwd)
    (hdefines : Defines (F.clausesAt (fwd ++ bwd)) o.var) (hlen : fwd.length = 1)
    (hn : constrainSameInputVariables F o fwd bwd = 1) :
  ∃ l : Lit, l.var ∈ inputVars F (~~~o) fwd ∧ Encodes F (fwd ++ bwd)
    (fun σ => σ.value o = σ.value l)
  := by
  obtain ⟨-, hcard⟩ := constrainSameInputVariables_spec (hn.symm ▸ Nat.one_pos)
  obtain ⟨q, rfl, hencodes⟩ := h.encodes_or hdefines hlen
  rw [hn] at hcard
  obtain ⟨v, hv⟩ := Finset.card_eq_one.mp hcard.symm
  have hinput : ∀ w, w ∈ inputVars F (~~~o) [q] ↔ w = v := by
    intro w
    rw [← List.mem_toFinset, hv, Finset.mem_singleton]
  obtain ⟨p, hp, l, hl, hlo, hlv⟩ := mem_inputVars.mp ((hinput v).mpr rfl)
  rw [List.mem_singleton.mp hp] at hl
  refine ⟨l, (hinput _).mpr hlv, ?_⟩
  intro σ
  apply (hencodes σ).trans
  apply Iff.trans _ Bool.eq_iff_iff.symm
  apply iff_congr Iff.rfl
  constructor
  · rintro ⟨k, hk, hko, hval⟩
    have hkv := (hinput _).mp (mem_inputVars.mpr ⟨q, List.mem_singleton_self q, k, hk, hko, rfl⟩)
    have hvar : k.var = l.var := hkv.trans hlv.symm
    obtain rfl | rfl : k = l ∨ k = ~~~l := Literal.eq_or_eq_neg hvar
    · exact hval
    · exact absurd hk ((F.deref_canonical q).compl_not_mem hl)
  · exact fun hval => ⟨l, hl, hlo, hval⟩

/-- Two assignments of two inputs that differ everywhere are the ones with one value of the
exclusive or. -/
theorem ne_and_ne_not_iff {W : Finset Nat} {x y : Nat} (hW : ∀ v, v ∈ W ↔ v = x ∨ v = y)
    (α : W → Bool) (σ : Assignment Nat) :
  ((fun w : W => σ w) ≠ α ∧ (fun w : W => σ w) ≠ fun w => !α w)
    ↔ (σ x ^^ σ y) ≠ (α ⟨x, (hW x).mpr (Or.inl rfl)⟩ ^^ α ⟨y, (hW y).mpr (Or.inr rfl)⟩)
  := by
  have heq : ∀ β : W → Bool, (fun w : W => σ w) = β
      ↔ σ x = β ⟨x, (hW x).mpr (Or.inl rfl)⟩ ∧ σ y = β ⟨y, (hW y).mpr (Or.inr rfl)⟩ := by
    intro β
    constructor
    · rintro rfl
      exact ⟨rfl, rfl⟩
    · rintro ⟨hx, hy⟩
      funext ⟨w, hw⟩
      obtain rfl | rfl := (hW w).mp hw
      · exact hx
      · exact hy
  rw [ne_eq, heq, ne_eq, heq]
  generalize σ x = a
  generalize σ y = b
  generalize α ⟨x, _⟩ = c
  generalize α ⟨y, _⟩ = d
  revert a b c d
  decide

/-- Where the two clauses with the complement of the output share no literal of an input, they
say that the output is the exclusive or of the inputs or its negation. -/
theorem Candidate.encodes_xor (h : Candidate F o fwd bwd)
    (hdefines : Defines (F.clausesAt (fwd ++ bwd)) o.var) {p q : Ptr} (hfwd : fwd = [p, q])
    {W : Finset Nat} {x y : Nat} (hW : ∀ v, v ∈ W ↔ v = x ∨ v = y) (hout : o.var ∉ W)
    (hp : Clause.FullOver o.var W (F.deref p)) (hq : Clause.FullOver o.var W (F.deref q))
    (hapart : ∀ l ∈ F.deref p, l ∈ F.deref q → l = ~~~o) :
  ∃ b, Encodes F (fwd ++ bwd) (fun σ => σ.value o = (b ^^ (σ x ^^ σ y)))
  := by
  -- the two clauses are falsified by complementary assignments of the inputs
  have hnot : Clause.falsifier W (F.deref q) = fun w => !Clause.falsifier W (F.deref p) w := by
    funext w
    obtain ⟨k, hk, hkw⟩ := hp.mentions w.val w.prop
    obtain ⟨l, hl, hlw⟩ := hq.mentions w.val w.prop
    rw [hp.falsifier_eq hk hkw, hq.falsifier_eq hl hlw]
    obtain rfl | rfl := Literal.eq_or_eq_neg (hlw.trans hkw.symm)
    · exfalso
      apply hout
      rw [← Lit.var_compl, ← hapart l hk hl, ← Lit.literal_var, hlw]
      exact w.prop
    · exact Literal.sign_neg k
  have hmodels : ∀ σ : Assignment Nat, Models σ (F.clausesAt (fwd ++ bwd))
      ↔ (σ.value o = true ↔ (σ x ^^ σ y)
        ≠ (Clause.falsifier W (F.deref p) ⟨x, (hW x).mpr (Or.inl rfl)⟩
          ^^ Clause.falsifier W (F.deref p) ⟨y, (hW y).mpr (Or.inr rfl)⟩)) := by
    intro σ
    rw [h.models_iff hdefines σ, ← ne_and_ne_not_iff hW, ← hnot, ← hp.satOff_iff hout,
      ← hq.satOff_iff hout, hfwd]
    simp only [List.mem_cons, List.not_mem_nil, or_false, forall_eq_or_imp, forall_eq]
    have hmem := h.fwd_mem
    rw [hfwd] at hmem
    rw [← Lit.var_compl, satOff_iff_other (hmem p List.mem_cons_self),
      satOff_iff_other (hmem q (List.mem_cons_of_mem p List.mem_cons_self))]
  use Clause.falsifier W (F.deref p) ⟨x, (hW x).mpr (Or.inl rfl)⟩
    ^^ Clause.falsifier W (F.deref p) ⟨y, (hW y).mpr (Or.inr rfl)⟩
  intro σ
  apply (hmodels σ).trans
  beta_reduce
  generalize (Clause.falsifier W (F.deref p) ⟨x, (hW x).mpr (Or.inl rfl)⟩
    ^^ Clause.falsifier W (F.deref p) ⟨y, (hW y).mpr (Or.inr rfl)⟩) = b
  generalize σ.value o = a
  generalize (σ x ^^ σ y) = c
  revert a b c
  decide

/-- Where all clauses with the complement of the output share the literal of an input, the
clauses do not encode the exclusive or of the inputs. -/
theorem Candidate.not_encodes_xor (h : Candidate F o fwd bwd) {l : Lit} (hlo : l.var ≠ o.var)
    (hshared : ∀ p ∈ fwd, l ∈ F.deref p) {x y : Nat} (hxy : x ≠ y) (hx : x ≠ o.var)
    (hy : y ≠ o.var) (hl : l.var = x ∨ l.var = y) (b : Bool) :
  ¬ Encodes F (fwd ++ bwd) (fun σ => σ.value o = (b ^^ (σ x ^^ σ y)))
  := by
  intro hencodes
  obtain ⟨z, hz, hzl⟩ : ∃ z, (z = x ∨ z = y) ∧ z ≠ l.var := by
    obtain hl | hl := hl
    · exact ⟨y, Or.inr rfl, by rw [hl]; exact hxy.symm⟩
    · exact ⟨x, Or.inl rfl, by rw [hl]; exact hxy⟩
  -- with the output and the shared literal true, the clauses hold for both values of `z`
  let τ : Bool → Assignment Nat := fun c => Function.update (fun _ => false) z c
  have hmodels : ∀ c, Models (((τ c).make l).make o) (F.clausesAt (fwd ++ bwd)) := by
    rintro c d ⟨p, hp, rfl⟩
    obtain hp | hp := List.mem_append.mp hp
    · refine ⟨l, hshared p hp, ?_⟩
      rw [Assignment.make_value_of_ne (k := l) (l := o) _ hlo, Assignment.make_value_self]
    · exact ⟨o, h.bwd_mem p hp, Assignment.make_value_self _ _⟩
  have hvalue : ∀ c, true = (b ^^ ((τ c).make l x ^^ (τ c).make l y)) := by
    intro c
    have hval : (((τ c).make l).make o).value o
        = (b ^^ (((τ c).make l).make o x ^^ ((τ c).make l).make o y)) :=
      (hencodes _).mp (hmodels c)
    rwa [Assignment.make_value_self, Assignment.make_apply_of_ne _ o hx,
      Assignment.make_apply_of_ne _ o hy] at hval
  have hfree : ∀ c, (τ c).make l z = c := by
    intro c
    rw [Assignment.make_apply_of_ne _ l hzl]
    exact Function.update_self _ _ _
  have hbound : ∀ c, (τ c).make l l.var = !Literal.sign l := fun c => Function.update_self _ _ _
  have htrue := hvalue true
  have hfalse := hvalue false
  obtain hl | hl := hl <;> obtain hz | hz := hz
  · exact hzl (hz.trans hl.symm)
  · rw [← hl, ← hz, hfree, hbound] at htrue hfalse
    cases b <;> cases hs : Literal.sign l <;> simp [hs] at htrue hfalse
  · rw [← hl, ← hz, hfree, hbound] at htrue hfalse
    cases b <;> cases hs : Literal.sign l <;> simp [hs] at htrue hfalse
  · exact hzl (hz.trans hl.symm)

/-- The label of counted clauses over two inputs means what it says exactly when the two
clauses with the complement of the output share no input literal. -/
theorem Candidate.eqiv_iff (h : Candidate F o fwd bwd)
    (hdistinct : ((fwd ++ bwd).map F.deref).Nodup)
    (hn : constrainSameInputVariables F o fwd bwd = 2) (hlen : fwd.length = 2)
    (hlen' : bwd.length = 2) (hfwd : fixedClauseSize F fwd 3 = true)
    (hbwd : fixedClauseSize F bwd 3 = true) :
  LabelHolds F o fwd bwd .EQIV
    ↔ fwd.Pairwise (fun p q => ∀ l ∈ F.deref p, l ∈ F.deref q → l = ~~~o)
  := by
  have hpos : 0 < constrainSameInputVariables F o fwd bwd := by omega
  have hcount : fwd.length + bwd.length
      = shiftOne (constrainSameInputVariables F o fwd bwd) := by
    rw [hn, hlen, hlen']
    rfl
  obtain ⟨W, hcard, hout, hinputs, hfull⟩ := h.fullOver hpos (hn ▸ hfwd) (hn ▸ hbwd)
  have hdefines : Defines (F.clausesAt (fwd ++ bwd)) o.var := by
    apply (h.defines_iff_of_count hpos hcount (hn ▸ hfwd) (hn ▸ hbwd)).mpr
    exact ⟨hdistinct, by omega⟩
  obtain ⟨p, q, rfl⟩ := List.length_eq_two.mp hlen
  have hp := hfull p (by simp)
  have hq := hfull q (by simp)
  rw [List.pairwise_pair]
  constructor
  · rintro ⟨x, y, hxy, hxyInputs, hencodes⟩ l hlp hlq
    by_contra hlo
    have hl : l.var = x ∨ l.var = y := by
      apply (hxyInputs _).mp
      exact mem_inputVars.mpr ⟨p, List.mem_cons_self, l, hlp, hlo, rfl⟩
    have hne : ∀ v, v = x ∨ v = y → v ≠ o.var := by
      rintro v hv rfl
      exact hout ((hinputs _).mpr ((hxyInputs _).mpr hv))
    have hshared : ∀ p' ∈ [p, q], l ∈ F.deref p' := by
      simp only [List.mem_cons, List.not_mem_nil, or_false, forall_eq_or_imp, forall_eq]
      exact ⟨hlp, hlq⟩
    have hnot := h.not_encodes_xor (hne _ hl) hshared hxy (hne x (Or.inl rfl)) (hne y (Or.inr rfl))
      hl
    obtain hencodes | hencodes := hencodes
    · apply hnot false
      simpa only [Bool.false_xor] using hencodes
    · apply hnot true
      simpa only [Bool.true_xor] using hencodes
  · intro hapart
    obtain ⟨x, y, hxy, hW⟩ := Finset.card_eq_two.mp (hcard.trans hn)
    have hmem : ∀ v, v ∈ W ↔ v = x ∨ v = y := by
      intro v
      rw [hW, Finset.mem_insert, Finset.mem_singleton]
    refine ⟨x, y, hxy, fun v => (hinputs v).symm.trans (hmem v), ?_⟩
    obtain ⟨b, hb⟩ := h.encodes_xor hdefines rfl hmem hout hp hq hapart
    cases b with
    | false =>
        left
        simpa only [Bool.false_xor] using hb
    | true =>
        right
        simpa only [Bool.true_xor] using hb

/-- On distinct clauses of a candidate over the same inputs, the label means what it says
unless the clauses with the complement of the output share an input literal. -/
theorem labelHolds_iff (h : Candidate F o fwd bwd)
    (hdistinct : ((fwd ++ bwd).map F.deref).Nodup)
    (hn : 0 < constrainSameInputVariables F o fwd bwd) :
  LabelHolds F o fwd bwd (fPattern F fwd bwd (constrainSameInputVariables F o fwd bwd))
    ↔ ¬ SharesInput F o fwd bwd
  := by
  obtain ⟨hsame, -⟩ := constrainSameInputVariables_spec hn
  by_cases hor : fwd.length = 1 ∧ fixedClauseSize F bwd 2 = true
  · have hdefines := h.defines_of_length hsame hor.1 hor.2
    apply iff_of_true
    · rw [fPattern, if_pos hor]
      split
      · next hone => exact h.encodes_eq hdefines hor.1 hone
      · exact h.encodes_or hdefines hor.1
    · rintro ⟨-, hlen, -⟩
      omega
  by_cases hand : bwd.length = 1 ∧ fixedClauseSize F fwd 2 = true
  · apply iff_of_true
    · rw [fPattern, if_neg hor, if_pos hand]
      have hsame' : ∀ v, v ∈ inputVars F (~~~(~~~o)) bwd ↔ v ∈ inputVars F (~~~o) fwd := by
        intro v
        rw [Lit.compl_compl, hsame]
      have hdefines := h.symm.defines_of_length hsame' hand.1 hand.2
      have hencodes := h.symm.encodes_or hdefines hand.1
      rw [Lit.compl_compl] at hencodes
      obtain ⟨q, hq, hencodes⟩ := hencodes
      use q, hq
      rw [Encodes, clausesAt_append_comm]
      exact hencodes
    · rintro ⟨-, -, hlen, -⟩
      omega
  rw [fPattern, if_neg hor, if_neg hand]
  by_cases htwo : constrainSameInputVariables F o fwd bwd = 2 ∧ fwd.length = 2 ∧ bwd.length = 2
      ∧ fixedClauseSize F fwd 3 = true ∧ fixedClauseSize F bwd 3 = true
  · obtain ⟨hn2, hlen, hlen', hfwd, hbwd⟩ := htwo
    have hcounted : fwd.length + bwd.length = shiftOne 2 ∧ fixedClauseSize F fwd (2 + 1) = true
        ∧ fixedClauseSize F bwd (2 + 1) = true := by
      rw [hlen, hlen']
      exact ⟨rfl, hfwd, hbwd⟩
    rw [hn2, if_pos hcounted, if_pos ⟨rfl, hlen.trans hlen'.symm⟩,
      h.eqiv_iff hdistinct hn2 hlen hlen' hfwd hbwd, SharesInput]
    simp only [hn2, hlen, hlen', hfwd, hbwd, true_and, not_not]
  · apply iff_of_true
    · split
      · next hcounted =>
          rw [if_neg]
          · trivial
          · rintro ⟨hn2, hlen⟩
            apply htwo
            obtain ⟨hcount, hfwd, hbwd⟩ := hcounted
            rw [hn2] at hcount hfwd hbwd
            have hfour : shiftOne 2 = 4 := rfl
            exact ⟨hn2, by omega, by omega, hfwd, hbwd⟩
      · trivial
    · rintro ⟨hn2, hlen, hlen', hfwd, hbwd, -⟩
      exact htwo ⟨hn2, hlen, hlen', hfwd, hbwd⟩

/-- The label of the clauses of an exclusive or means what it says. -/
theorem labelHolds_iff_xorClauses :
  LabelHolds xorClauses ⟨6⟩ [0, 1] [2, 3] .EQIV ∧ ¬ SharesInput xorClauses ⟨6⟩ [0, 1] [2, 3]
  := by
  have hiff := labelHolds_iff xorClauses_candidate (by decide) (by decide)
  have hpattern : fPattern xorClauses [0, 1] [2, 3]
      (constrainSameInputVariables xorClauses ⟨6⟩ [0, 1] [2, 3]) = .EQIV := by
    decide
  rw [hpattern] at hiff
  have hshares : ¬ SharesInput xorClauses ⟨6⟩ [0, 1] [2, 3] := by
    rw [SharesInput]
    decide
  exact ⟨hiff.mpr hshares, hshares⟩

/-- Four clauses of `3 <-> 1` over the inputs `1` and `2`. -/
def redundantClauses : CNFFormula :=
  CNFFormula.readDimacs [[-3, 1, 2], [-3, 1, -2], [3, -1, 2], [3, -1, -2]]

/-- The redundant clauses of an equivalence with one input are labelled as an exclusive
or. -/
theorem not_labelHolds_redundantClauses :
  ¬ ∀ (F : CNFFormula) (o : Lit) (fwd bwd : For), Candidate F o fwd bwd →
      ((fwd ++ bwd).map F.deref).Nodup → 0 < constrainSameInputVariables F o fwd bwd →
      LabelHolds F o fwd bwd (fPattern F fwd bwd (constrainSameInputVariables F o fwd bwd))
  := by
  intro hall
  have hblocked : ∀ p ∈ [2, 3], ∀ q ∈ [0, 1],
      OccurrenceList.isBlocked ⟨6⟩ (redundantClauses.deref p) (redundantClauses.deref q)
        = true := by
    decide
  have hcand : Candidate redundantClauses ⟨6⟩ [0, 1] [2, 3] :=
    ⟨by decide, by decide, fun p hp q hq => OccurrenceList.isBlocked_sound (hblocked p hp q hq)⟩
  have hlabel := hall redundantClauses ⟨6⟩ [0, 1] [2, 3] hcand (by decide) (by decide)
  have hpattern : fPattern redundantClauses [0, 1] [2, 3]
      (constrainSameInputVariables redundantClauses ⟨6⟩ [0, 1] [2, 3]) = .EQIV := by
    decide
  rw [hpattern, hcand.eqiv_iff (by decide) (by decide) rfl rfl (by decide) (by decide)] at hlabel
  revert hlabel
  decide

end Analyzer

end CnfTools
