import IgnoreGates.Cadical.Resolve
import IgnoreGates.Logic.Reconstruction

/-!
# Steps of elimination

While the resolvents on a variable are counted and added, clauses are added that do not
mention the variable, units are assigned, and clauses become garbage.  What is added follows
from the clauses there were, and clauses that become garbage are satisfied, apart from the
variable, by every model of the clauses without the variable.
-/

namespace Cadical

open Logic

namespace Eliminator

variable {s t u : Eliminator} {v : Nat}

variable (s v) in
/-- The assignment has the values of the root level and satisfies the clauses without the
variable that are not garbage. -/
structure ModelOff (σ : Assignment Nat) : Prop where
  root : s.Extends σ
  sat : ∀ c < s.clauses.length, s.garbage c = false → (∀ l ∈ s.clause c, l.vidx ≠ v) →
    Clause.Sat σ (s.clause c)

/-- `t` is reached from `s` by adding clauses and units that follow, and by removing clauses
that are satisfied apart from the variable. -/
structure Reduces (v : Nat) (s t : Eliminator) : Prop where
  clauses : ∃ added, t.clauses = s.clauses ++ added
  vals : ∀ w b, s.vals w = some b → t.vals w = some b
  garbage : ∀ c < s.clauses.length, s.garbage c = true → t.garbage c = true
  gate : ∀ c < s.clauses.length, t.gate c = s.gate c
  gates : t.gates = s.gates
  marks : t.marks = s.marks
  unsat : s.unsat = true → t.unsat = true
  occs : ∀ l, l.vidx = v → t.occs l = s.occs l
  connected : t.Connected
  root : ∀ σ, s.Model σ → t.Extends σ
  added : ∀ σ, s.Model σ → ∀ c < t.clauses.length, s.clauses.length ≤ c →
    Clause.Sat σ (t.clause c)
  removed : t.vals v = none → ∀ c < s.clauses.length, s.garbage c = false → t.garbage c = true →
    ∀ σ, t.ModelOff v σ → Clause.SatOff σ v (s.clause c)

namespace Reduces

/-- If the empty clause has not been derived later, it has not been derived before. -/
theorem not_unsat (h : Reduces v s t) (ht : t.unsat = false) :
  s.unsat = false
  := by
  rw [← Bool.not_eq_true]
  intro hs
  rw [h.unsat hs] at ht
  cases ht

/-- No clause is lost. -/
theorem length_le (h : Reduces v s t) :
  s.clauses.length ≤ t.clauses.length
  := by
  obtain ⟨added, heq⟩ := h.clauses
  rw [heq, List.length_append]
  exact Nat.le_add_right _ _

/-- The clauses that were there keep their literals. -/
theorem clause (h : Reduces v s t) {c : Nat} (hc : c < s.clauses.length) :
  t.clause c = s.clause c
  := by
  obtain ⟨added, heq⟩ := h.clauses
  rw [Eliminator.clause, Eliminator.clause, heq, List.getD_append _ _ _ _ hc]

/-- A variable that is unassigned later was so before. -/
theorem val_none (h : Reduces v s t) (hv : t.vals v = none) :
  s.vals v = none
  := by
  cases hs : s.vals v with
  | none => rfl
  | some b =>
      rw [h.vals v b hs] at hv
      cases hv

/-- A clause that was there and is not garbage later was none before. -/
theorem not_garbage (h : Reduces v s t) {c : Nat} (hc : c < s.clauses.length)
    (hgarbage : t.garbage c = false) :
  s.garbage c = false
  := by
  cases hs : s.garbage c with
  | false => rfl
  | true =>
      rw [h.garbage c hc hs] at hgarbage
      cases hgarbage

/-- Models stay models: what is added follows. -/
theorem model (h : Reduces v s t) {σ : Assignment Nat} (hσ : s.Model σ) :
  t.Model σ
  := by
  refine ⟨h.root σ hσ, ?_⟩
  intro c hc hgarbage
  obtain hlt | hle := Nat.lt_or_ge c s.clauses.length
  · rw [h.clause hlt]
    exact hσ.sat c hlt (h.not_garbage hlt hgarbage)
  · exact h.added σ hσ c hc hle

/-- A model of the clauses without the variable was one before. -/
theorem modelOff (h : Reduces v s t) (hv : t.vals v = none) {σ : Assignment Nat}
    (hσ : t.ModelOff v σ) :
  s.ModelOff v σ
  := by
  refine ⟨fun w b hw => hσ.root w b (h.vals w b hw), ?_⟩
  intro c hc hgarbage hoff
  cases ht : t.garbage c with
  | false =>
      rw [← h.clause hc] at hoff ⊢
      exact hσ.sat c (hc.trans_le h.length_le) ht hoff
  | true => exact (h.removed hv c hc hgarbage ht σ hσ).sat

/-- Doing nothing is a reduction. -/
theorem refl (v : Nat) (hs : s.Connected) :
  Reduces v s s
  where
    clauses := ⟨[], (List.append_nil _).symm⟩
    vals := fun _ _ h => h
    garbage := fun _ _ h => h
    gate := fun _ _ => rfl
    gates := rfl
    marks := rfl
    unsat := fun h => h
    occs := fun _ _ => rfl
    connected := hs
    root := fun _ h => h.root
    added := fun _ _ _ hlt hle => absurd hlt (Nat.not_lt_of_le hle)
    removed := by
      intro _ c _ hfalse htrue
      rw [hfalse] at htrue
      cases htrue

/-- Reductions may be done one after the other. -/
theorem trans (h : Reduces v s t) (h' : Reduces v t u) :
  Reduces v s u
  where
    clauses := by
      obtain ⟨added, heq⟩ := h.clauses
      obtain ⟨added', heq'⟩ := h'.clauses
      exact ⟨added ++ added', by rw [heq', heq, List.append_assoc]⟩
    vals := fun w b hw => h'.vals w b (h.vals w b hw)
    garbage := fun c hc hg => h'.garbage c (hc.trans_le h.length_le) (h.garbage c hc hg)
    gate := fun c hc => (h'.gate c (hc.trans_le h.length_le)).trans (h.gate c hc)
    gates := h'.gates.trans h.gates
    marks := h'.marks.trans h.marks
    unsat := fun hs => h'.unsat (h.unsat hs)
    occs := fun l hl => (h'.occs l hl).trans (h.occs l hl)
    connected := h'.connected
    root := fun σ hσ => h'.root σ (h.model hσ)
    added := by
      intro σ hσ c hc hle
      obtain hlt | hle' := Nat.lt_or_ge c t.clauses.length
      · rw [h'.clause hlt]
        exact h.added σ hσ c hlt hle
      · exact h'.added σ (h.model hσ) c hc hle'
    removed := by
      intro hv c hc hfalse htrue σ hσ
      have hv' := h'.val_none hv
      cases ht : t.garbage c with
      | true => exact h.removed hv' c hc hfalse ht σ (h'.modelOff hv hσ)
      | false =>
          rw [← h.clause hc]
          exact h'.removed hv c (hc.trans_le h.length_le) ht htrue σ hσ

end Reduces

/-! ### The steps -/

/-- Propagation reduces the clauses: what becomes garbage is satisfied. -/
theorem Propagated.reduces (h : Propagated s t) (hs : s.Connected)
    (hunsat : s.unsat = true → t.unsat = true) (v : Nat) :
  Reduces v s t
  where
    clauses := ⟨[], by rw [h.clauses, List.append_nil]⟩
    vals := h.vals
    garbage := fun c _ hc => h.garbage c hc
    gate := fun c _ => congrFun h.gate c
    gates := h.gates
    marks := h.marks
    unsat := hunsat
    occs := fun l _ => congrFun h.occs l
    connected := h.connected hs
    root := h.implied
    added := by
      intro σ _ c hlt hle
      rw [h.clauses] at hlt
      exact absurd hlt (Nat.not_lt_of_le hle)
    removed := by
      intro hv c _ hfalse htrue σ hσ
      obtain hs | ⟨l, hl, hval⟩ := h.satisfied c htrue
      · rw [hfalse] at hs
        cases hs
      · rw [h.clause] at hl
        refine ⟨l, hl, ?_, hσ.root.value hval⟩
        rintro rfl
        rw [val_eq_none_iff.mpr hv] at hval
        cases hval

/-- A clause may become garbage if every assignment off the pivot that satisfies the other clauses
satisfies it off the pivot. -/
theorem reduces_markGarbage (hs : s.Connected) {c : Nat}
    (hc : ∀ σ, (s.markGarbage c).ModelOff v σ → s.vals v = none →
      Clause.SatOff σ v (s.clause c)) :
  Reduces v s (s.markGarbage c)
  where
    clauses := ⟨[], (List.append_nil _).symm⟩
    vals := fun _ _ h => h
    garbage := fun d _ hd => garbage_markGarbage.mpr (Or.inr hd)
    gate := fun _ _ => rfl
    gates := rfl
    marks := rfl
    unsat := fun h => h
    occs := fun _ _ => rfl
    connected := (marking_markGarbage c).connected hs
    root := fun _ h => h.root
    added := fun _ _ _ hlt hle => absurd hlt (Nat.not_lt_of_le hle)
    removed := by
      intro hv d _ hfalse htrue σ hσ
      obtain rfl | hd := garbage_markGarbage.mp htrue
      · exact hc σ hσ hv
      · rw [hfalse] at hd
        cases hd

/-- Deriving the empty clause is a reduction, as nothing is claimed behind it. -/
theorem reduces_learnEmptyClause (hs : s.Connected) (v : Nat) :
  Reduces v s s.learnEmptyClause
  := Propagated.learnEmptyClause.reduces hs (fun _ => rfl) v

/-- Adding a resolvent leaves the clauses that were there as they are. -/
theorem clause_addResolvent_of_lt (lits : List Lit) {c : Nat} (hc : c < s.clauses.length) :
  (s.addResolvent lits).clause c = s.clause c
  := List.getD_append _ _ _ _ hc

/-- The resolvent is the last clause. -/
theorem clause_addResolvent_self (lits : List Lit) :
  (s.addResolvent lits).clause s.clauses.length = lits
  := by
  change (s.clauses ++ [lits]).getD s.clauses.length [] = lits
  rw [List.getD_append_right _ _ _ _ (Nat.le_refl _), Nat.sub_self]
  rfl

theorem length_addResolvent (lits : List Lit) :
  (s.addResolvent lits).clauses.length = s.clauses.length + 1
  := by
  change (s.clauses ++ [lits]).length = _
  rw [List.length_append, List.length_singleton]

/-- The resolvent is added to the occurrence lists of its unassigned literals. -/
theorem occs_addResolvent (lits : List Lit) (l : Lit) :
  (s.addResolvent lits).occs l
    = if l ∈ lits ∧ s.val l = none then s.occs l ++ [s.clauses.length] else s.occs l
  := by
  have hclause := clause_addResolvent_self (s := s) lits
  change (if l ∈ (s.addResolvent lits).clause s.clauses.length ∧ s.val l = none
    then s.occs l ++ [s.clauses.length] else s.occs l) = _
  rw [hclause]

/-- The added clause is connected. -/
theorem Connected.addResolvent (hs : s.Connected) {lits : List Lit}
    (hnodup : (lits.map Lit.vidx).Nodup) :
  (s.addResolvent lits).Connected
  where
    mem := by
      intro l c hc
      have hold : c ∈ s.occs l → l ∈ (s.addResolvent lits).clause c := by
        intro hc
        have hmem := hs.mem l c hc
        rwa [clause_addResolvent_of_lt lits (lt_of_mem_clause hmem)]
      rw [occs_addResolvent] at hc
      split at hc
      · next hl =>
          obtain hc | hc := List.mem_append.mp hc
          · exact hold hc
          · rw [List.mem_singleton.mp hc, clause_addResolvent_self]
            exact hl.1
      · exact hold hc
    full := by
      intro c hgarbage l hl hval
      have hlt := lt_of_mem_clause hl
      rw [length_addResolvent, Nat.lt_succ_iff_lt_or_eq] at hlt
      rw [occs_addResolvent]
      obtain hlt | rfl := hlt
      · rw [clause_addResolvent_of_lt lits hlt] at hl
        have hg : s.garbage c = false := by
          rw [← hgarbage]
          exact (Function.update_of_ne (Nat.ne_of_lt hlt) _ _).symm
        have hc := hs.full c hg l hl hval
        split
        · exact List.mem_append_left _ hc
        · exact hc
      · rw [clause_addResolvent_self] at hl
        rw [if_pos ⟨hl, hval⟩]
        exact List.mem_append_right _ (List.mem_singleton_self _)
    occs_nodup := by
      intro l
      rw [occs_addResolvent]
      split
      · apply List.Nodup.append (hs.occs_nodup l) (List.nodup_singleton _)
        rw [List.disjoint_singleton]
        intro hc
        exact Nat.lt_irrefl _ (lt_of_mem_clause (hs.mem l _ hc))
      · exact hs.occs_nodup l
    nodup := by
      intro c
      obtain hlt | rfl | hlt := Nat.lt_trichotomy c s.clauses.length
      · rw [clause_addResolvent_of_lt lits hlt]
        exact hs.nodup c
      · rw [clause_addResolvent_self]
        exact hnodup
      · have hnil : (s.addResolvent lits).clause c = [] := by
          rw [clause, List.getD_eq_default]
          rw [length_addResolvent]
          exact hlt
        rw [hnil]
        exact List.nodup_nil

/-- A clause without the pivot that follows may be added. -/
theorem reduces_addResolvent (hs : s.Connected) {lits : List Lit}
    (hnodup : (lits.map Lit.vidx).Nodup) (hoff : ∀ l ∈ lits, l.vidx ≠ v)
    (himplied : ∀ σ, s.Model σ → Clause.Sat σ lits) :
  Reduces v s (s.addResolvent lits)
  where
    clauses := ⟨[lits], rfl⟩
    vals := fun _ _ h => h
    garbage := by
      intro c hc hg
      rw [← hg]
      exact Function.update_of_ne (Nat.ne_of_lt hc) _ _
    gate := fun c hc => Function.update_of_ne (Nat.ne_of_lt hc) _ _
    gates := rfl
    marks := rfl
    unsat := fun h => h
    occs := by
      intro l hl
      rw [occs_addResolvent, if_neg]
      intro hmem
      exact hoff l hmem.1 hl
    connected := hs.addResolvent hnodup
    root := fun _ h => h.root
    added := by
      intro σ hσ c hlt hle
      rw [length_addResolvent] at hlt
      have hc : c = s.clauses.length := by omega
      rw [hc, clause_addResolvent_self]
      exact himplied σ hσ
    removed := by
      intro _ c hc hfalse htrue
      have hg : (s.addResolvent lits).garbage c = s.garbage c :=
        Function.update_of_ne (Nat.ne_of_lt hc) _ _
      rw [hg, hfalse] at htrue
      cases htrue

/-- A clause is replaced by its literals that are not false without the pivot, when these
follow. -/
theorem reduces_self_subsumption (hs : s.Connected) {c : Nat} {pivot : Lit}
    (hc : c < s.clauses.length) (hsub : ∀ l ∈ s.clause c, l.vidx = pivot.vidx → l = pivot)
    (himplied : ∀ σ, s.Model σ →
      Clause.Sat σ ((s.clause c).filter (fun l => l ≠ pivot ∧ s.val l ≠ some false))) :
  Reduces pivot.vidx s (s.elimOnTheFlySelfSubsumption c pivot)
  := by
  generalize hlits : (s.clause c).filter (fun l => l ≠ pivot ∧ s.val l ≠ some false) = lits
    at himplied
  have hmem : ∀ l ∈ lits, l ∈ s.clause c ∧ l.vidx ≠ pivot.vidx := by
    intro l hl
    rw [← hlits, List.mem_filter, decide_eq_true_iff] at hl
    exact ⟨hl.1, fun hvar => hl.2.1 (hsub l hl.1 hvar)⟩
  have hnodup : (lits.map Lit.vidx).Nodup := by
    rw [← hlits]
    exact (hs.nodup c).sublist (List.filter_sublist.map _)
  have hadd := reduces_addResolvent hs hnodup (fun l hl => (hmem l hl).2) himplied
  rw [elimOnTheFlySelfSubsumption, hlits]
  apply hadd.trans
  apply reduces_markGarbage hadd.connected
  intro σ hσ _
  -- the new clause is not garbage and does not mention the pivot
  have hnew : Clause.Sat σ lits := by
    have hclause := clause_addResolvent_self (s := s) lits
    have hsat := hσ.sat s.clauses.length
    rw [clause_markGarbage, hclause] at hsat
    apply hsat
    · change s.clauses.length < (s.addResolvent lits).clauses.length
      rw [length_addResolvent]
      exact Nat.lt_succ_self _
    · rw [← Bool.not_eq_true, garbage_markGarbage]
      rintro (heq | hg)
      · exact Nat.ne_of_gt hc heq
      · have hfalse : (s.addResolvent lits).garbage s.clauses.length = false :=
          Function.update_self _ _ _
        rw [hfalse] at hg
        cases hg
    · exact fun l hl => (hmem l hl).2
  rw [clause_addResolvent_of_lt lits hc]
  obtain ⟨l, hl, hval⟩ := hnew
  exact ⟨l, (hmem l hl).1, (hmem l hl).2, hval⟩

/-! ### Resolving -/

/-- What resolving two clauses does: the clauses are reduced, and a resolvent that is returned
follows and leaves the state as it was.  If none is returned, then one of the clauses is garbage
or satisfied apart from the variable by every model.  Only propagation may assign the
variable. -/
structure Step (v : Nat) (s : Eliminator) (propagateEagerly : Bool) (c d : Nat)
    (r : Option (List Lit) × Eliminator) : Prop where
  reduces : Reduces v s r.2
  unassigned : propagateEagerly = false → r.2.vals v = none
  none : r.1 = none → r.2.unsat = false → r.2.vals v = none → r.2.garbage c = false →
    r.2.garbage d = false → ∀ σ, r.2.ModelOff v σ →
    Clause.SatOff σ v (s.clause c) ∨ Clause.SatOff σ v (s.clause d)
  some : ∀ lits, r.1 = some lits → r.2 = s ∧ (lits.map Lit.vidx).Nodup
    ∧ (∀ σ, s.Model σ → Clause.Sat σ lits)
    ∧ ∀ l ∈ lits, l.vidx ≠ v ∧ (l ∈ s.clause c ∨ l ∈ s.clause d)

/-- Resolving is symmetric in the two clauses. -/
theorem Step.symm {propagateEagerly : Bool} {c d : Nat} {r : Option (List Lit) × Eliminator}
    (h : Step v s propagateEagerly c d r) :
  Step v s propagateEagerly d c r
  where
    reduces := h.reduces
    unassigned := h.unassigned
    none := fun hr hunsat hv hd hc σ hσ => (h.none hr hunsat hv hc hd σ hσ).symm
    some := by
      intro lits hr
      obtain ⟨heq, hnodup, himplied, hmem⟩ := h.some lits hr
      exact ⟨heq, hnodup, himplied, fun l hl => ⟨(hmem l hl).1, (hmem l hl).2.symm⟩⟩

/-- A clause has one literal for each of its variables. -/
theorem Connected.eq_of_vidx (hs : s.Connected) {c : Nat} {k l : Lit} (hk : k ∈ s.clause c)
    (hl : l ∈ s.clause c) (h : k.vidx = l.vidx) :
  k = l
  := List.inj_on_of_nodup_map (hs.nodup c) hk hl h

/-- The literals of an antecedent are other literals of the clause. -/
theorem Connected.antecedent_ne (hs : s.Connected) {c : Nat} {pivot l : Lit}
    (hc : pivot ∈ s.clause c) (hl : l ∈ s.antecedent pivot (s.clause c)) :
  l.vidx ≠ pivot.vidx
  := by
  obtain ⟨hl, hne, -⟩ := mem_antecedent.mp hl
  exact fun hvar => hne (hs.eq_of_vidx hl hc hvar)

/-- A true literal of an antecedent other than the pivot. -/
theorem exists_antecedent {σ : Assignment Nat} (hσ : s.Extends σ) {c : Nat} {pivot l : Lit}
    (hnot : ∀ l ∈ s.clause c, l ≠ pivot → s.val l ≠ some true) (hl : l ∈ s.clause c)
    (hne : l ≠ pivot) (hval : σ.value l = true) :
  l ∈ s.antecedent pivot (s.clause c)
  := by
  apply mem_antecedent.mpr
  refine ⟨hl, hne, ?_⟩
  cases h : s.val l with
  | none => rfl
  | some b =>
      cases b with
      | true => exact absurd h (hnot l hl hne)
      | false =>
          rw [hσ.value h] at hval
          cases hval

/-- A clause with the pivot does not matter off the pivot. -/
theorem modelOff_markGarbage {c : Nat} {l : Lit} (hl : l ∈ s.clause c) (hv : l.vidx = v)
    {σ : Assignment Nat} (hσ : (s.markGarbage c).ModelOff v σ) :
  s.ModelOff v σ
  := by
  refine ⟨hσ.root, ?_⟩
  intro d hd hgarbage hoff
  apply hσ.sat d hd _ hoff
  rw [← Bool.not_eq_true, garbage_markGarbage]
  rintro (rfl | hg)
  · exact hoff l hl hv
  · rw [hgarbage] at hg
    cases hg

/-- A list has all elements of `k` when it is long enough, besides its other elements. -/
theorem subset_of_length_le {k l : List Lit} (hl : l.Nodup)
    (h : k.length + (l.filter (fun x => x ∉ k)).length ≤ l.length) :
  k ⊆ l
  := by
  have hsplit := l.length_eq_length_filter_add (fun x => decide (x ∈ k))
  have hle : k.length ≤ (l.filter (fun x => decide (x ∈ k))).length := by
    simp only [← decide_not] at hsplit
    omega
  have hsub : l.filter (fun x => decide (x ∈ k)) ⊆ k := by
    intro x hx
    simpa using (List.mem_filter.mp hx).2
  have hperm := ((hl.filter _).subperm hsub).perm_of_length_le hle
  intro x hx
  exact (List.mem_filter.mp (hperm.mem_iff.mpr hx)).1

/-- Two clauses whose literals have been compared without finding a true literal or a
tautology. -/
structure Antecedents (s : Eliminator) (c : Nat) (pivot : Lit) (d : Nat) : Prop where
  connected : s.Connected
  val : s.val pivot = none
  memc : pivot ∈ s.clause c
  memd : -pivot ∈ s.clause d
  garbagec : s.garbage c = false
  garbaged : s.garbage d = false
  notc : ∀ l ∈ s.clause c, l ≠ pivot → s.val l ≠ some true
  notd : ∀ l ∈ s.clause d, l ≠ -pivot → s.val l ≠ some true
  neg : ∀ l ∈ s.antecedent (-pivot) (s.clause d), -l ∉ s.antecedent pivot (s.clause c)

namespace Antecedents

variable {c d : Nat} {pivot : Lit}

/-- The antecedents may be exchanged. -/
theorem symm (h : Antecedents s c pivot d) :
  Antecedents s d (-pivot) c
  where
    connected := h.connected
    val := by
      rw [val_neg, h.val]
      rfl
    memc := h.memd
    memd := by
      rw [Lit.neg_neg]
      exact h.memc
    garbagec := h.garbaged
    garbaged := h.garbagec
    notc := h.notd
    notd := by
      rw [Lit.neg_neg]
      exact h.notc
    neg := by
      rw [Lit.neg_neg]
      intro l hl hmem
      apply h.neg (-l) hmem
      rwa [Lit.neg_neg]

/-- Some literal of the antecedents is true in a model. -/
theorem exists_true (h : Antecedents s c pivot d) {σ : Assignment Nat} (hσ : s.Model σ) :
  ∃ l, (l ∈ s.antecedent pivot (s.clause c) ∨ l ∈ s.antecedent (-pivot) (s.clause d))
    ∧ σ.value l = true
  := by
  have hneg : σ.value (-pivot) = !σ.value pivot := Assignment.value_neg σ pivot
  cases hp : σ.value pivot with
  | false =>
      obtain ⟨l, hl, hval⟩ := hσ.sat c (lt_of_mem_clause h.memc) h.garbagec
      refine ⟨l, Or.inl (exists_antecedent hσ.root h.notc hl ?_ hval), hval⟩
      rintro rfl
      rw [hp] at hval
      cases hval
  | true =>
      obtain ⟨l, hl, hval⟩ := hσ.sat d (lt_of_mem_clause h.memd) h.garbaged
      refine ⟨l, Or.inr (exists_antecedent hσ.root h.notd hl ?_ hval), hval⟩
      rintro rfl
      rw [hneg, hp] at hval
      cases hval

/-- The literals of the resolvent. -/
theorem mem (h : Antecedents s c pivot d) {l : Lit}
    (hl : l ∈ s.antecedent pivot (s.clause c) ∨ l ∈ s.antecedent (-pivot) (s.clause d)) :
  s.val l = none ∧ l.vidx ≠ pivot.vidx ∧ (l ∈ s.clause c ∨ l ∈ s.clause d)
  := by
  obtain hl | hl := hl
  · obtain ⟨hmem, -, hval⟩ := mem_antecedent.mp hl
    exact ⟨hval, h.connected.antecedent_ne h.memc hl, Or.inl hmem⟩
  · obtain ⟨hmem, -, hval⟩ := mem_antecedent.mp hl
    have hne := h.connected.antecedent_ne h.memd hl
    rw [Lit.vidx_neg] at hne
    exact ⟨hval, hne, Or.inr hmem⟩

/-- A true literal of the resolvent satisfies one of the clauses apart from the pivot. -/
theorem satOff (h : Antecedents s c pivot d) {l : Lit}
    (hl : l ∈ s.antecedent pivot (s.clause c) ∨ l ∈ s.antecedent (-pivot) (s.clause d))
    {σ : Assignment Nat} (hval : σ.value l = true) :
  Clause.SatOff σ pivot.vidx (s.clause c) ∨ Clause.SatOff σ pivot.vidx (s.clause d)
  := by
  obtain ⟨-, hne, hmem⟩ := h.mem hl
  exact hmem.imp (fun hmem => ⟨l, hmem, hne, hval⟩) (fun hmem => ⟨l, hmem, hne, hval⟩)

/-- The resolvent has one literal for each of its variables. -/
theorem antecedent_vidx_nodup (h : Antecedents s c pivot d) :
  ((s.antecedent pivot (s.clause c)).map Lit.vidx).Nodup
  := (h.connected.nodup c).sublist (List.filter_sublist.map _)

/-- The literals of the resolvent have different variables. -/
theorem nodup (h : Antecedents s c pivot d) :
  ((s.antecedent pivot (s.clause c) ++ (s.antecedent (-pivot) (s.clause d)).filter
    (fun l => l ∉ s.antecedent pivot (s.clause c))).map Lit.vidx).Nodup
  := by
  rw [List.map_append]
  apply List.Nodup.append h.antecedent_vidx_nodup
  · exact h.symm.antecedent_vidx_nodup.sublist (List.filter_sublist.map _)
  · rw [List.disjoint_left]
    intro w hw hw'
    obtain ⟨k, hk, rfl⟩ := List.mem_map.mp hw
    obtain ⟨l, hl, hvar⟩ := List.mem_map.mp hw'
    rw [List.mem_filter, decide_eq_true_iff] at hl
    obtain rfl | rfl := Lit.eq_or_eq_neg hvar
    · exact hl.2 hk
    · apply h.neg _ hl.1
      rwa [Lit.neg_neg]

/-- When the first clause contains the resolvent, it is replaced by its other literals. -/
theorem self_subsumption (h : Antecedents s c pivot d)
    (hsub : s.antecedent (-pivot) (s.clause d) ⊆ s.antecedent pivot (s.clause c)) :
  Reduces pivot.vidx s (s.elimOnTheFlySelfSubsumption c pivot)
    ∧ (s.elimOnTheFlySelfSubsumption c pivot).garbage c = true
  := by
  constructor
  · apply reduces_self_subsumption h.connected (lt_of_mem_clause h.memc)
      (fun l hl hvar => h.connected.eq_of_vidx hl h.memc hvar)
    intro σ hσ
    obtain ⟨l, hl, hval⟩ := h.exists_true hσ
    have hl := hl.elim id (fun hl => hsub hl)
    obtain ⟨hmem, hne, hnone⟩ := mem_antecedent.mp hl
    refine ⟨l, ?_, hval⟩
    rw [List.mem_filter, decide_eq_true_iff]
    exact ⟨hmem, hne, by simp [hnone]⟩
  · exact garbage_markGarbage.mpr (Or.inl rfl)

/-- When both clauses contain the resolvent, the second one is removed too. -/
theorem self_subsumption_both (h : Antecedents s c pivot d)
    (hsub : s.antecedent (-pivot) (s.clause d) ⊆ s.antecedent pivot (s.clause c))
    (hsub' : s.antecedent pivot (s.clause c) ⊆ s.antecedent (-pivot) (s.clause d)) :
  Reduces pivot.vidx s ((s.elimOnTheFlySelfSubsumption c pivot).markGarbage d)
  := by
  obtain ⟨hreduces, hgarbage⟩ := h.self_subsumption hsub
  have hltc := lt_of_mem_clause h.memc
  have hltd := lt_of_mem_clause h.memd
  apply hreduces.trans
  apply reduces_markGarbage hreduces.connected
  intro σ hσ hv
  have hd := hreduces.clause hltd
  -- the first clause is satisfied apart from the pivot, by a literal of the second one
  have hσ' := modelOff_markGarbage (by rw [hd]; exact h.memd) (Lit.vidx_neg pivot) hσ
  obtain ⟨l, hl, hne, hval⟩ := hreduces.removed hv c hltc h.garbagec hgarbage σ hσ'
  have hroot : s.Extends σ := fun w b hw => hσ.root w b (hreduces.vals w b hw)
  have hmem := hsub' (exists_antecedent hroot h.notc hl (fun heq => hne (congrArg Lit.vidx heq)) hval)
  rw [hd]
  exact ⟨l, (mem_antecedent.mp hmem).1, hne, hval⟩

/-- Assigning the unit of the antecedents. -/
theorem assignUnit (h : Antecedents s c pivot d) {unit : Lit}
    (hunit : unit ∈ s.antecedent pivot (s.clause c) ∨ unit ∈ s.antecedent (-pivot) (s.clause d))
    (honly : ∀ l, l ∈ s.antecedent pivot (s.clause c) ∨ l ∈ s.antecedent (-pivot) (s.clause d) →
      l = unit) (propagateEagerly : Bool) :
  Step pivot.vidx s propagateEagerly c d
    (none, if propagateEagerly then (s.assignUnit unit).elimPropagate unit
      else s.assignUnit unit)
  := by
  have hassign : Propagated s (s.assignUnit unit) := by
    apply Propagated.assignUnit (h.mem hunit).1
    intro σ hσ
    obtain ⟨l, hl, hval⟩ := h.exists_true hσ
    rwa [honly l hl] at hval
  have hs := hassign.connected h.connected
  -- in both cases the unit is true afterwards
  have hstep : ∀ t, Propagated s t → (s.unsat = true → t.unsat = true) →
      t.val unit = some true → (propagateEagerly = false → t.vals pivot.vidx = none) →
      Step pivot.vidx s propagateEagerly c d (none, t) := by
    intro t ht hunsat hval hpivot
    refine ⟨ht.reduces h.connected hunsat _, hpivot, ?_, nofun⟩
    intro _ _ _ _ _ σ hσ
    exact h.satOff hunit (hσ.root.value hval)
  cases propagateEagerly with
  | false =>
      apply hstep _ hassign id (val_assignUnit_self unit)
      intro _
      have hne := (h.mem hunit).2.1
      exact (Function.update_of_ne (Ne.symm hne) _ _).trans (val_eq_none_iff.mp h.val)
  | true =>
      have hprop := elimPropagate_spec hs (val_assignUnit_self unit)
      apply hstep _ (hassign.trans hprop)
      · intro hunsat
        apply (propagateWork_refutes hs _).mono hunsat
        intro l hl
        rw [List.mem_singleton.mp hl]
        exact val_assignUnit_self unit
      · exact hprop.val (val_assignUnit_self unit)
      · nofun

/-- The part of `resolve_clauses` behind the loops. -/
theorem resolveLiterals_step (h : Antecedents s c pivot d) (propagateEagerly : Bool)
    {sizec sized : Nat} {k : List Lit}
    (hk : k = s.antecedent pivot (s.clause c) ++ (s.antecedent (-pivot) (s.clause d)).filter
      (fun l => l ∉ s.antecedent pivot (s.clause c)))
    (hsizec : sizec = (s.antecedent pivot (s.clause c)).length + 1)
    (hsized : sized = (s.antecedent (-pivot) (s.clause d)).length + 1) :
  Step pivot.vidx s propagateEagerly c d
    (s.resolveLiterals c pivot d propagateEagerly sizec sized k)
  := by
  have hmem : ∀ l, l ∈ k ↔
      l ∈ s.antecedent pivot (s.clause c) ∨ l ∈ s.antecedent (-pivot) (s.clause d) := by
    intro l
    rw [hk, List.mem_append, List.mem_filter, decide_eq_true_iff]
    tauto
  have hlen := congrArg List.length hk
  rw [List.length_append] at hlen
  -- a removed antecedent needs no resolvent
  have hpivot := val_eq_none_iff.mp h.val
  have hremoved : ∀ t, Reduces pivot.vidx s t → t.vals = s.vals →
      t.garbage c = true ∨ t.garbage d = true →
      Step pivot.vidx s propagateEagerly c d (none, t) := by
    intro t ht hvals hgarbage
    refine ⟨ht, fun _ => by rw [hvals, hpivot], ?_, nofun⟩
    intro _ _ _ hc hd
    obtain hg | hg := hgarbage
    · rw [hc] at hg
      cases hg
    · rw [hd] at hg
      cases hg
  have hfst : sizec > k.length →
      s.antecedent (-pivot) (s.clause d) ⊆ s.antecedent pivot (s.clause c) := by
    intro hgt l hl
    have hnil : (s.antecedent (-pivot) (s.clause d)).filter
        (fun l => l ∉ s.antecedent pivot (s.clause c)) = [] := by
      apply List.length_eq_zero_iff.mp
      omega
    simpa using List.filter_eq_nil_iff.mp hnil l hl
  have hsnd : sized > k.length →
      s.antecedent pivot (s.clause c) ⊆ s.antecedent (-pivot) (s.clause d) := by
    intro hgt
    apply subset_of_length_le h.symm.antecedent_vidx_nodup.of_map
    omega
  have hself := h.symm.self_subsumption
  rw [Lit.neg_neg, Lit.vidx_neg] at hself
  rw [resolveLiterals.eq_def]
  split
  · -- the resolvent is empty
    refine ⟨reduces_learnEmptyClause h.connected _, fun _ => hpivot, ?_, nofun⟩
    intro _ hunsat
    cases hunsat
  · next unit =>
      apply h.assignUnit ((hmem unit).mp (List.mem_singleton_self unit))
      intro l hl
      exact List.mem_singleton.mp ((hmem l).mpr hl)
  · dsimp only
    split
    · next hgt =>
        have hboth := h.self_subsumption_both (hfst hgt.1) (hsnd hgt.2)
        exact hremoved _ hboth rfl (Or.inr (garbage_markGarbage.mpr (Or.inl rfl)))
    split
    · next hgt =>
        obtain ⟨hreduces, hgarbage⟩ := h.self_subsumption (hfst hgt)
        exact hremoved _ hreduces rfl (Or.inl hgarbage)
    split
    · next hgt =>
        obtain ⟨hreduces, hgarbage⟩ := hself (hsnd hgt)
        exact hremoved _ hreduces rfl (Or.inr hgarbage)
    · refine ⟨Reduces.refl _ h.connected, fun _ => hpivot, nofun, ?_⟩
      rintro lits ⟨⟩
      refine ⟨rfl, ?_, ?_, ?_⟩
      · rw [hk]
        exact h.nodup
      · intro σ hσ
        obtain ⟨l, hl, hval⟩ := h.exists_true hσ
        exact ⟨l, (hmem l).mpr hl, hval⟩
      · intro l hl
        exact (h.mem ((hmem l).mp hl)).2

end Antecedents

/-! ### Resolving two clauses -/

/-- Unmarking a clause resets the marks of its variables. -/
theorem unmarkClause_marks (hmarks : ∀ w, s.marks w = 0) {c : Nat} {marks : Nat → Int}
    (hother : ∀ w, w ∉ (s.clause c).map Lit.vidx → marks w = s.marks w) :
  unmarkClause { s with marks := marks } c = s
  := by
  rw [Backward.unmarkClause_eq]
  have heq : (fun w => if w ∈ (s.clause c).map Lit.vidx then 0 else marks w) = s.marks := by
    funext w
    split
    · exact (hmarks w).symm
    · next hw => exact hother w hw
  change { s with marks := fun w => if w ∈ (s.clause c).map Lit.vidx then 0 else marks w } = s
  rw [heq]

theorem count_eq_one (hs : s.Connected) {c : Nat} {l : Lit} (hl : l ∈ s.clause c) :
  (s.clause c).count l = 1
  := List.count_eq_one_of_mem (hs.nodup c).of_map hl

/-- A satisfied antecedent is removed. -/
theorem step_satisfied (hs : s.Connected) (hv : s.vals v = none) {c d e : Nat}
    (he : e = c ∨ e = d) (hsat : s.Satisfied (s.clause e)) (propagateEagerly : Bool) :
  Step v s propagateEagerly c d (none, s.markGarbage e)
  := by
  refine ⟨(Propagated.markGarbage hsat).reduces hs id v, fun _ => hv, ?_, nofun⟩
  intro _ _ _ hc hd
  have hg : (s.markGarbage e).garbage e = true := garbage_markGarbage.mpr (Or.inl rfl)
  obtain rfl | rfl := he
  · rw [hg] at hc
    cases hc
  · rw [hg] at hd
    cases hd

theorem resolveOrdered_step (hs : s.Connected) (hmarks : ∀ w, s.marks w = 0) {c d : Nat}
    {pivot : Lit} (hpivot : s.val pivot = none) (hc : pivot ∈ s.clause c)
    (hd : -pivot ∈ s.clause d) (hgc : s.garbage c = false) (hgd : s.garbage d = false)
    (propagateEagerly : Bool) :
  Step pivot.vidx s propagateEagerly c d (s.resolveOrdered c pivot d propagateEagerly)
  := by
  have hv := val_eq_none_iff.mp hpivot
  have hsigns : s.Signs [] := by
    intro l
    rw [marked, hmarks]
    simp
  rw [resolveOrdered]
  generalize hloop : firstLoop pivot (s.clause c) s 0 [] = r
  obtain ⟨r, t⟩ := r
  obtain ⟨⟨marks, rfl, hother⟩, hnone, hsome⟩ := firstLoop_spec (hs.nodup c) (by simp) hsigns hloop
  cases r with
  | none =>
      have hunmark : (markGarbage { s with marks := marks } c).unmarkClause c
          = s.markGarbage c := unmarkClause_marks (s := s.markGarbage c) hmarks hother
      dsimp only
      rw [hunmark]
      exact step_satisfied hs hv (Or.inl rfl) (hnone rfl) _
  | some r =>
      obtain ⟨sizec, k⟩ := r
      obtain ⟨hk, hsigns, hsizec, hnotc⟩ := hsome sizec k rfl
      rw [List.nil_append] at hk
      rw [count_eq_one hs hc, Nat.zero_add] at hsizec
      dsimp only
      rw [unmarkClause_marks hmarks hother]
      have hspec : SecondSpec { s with marks := marks } pivot k (s.clause d) k 0 _ :=
        secondLoop_spec hsigns (s.clause d) k 0
      rw [show clause { s with marks := marks } d = s.clause d from rfl]
      generalize secondLoop { s with marks := marks } pivot (s.clause d) 0 k = r at hspec
      cases r with
      | satisfied => exact step_satisfied hs hv (Or.inr rfl) hspec _
      | tautological =>
          obtain ⟨l, hl, hneg⟩ := hspec
          rw [hk] at hneg
          refine ⟨Reduces.refl _ hs, fun _ => hv, ?_, fun _ hsome => by cases hsome⟩
          intro _ _ _ _ _ σ _
          have hd' : l.vidx ≠ pivot.vidx := by
            rw [← Lit.vidx_neg pivot]
            exact hs.antecedent_ne hd hl
          have hval : σ.value (-l) = !σ.value l := Assignment.value_neg σ l
          cases hl' : σ.value l with
          | true => exact Or.inr ⟨l, (mem_antecedent.mp hl).1, hd', hl'⟩
          | false =>
              left
              refine ⟨-l, (mem_antecedent.mp hneg).1, hs.antecedent_ne hc hneg, ?_⟩
              rw [hval, hl']
              rfl
      | literals sized clause =>
          obtain ⟨hclause, hsized, hnotd, hneg⟩ := hspec
          have hant : Antecedents s c pivot d := by
            refine ⟨hs, hpivot, hc, hd, hgc, hgd, hnotc, hnotd, ?_⟩
            rw [hk] at hneg
            exact hneg
          apply hant.resolveLiterals_step propagateEagerly _ hsizec
          · rw [hsized, count_eq_one hs hd, Nat.zero_add]
            rfl
          · rw [hclause, hk]
            rfl

/-- Resolving two clauses on the pivot. -/
theorem resolveClauses_step (hs : s.Connected) (hmarks : ∀ w, s.marks w = 0) {c d : Nat}
    {pivot : Lit} (hpivot : s.val pivot = none) (hc : pivot ∈ s.clause c)
    (hd : -pivot ∈ s.clause d) (propagateEagerly : Bool) :
  Step pivot.vidx s propagateEagerly c d (s.resolveClauses c pivot d propagateEagerly)
  := by
  rw [resolveClauses]
  split
  · next hgarbage =>
      rw [Bool.or_eq_true] at hgarbage
      refine ⟨Reduces.refl _ hs, fun _ => val_eq_none_iff.mp hpivot, ?_, nofun⟩
      intro _ _ _ hgc hgd
      dsimp only at hgc hgd
      rw [hgc, hgd] at hgarbage
      simp at hgarbage
  · next hgarbage =>
      rw [Bool.not_eq_true, Bool.or_eq_false_iff] at hgarbage
      split
      · have hneg : s.val (-pivot) = none := by
          rw [val_neg, hpivot]
          rfl
        have hstep := resolveOrdered_step hs hmarks hneg hd (by rwa [Lit.neg_neg]) hgarbage.2
          hgarbage.1 propagateEagerly
        rw [Lit.vidx_neg] at hstep
        exact hstep.symm
      · exact resolveOrdered_step hs hmarks hpivot hc hd hgarbage.1 hgarbage.2 propagateEagerly

end Eliminator

end Cadical
