import IgnoreGates.Cadical.BackwardCompare

/-!
# Soundness of backward subsumption

As long as `satisfied` is not left over from an earlier candidate, only redundant clauses are
removed.  A candidate behind a satisfied one is marked as garbage whatever it contains.
-/

namespace Cadical

open Logic

namespace Eliminator

variable {s t : Eliminator} {c d : Nat}

/-! ### What the comparison tells -/

/-- The unassigned literals of `c` are in the candidate, except for the complements of the
literals in `negated`. -/
theorem MeetsAll.covers (hs : s.Connected) {negated : List Lit}
    (h : s.MeetsAll c (s.clause d) negated) {k : Lit} (hk : k ∈ s.free c) :
  k ∈ s.clause d ∨ ∃ l ∈ negated, k = -l
  := by
  obtain ⟨pre, lit, post, hsplit, -, hnone, hmem, hlength, rfl, -⟩ := h
  generalize hlits : pre ++ [lit] = lits at *
  have hsub : lits.Sublist (s.clause d) := by
    rw [hsplit, List.append_cons pre lit post, hlits]
    apply List.sublist_append_left
  have hcommon : (s.common c lits).length = (s.free c).length := by
    rw [← hlits, common_append, common_singleton, if_pos ⟨hnone, hmem⟩, List.length_append]
    exact hlength
  let f : Lit → Lit := fun l => if l ∈ s.clause c then l else -l
  have hf : ∀ l ∈ s.common c lits, f l ∈ s.free c := by
    intro l hl
    have hspec := (List.mem_filter.mp hl).2
    rw [decide_eq_true_eq] at hspec
    apply List.mem_filter.mpr
    simp only [f]
    split
    · next hlc => exact ⟨hlc, by simpa using hspec.1⟩
    · next hlc =>
        refine ⟨hspec.2.resolve_left hlc, ?_⟩
        rw [decide_eq_true_eq, val_neg, hspec.1]
        rfl
  have hnodup : ((s.common c lits).map f).Nodup := by
    apply List.Nodup.of_map Lit.vidx
    have hvidx : ∀ l, (f l).vidx = l.vidx := by
      intro l
      simp only [f]
      split
      · rfl
      · exact l.vidx_neg
    rw [List.map_map, show Lit.vidx ∘ f = Lit.vidx from funext hvidx]
    exact (hs.nodup d).sublist ((List.filter_sublist.trans hsub).map _)
  have hperm : ((s.common c lits).map f).Perm (s.free c) := by
    apply (hnodup.subperm _).perm_of_length_le
    · rw [List.length_map, hcommon]
    · intro x hx
      obtain ⟨l, hl, rfl⟩ := List.mem_map.mp hx
      exact hf l hl
  obtain ⟨l, hl, rfl⟩ := List.mem_map.mp (hperm.mem_iff.mpr hk)
  have hlmem := (List.mem_filter.mp hl).1
  have hspec := (List.mem_filter.mp hl).2
  rw [decide_eq_true_eq] at hspec
  simp only [f]
  split
  · exact Or.inl (hsub.subset hlmem)
  · next hlc =>
      right
      refine ⟨l, List.mem_filter.mpr ⟨hlmem, ?_⟩, rfl⟩
      simpa using ⟨hspec.1, hspec.2.resolve_left hlc⟩

/-- A literal of `c` is unassigned or false when `c` is not satisfied. -/
theorem mem_free_or_false (hc : ¬ s.Satisfied (s.clause c)) {k : Lit} (hk : k ∈ s.clause c) :
  k ∈ s.free c ∨ s.val k = some false
  := by
  cases hval : s.val k with
  | none => exact Or.inl (List.mem_filter.mpr ⟨hk, by simpa using hval⟩)
  | some b =>
      cases b with
      | true => exact absurd ⟨k, hk, hval⟩ hc
      | false => exact Or.inr rfl

theorem MeetsAll.subsumes (hs : s.Connected) (hc : ¬ s.Satisfied (s.clause c))
    (h : s.MeetsAll c (s.clause d) []) :
  Clause.Subsumes (fun l => s.val l = some false) (s.clause c) (s.clause d)
  := by
  intro k hk
  obtain hfree | hfalse := mem_free_or_false hc hk
  · obtain hmem | ⟨l, hl, -⟩ := h.covers hs hfree
    · exact Or.inr hmem
    · cases hl
  · exact Or.inl hfalse

/-- The complemented literal of a candidate is unassigned, and can be removed. -/
theorem MeetsAll.strengthens (hs : s.Connected) (hc : ¬ s.Satisfied (s.clause c)) {n : Lit}
    (h : s.MeetsAll c (s.clause d) [n]) :
  n ∈ s.clause d ∧ s.val n = none
    ∧ Clause.Strengthens (fun l => s.val l = some false) (s.clause c) n (s.clause d)
  := by
  have hn : n ∈ s.clause d ∧ s.val n = none ∧ -n ∈ s.clause c := by
    obtain ⟨pre, lit, post, hsplit, -, -, -, -, hopposed, -⟩ := h
    have hmem : n ∈ s.opposed c (pre ++ [lit]) := by
      rw [hopposed]
      exact List.mem_singleton_self n
    obtain ⟨hmem, hspec⟩ := List.mem_filter.mp hmem
    rw [decide_eq_true_eq] at hspec
    refine ⟨?_, hspec⟩
    rw [hsplit, List.append_cons]
    exact List.mem_append_left _ hmem
  refine ⟨hn.1, hn.2.1, hn.2.2, ?_⟩
  intro k hk
  obtain hfree | hfalse := mem_free_or_false hc hk
  · obtain hmem | ⟨l, hl, rfl⟩ := h.covers hs hfree
    · exact Or.inr (Or.inr hmem)
    · rw [List.mem_singleton.mp hl]
      exact Or.inl rfl
  · exact Or.inr (Or.inl hfalse)

/-! ### Removing clauses and literals -/

/-- From `s` to `t`, redundant clauses have become garbage, and literals have been removed by
resolution with `c`. -/
structure Trimmed (s t : Eliminator) (c : Nat) : Prop where
  vals : t.vals = s.vals
  marks : t.marks = s.marks
  unsat : t.unsat = s.unsat
  length : t.clauses.length = s.clauses.length
  clause_self : t.clause c = s.clause c
  garbage_self : t.garbage c = s.garbage c
  mono : ∀ d, s.garbage d = true → t.garbage d = true
  garbage : ∀ d, t.garbage d = true → s.garbage d = true ∨ s.Redundant c d
  subset : ∀ d, t.clause d ⊆ s.clause d
  removed : ∀ d, ∀ l ∈ s.clause d, l ∉ t.clause d →
    Clause.Strengthens (fun l => s.val l = some false) (s.clause c) l (s.clause d)
  connected : t.Connected

namespace Trimmed

theorem refl (hs : s.Connected) (c : Nat) :
  Trimmed s s c
  where
    vals := rfl
    marks := rfl
    unsat := rfl
    length := rfl
    clause_self := rfl
    garbage_self := rfl
    mono := fun _ h => h
    garbage := fun _ h => Or.inl h
    subset := fun _ _ h => h
    removed := fun _ _ h h' => absurd h h'
    connected := hs

theorem val (h : Trimmed s t c) (lit : Lit) :
  t.val lit = s.val lit
  := by rw [Eliminator.val, Eliminator.val, h.vals]

/-- The clauses have the same models. -/
theorem model_iff (h : Trimmed s t c) (hs : s.Connected) (hlt : c < s.clauses.length)
    (hc : s.garbage c = false) (σ : Assignment Nat) :
  s.Model σ ↔ t.Model σ
  := by
  have hext : s.Extends σ ↔ t.Extends σ := by rw [Extends, Extends, h.vals]
  have hfalse {σ : Assignment Nat} (hσ : s.Extends σ) (l : Lit) (hl : s.val l = some false) :
      σ.value l = false := hσ.value hl
  constructor
  · rintro ⟨hroot, hsat⟩
    refine ⟨hext.mp hroot, ?_⟩
    intro d hd hgarbage
    rw [h.length] at hd
    have hsd : s.garbage d = false := by
      by_contra hsd
      rw [h.mono d (by simpa using hsd)] at hgarbage
      cases hgarbage
    exact Clause.sat_of_strengthened (hs.not_taut c) (hfalse hroot) (h.removed d)
      (hsat c hlt hc) (hsat d hd hsd)
  · rintro ⟨hroot, hsat⟩
    have hroot' := hext.mpr hroot
    refine ⟨hroot', ?_⟩
    intro d hd hgarbage
    rw [← h.length] at hd hlt
    cases htd : t.garbage d with
    | false =>
        obtain ⟨l, hl, hval⟩ := hsat d hd htd
        exact ⟨l, h.subset d hl, hval⟩
    | true =>
        obtain hsd | hsatisfied | hsubsumed := h.garbage d htd
        · rw [hsd] at hgarbage
          cases hgarbage
        · exact hroot'.sat hsatisfied
        · apply hsubsumed.sat (hfalse hroot')
          rw [← h.clause_self]
          exact hsat c hlt (h.garbage_self.trans hc)

/-- Redundant clauses become garbage. -/
theorem set_garbage (h : Trimmed s t c) {g : Nat → Bool} (hself : g c = t.garbage c)
    (hmono : ∀ d, t.garbage d = true → g d = true)
    (hred : ∀ d, g d = true → t.garbage d = true ∨ s.Redundant c d) :
  Trimmed s { t with garbage := g } c
  where
    vals := h.vals
    marks := h.marks
    unsat := h.unsat
    length := h.length
    clause_self := h.clause_self
    garbage_self := hself.trans h.garbage_self
    mono := fun d hd => hmono d (h.mono d hd)
    garbage := fun d hd => (hred d hd).elim (h.garbage d) Or.inr
    subset := h.subset
    removed := h.removed
    connected := by
      refine ⟨h.connected.mem, ?_, h.connected.occs_nodup, h.connected.nodup⟩
      intro d hd lit hlit hval
      apply h.connected.full d _ lit hlit hval
      by_contra hgarbage
      cases hd.symm.trans (hmono d (by simpa using hgarbage))

theorem markGarbage (h : Trimmed s t c) (hd : d ≠ c) (hred : s.Redundant c d) :
  Trimmed s (t.markGarbage d) c
  := by
  apply h.set_garbage (Function.update_of_ne hd.symm _ _)
  · intro d' hd'
    exact garbage_markGarbage.mpr (Or.inr hd')
  · intro d' hd'
    obtain rfl | hd' := garbage_markGarbage.mp hd'
    · exact Or.inr hred
    · exact Or.inl hd'

end Trimmed

theorem clause_strengthenClause_of_ne {d' : Nat} (h : d' ≠ d) (lit : Lit) :
  (s.strengthenClause d lit).clause d' = s.clause d'
  := by
  rw [clause, clause, strengthenClause, List.getD_eq_getElem?_getD,
    List.getElem?_set_ne h.symm, ← List.getD_eq_getElem?_getD]

theorem clause_strengthenClause_self (hlt : d < s.clauses.length) (lit : Lit) :
  (s.strengthenClause d lit).clause d = (s.clause d).filter (· ≠ lit)
  := by
  rw [clause, strengthenClause, List.getD_eq_getElem?_getD, List.getElem?_set_self hlt,
    Option.getD_some]

/-- A literal is removed from a clause. -/
theorem Trimmed.strengthen (h : Trimmed s t c) (hd : d ≠ c) (hclause : t.clause d = s.clause d)
    {n : Lit} (hn : n ∈ s.clause d)
    (hstr : Clause.Strengthens (fun l => s.val l = some false) (s.clause c) n (s.clause d)) :
  Trimmed s ((t.strengthenClause d n).removeOccs n d) c
  := by
  have hnd : n ∈ t.clause d := by rwa [hclause]
  have hlt := lt_of_mem_clause hnd
  have hself : ((t.strengthenClause d n).removeOccs n d).clause d
      = (t.clause d).filter (· ≠ n) := clause_strengthenClause_self hlt n
  have hother {d' : Nat} (hd' : d' ≠ d) : ((t.strengthenClause d n).removeOccs n d).clause d'
      = t.clause d' := clause_strengthenClause_of_ne hd' n
  have hsub (d' : Nat) : (((t.strengthenClause d n).removeOccs n d).clause d').Sublist
      (t.clause d') := by
    by_cases hd' : d' = d
    · rw [hd', hself]
      apply List.filter_sublist
    · rw [hother hd']
  have hoccs (l : Lit) : ((t.strengthenClause d n).removeOccs n d).occs l
      = if l = n then (t.occs n).filter (· ≠ d) else t.occs l := Function.update_apply ..
  refine ⟨h.vals, h.marks, h.unsat, ?_, ?_, h.garbage_self, h.mono, h.garbage, ?_, ?_, ?_⟩
  · rw [← h.length]
    exact List.length_set
  · rw [hother hd.symm, h.clause_self]
  · exact fun d' l hl => h.subset d' ((hsub d').subset hl)
  · intro d' l hl hnot
    by_cases hmem : l ∈ t.clause d'
    · by_cases hd' : d' = d
      · subst hd'
        rw [hself] at hnot
        obtain rfl : l = n := by
          by_contra hne
          exact hnot (List.mem_filter.mpr ⟨hmem, by simpa using hne⟩)
        exact hstr
      · rw [hother hd'] at hnot
        exact absurd hmem hnot
    · exact h.removed d' l hl hmem
  · refine ⟨?_, ?_, ?_, ?_⟩
    · intro l d' hd'
      rw [hoccs] at hd'
      by_cases heq : d' = d
      · subst heq
        split at hd'
        · have hne := (List.mem_filter.mp hd').2
          simp at hne
        · next hln =>
            rw [hself]
            exact List.mem_filter.mpr ⟨h.connected.mem l d' hd', by simpa using hln⟩
      · rw [hother heq]
        split at hd'
        · next hln =>
            rw [hln]
            exact h.connected.mem n d' (List.mem_of_mem_filter hd')
        · exact h.connected.mem l d' hd'
    · intro d' hd' l hl hval
      have hfull := h.connected.full d' hd' l ((hsub d').subset hl) hval
      rw [hoccs]
      split
      · next hln =>
          subst hln
          apply List.mem_filter.mpr
          refine ⟨hfull, ?_⟩
          rw [decide_eq_true_eq]
          rintro rfl
          rw [hself] at hl
          have hne := (List.mem_filter.mp hl).2
          simp at hne
      · exact hfull
    · intro l
      rw [hoccs]
      split
      · exact (h.connected.occs_nodup n).filter _
      · exact h.connected.occs_nodup l
    · intro d'
      exact (h.connected.nodup d').sublist ((hsub d').map _)

/-! ### What is promised -/

/-- From `s` to `t`, the clause `c` has been used for backward subsumption only to remove what
is redundant. -/
structure BackwardSound (s t : Eliminator) (c : Nat) : Prop where
  garbage : ∀ d, s.garbage d = false → t.garbage d = true → t.Satisfied (s.clause d)
    ∨ Clause.Subsumes (fun l => s.val l = some false) (s.clause c) (s.clause d)
  removed : ∀ d, ∀ l ∈ s.clause d, l ∉ t.clause d →
    Clause.Strengthens (fun l => s.val l = some false) (s.clause c) l (s.clause d)
  units : ∀ σ, s.Model σ → t.Extends σ
  equivalent : ∀ σ, s.unsat = false ∧ s.Model σ ↔ t.unsat = false ∧ t.Model σ

/-- The clauses have been trimmed, and then units may have been propagated. -/
def Reduced (s t : Eliminator) (c : Nat) : Prop :=
  ∃ m, Trimmed s m c ∧ Propagated m t ∧ Refutes m t

theorem Trimmed.reduced (h : Trimmed s t c) :
  Reduced s t c
  := ⟨t, h, Propagated.refl t, .of_unsat rfl⟩

theorem Reduced.sound (h : Reduced s t c) (hs : s.Connected) (hlt : c < s.clauses.length)
    (hc : s.garbage c = false) :
  BackwardSound s t c
  := by
  obtain ⟨m, htrim, hprop, hrefutes⟩ := h
  have hvals : ∀ l b, s.val l = some b → t.val l = some b := by
    intro l b hval
    rw [← htrim.val] at hval
    exact hprop.val hval
  constructor
  · intro d hsd htd
    obtain hmd | ⟨l, hl, hval⟩ := hprop.satisfied d htd
    · obtain hgarbage | ⟨l, hl, hval⟩ | hsubsumed := htrim.garbage d hmd
      · rw [hgarbage] at hsd
        cases hsd
      · exact Or.inl ⟨l, hl, hvals l _ hval⟩
      · exact Or.inr hsubsumed
    · rw [hprop.clause] at hl
      exact Or.inl ⟨l, htrim.subset d hl, hval⟩
  · intro d l hl hnot
    rw [hprop.clause] at hnot
    exact htrim.removed d l hl hnot
  · intro σ hσ
    exact hprop.implied σ ((htrim.model_iff hs hlt hc σ).mp hσ)
  · intro σ
    rw [htrim.model_iff hs hlt hc σ, ← htrim.unsat]
    constructor
    · rintro ⟨hunsat, hσ⟩
      refine ⟨?_, hprop.model hσ⟩
      by_contra ht
      obtain hm | hnone := hrefutes.sound (by simpa using ht)
      · rw [hm] at hunsat
        cases hunsat
      · exact hnone σ hσ
    · rintro ⟨hunsat, hσ⟩
      refine ⟨?_, hprop.extends_of hσ.root, ?_⟩
      · by_contra hm
        rw [hrefutes.mono (by simpa using hm)] at hunsat
        cases hunsat
      · intro d hd hmd
        rw [← hprop.clause]
        cases htd : t.garbage d with
        | false =>
            apply hσ.sat d _ htd
            rwa [hprop.clauses]
        | true =>
            apply hσ.root.sat
            apply (hprop.satisfied d htd).resolve_left
            rw [hmd]
            exact Bool.false_ne_true

end Eliminator

end Cadical
