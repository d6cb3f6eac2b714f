import IgnoreGates.Cadical.Restore

/-!
# Incremental runs

Between two calls clauses and assumptions are added, and before a call the clauses that these
touch are restored.  During a call the formula is replaced by equivalent ones, and clauses are
removed from it.  Whatever the order of these steps, a model of what is left is extended to a
model of all clauses that have been added, and of the assumptions.
-/

namespace Cadical

open Logic

namespace External

/-- The entry as a removed clause. -/
def Entry.weakened (e : Entry) : Weakened Lit :=
  ⟨e.witness, e.clause⟩

theorem extendEntry_eq (e : Entry) (vals : Assignment Nat) :
  extendEntry e vals = e.weakened.extend vals
  := by
  rw [extendEntry, Weakened.extend]
  simp only [flip_eq_make]
  rfl

theorem extend_eq (E : List Entry) (vals : Assignment Nat) :
  External.extend E vals = Logic.extend (E.map Entry.weakened) vals
  := by
  rw [External.extend, Logic.extend, List.foldr_map]
  congr 1
  funext e vals
  exact extendEntry_eq e vals

/-! ### Tainted literals -/

namespace Extension

theorem internalize_frame (s : Extension) (elit : Int) :
  (s.internalize elit).extension = s.extension ∧ (s.internalize elit).witness = s.witness
    ∧ s.tainted ⊆ (s.internalize elit).tainted
    ∧ (-elit ∈ s.witness → elit ∈ (s.internalize elit).tainted)
  := by
  rw [internalize]
  split
  · next h => exact ⟨rfl, rfl, Finset.subset_insert _ _, fun _ => Finset.mem_insert_self _ _⟩
  · next h =>
      rw [not_and, imp_not_comm] at h
      refine ⟨rfl, rfl, Finset.Subset.refl _, fun hmem => ?_⟩
      exact Decidable.not_not.mp (h hmem)

theorem foldl_internalize (s : Extension) (c : List Int) :
  (c.foldl internalize s).extension = s.extension ∧ (c.foldl internalize s).witness = s.witness
    ∧ s.tainted ⊆ (c.foldl internalize s).tainted
    ∧ ∀ elit ∈ c, -elit ∈ s.witness → elit ∈ (c.foldl internalize s).tainted
  := by
  induction c generalizing s with
  | nil => exact ⟨rfl, rfl, Finset.Subset.refl _, nofun⟩
  | cons elit c ih =>
      obtain ⟨hextension, hwitness, hsub, hmem⟩ := s.internalize_frame elit
      obtain ⟨hextension', hwitness', hsub', hmem'⟩ := ih (s.internalize elit)
      rw [List.foldl_cons]
      refine ⟨hextension'.trans hextension, hwitness'.trans hwitness, hsub.trans hsub',
        List.forall_mem_cons.mpr ⟨fun h => hsub' (hmem h), ?_⟩⟩
      intro k hk hwit
      exact hmem' k hk (hwitness ▸ hwit)

/-- The literals of the clauses are tainted when their complements are witnesses. -/
def Taints (s : Extension) (D : Set (Clause Lit)) : Prop :=
  ∀ c ∈ D, ∀ l ∈ c, -l.int ∈ s.witness → l.int ∈ s.tainted

variable {s : Extension} {D : Set (Clause Lit)}

theorem Taints.internalize (h : s.Taints D) (c : List Lit) :
  ((ints c).foldl internalize s).Taints (insert c D)
  := by
  obtain ⟨-, hwitness, hsub, hmem⟩ := s.foldl_internalize (ints c)
  rintro d (rfl | hd) l hl hneg
  · rw [hwitness] at hneg
    exact hmem l.int (List.mem_map_of_mem hl) hneg
  · rw [hwitness] at hneg
    exact hsub (h d hd l hl hneg)

/-- An entry without a tainted witness spares the clauses. -/
theorem Taints.spares (h : s.Taints D) {e : Entry} (hwitness : ∀ l ∈ e.witness, l.int ∈ s.witness)
    (htainted : ¬ ∃ l ∈ e.witness, -l.int ∈ s.tainted) {c : Clause Lit} (hc : c ∈ D) :
  e.weakened.Spares c
  := by
  intro l hl hmem
  have hneg : -(Literal.neg l).int = l.int := Int.neg_neg l.int
  apply htainted
  refine ⟨Literal.neg l, hmem, ?_⟩
  rw [hneg]
  exact h c hc l hl (hwitness _ hmem)

end Extension

/-! ### Restoring -/

variable {o : RestoreOptions} {fixed : List (List Int) → Int → Int} {P Q : Assignment Nat → Prop}
  {D D₀ G : Set (Clause Lit)} {s : Extension}

/-- What has been restored is kept in the list. -/
theorem restored_subset (E : List Entry) (s : Extension) (restored : List (List Lit)) :
  restored ⊆ (restoreEntries o fixed E s restored).2.1
  := by
  induction E generalizing s restored with
  | nil => exact List.Subset.refl _
  | cons e E ih =>
      rw [restoreEntries]
      split
      · exact ih s restored
      · split
        · exact List.Subset.trans (List.subset_append_left _ _) (ih _ _)
        · exact ih s restored

/-- The entries that stay lead back from the formula with the new and the restored clauses, and
they spare all clauses whose literals have been tainted. -/
theorem restoreEntries_reconstructs {E : List Entry}
    (h : Reconstructs P (E.map Entry.weakened) Q) (hG : s.Taints G) (hDG : D ⊆ G)
    (hwitness : ∀ e ∈ E, ∀ l ∈ e.witness, l.int ∈ s.witness) {restored : List (List Lit)}
    (hrestored : ∀ c ∈ restored, c ∈ D) (hsub : D₀ ⊆ D)
    (hfixed : ∀ (R : List (List Lit)) (l : Lit), 0 < fixed (R.map ints) l.int → ∀ σ, Q σ →
      Models σ D₀ → (∀ c ∈ R, Clause.Sat σ c) → σ.value l = true) :
  let r := restoreEntries o fixed E s restored
  Reconstructs (fun σ => P σ ∧ Models σ D) (r.1.map Entry.weakened)
      (fun σ => (Q σ ∧ Models σ D) ∧ ∀ c ∈ r.2.1, Clause.Sat σ c)
    ∧ r.1.Sublist E ∧ ∀ e ∈ r.1, ∀ c ∈ G, e.weakened.Spares c
  := by
  induction E generalizing P D G s restored with
  | nil =>
      refine ⟨(h.add nofun).congr (fun _ => Iff.rfl) ?_, List.Sublist.refl _, nofun⟩
      exact fun σ => ⟨fun hσ => ⟨hσ, fun c hc => hσ.2 c (hrestored c hc)⟩, And.left⟩
  | cons e E ih =>
      obtain ⟨R, htail, hP, hextend⟩ := h.exists_tail
      obtain ⟨hwe, hwE⟩ := List.forall_mem_cons.mp hwitness
      rw [restoreEntries]
      split
      · -- the clause is satisfied by a literal of root level
        next hflush =>
          obtain ⟨-, l, hl, hpos⟩ := hflush
          obtain ⟨hrec, hsublist, hspares⟩ := ih htail hG hDG hwE hrestored hsub
          refine ⟨hrec.congr ?_ (fun _ => Iff.rfl), hsublist.cons e, hspares⟩
          intro σ
          refine ⟨fun hσ => ⟨((hP σ).mp hσ.1).1, hσ.2⟩, fun hσ => ⟨(hP σ).mpr ⟨hσ.1, ?_⟩, hσ.2⟩⟩
          exact ⟨l, hl, hfixed restored l hpos σ (htail.implied hσ.1) (hσ.2.mono hsub)
            (fun c hc => hσ.2 c (hrestored c hc))⟩
      · split
        · -- the clause is restored, and becomes one of the new clauses
          next hrestore =>
            have hframe := s.foldl_internalize (ints e.clause)
            obtain ⟨hrec, hsublist, hspares⟩ := ih htail (hG.internalize e.clause)
              (Set.insert_subset_insert hDG) (by rw [hframe.2.1]; exact hwE)
              (fun c hc => (List.mem_append.mp hc).elim
                (fun hc => Or.inr (hrestored c hc)) (fun hc => Or.inl (List.mem_singleton.mp hc)))
              (hsub.trans (Set.subset_insert _ _))
            refine ⟨hrec.congr ?_ ?_, hsublist.cons e, fun d hd c hc => hspares d hd c (Or.inr hc)⟩
            · intro σ
              rw [hP, and_assoc]
              exact and_congr_right' Set.forall_mem_insert.symm
            · intro σ
              have hmem : e.clause ∈ (restoreEntries o fixed E
                  ((ints e.clause).foldl Extension.internalize s) (restored ++ [e.clause])).2.1 :=
                restored_subset E _ _
                  (List.mem_append_right _ (List.mem_singleton_self e.clause))
              constructor
              · exact fun hσ => ⟨⟨hσ.1.1, hσ.1.2.mono (Set.subset_insert _ _)⟩, hσ.2⟩
              · exact fun hσ => ⟨⟨hσ.1.1, Set.forall_mem_insert.mpr ⟨hσ.2 _ hmem, hσ.1.2⟩⟩, hσ.2⟩
        · -- the entry stays
          next hkeep =>
            obtain ⟨hrec, hsublist, hspares⟩ := ih htail hG hDG hwE hrestored hsub
            have he : ∀ c ∈ G, e.weakened.Spares c :=
              fun c hc => hG.spares hwe (fun h => hkeep (Or.inl h)) hc
            exact ⟨Reconstructs.keep hP hextend (fun c hc => he c (hDG hc)) hrec,
              hsublist.cons_cons e, List.forall_mem_cons.mpr ⟨he, hspares⟩⟩

theorem ints_injective :
  Function.Injective ints
  := List.map_injective_iff.mpr (fun _ _ h => Lit.ext h)

/-! ### Runs -/

/-- The entries are pushed one after the other. -/
def Extension.pushEntries (s : Extension) (E : List Entry) : Extension :=
  E.foldl (fun s e => s.pushClauseAndWitness e.clause e.witness) s

theorem Extension.Has.pushEntries {E : List Entry} (h : s.Has E) (E' : List Entry) :
  (s.pushEntries E').Has (E ++ E') ∧ (s.pushEntries E').tainted = s.tainted
    ∧ ∀ v ∈ (s.pushEntries E').witness, v ∈ s.witness ∨ ∃ e ∈ E', ∃ l ∈ e.witness, l.int = v
  := by
  induction E' generalizing s E with
  | nil =>
      rw [List.append_nil]
      exact ⟨h, rfl, fun v hv => Or.inl hv⟩
  | cons e E' ih =>
      obtain ⟨hpush, htainted, honly⟩ := h.pushClauseAndWitness e.clause e.witness
      obtain ⟨hhas, htainted', honly'⟩ := ih hpush
      rw [List.append_assoc, List.singleton_append] at hhas
      refine ⟨hhas, htainted'.trans htainted, fun v hv => ?_⟩
      obtain hv | ⟨d, hd, l, hl, hlv⟩ := honly' v hv
      · refine (honly v hv).imp_right ?_
        rintro ⟨l, hl, hlv⟩
        exact ⟨e, List.mem_cons_self, l, hl, hlv⟩
      · exact Or.inr ⟨d, List.mem_cons_of_mem e hd, l, hl, hlv⟩

/-- The states of an incremental run, with all clauses `O` that have been added, the assumed
clauses `A`, the clauses `D` that are new since the last call, and the models `Q` of what the
solver works with.  Only clauses are removed whose witnesses spare the assumed clauses, and
`fixed` is true of literals only that follow from what the solver works with. -/
inductive Incremental (maxVar : Nat) (o : RestoreOptions) :
    Set (Clause Lit) → Set (Clause Lit) → Set (Clause Lit) → (Assignment Nat → Prop) → Extension → Prop
  | init : Incremental maxVar o ∅ ∅ ∅ (fun _ => True) ⟨[], ∅, ∅⟩
  | add {O A D : Set (Clause Lit)} {Q : Assignment Nat → Prop} {s : Extension}
      (h : Incremental maxVar o O A D Q s) (c : List Lit) :
      Incremental maxVar o (insert c O) A (insert c D) Q ((ints c).foldl Extension.internalize s)
  | assume {O A D : Set (Clause Lit)} {Q : Assignment Nat → Prop} {s : Extension}
      (h : Incremental maxVar o O A D Q s) (c : List Lit) :
      Incremental maxVar o O (insert c A) D Q ((ints c).foldl Extension.internalize s)
  | reset {O A D : Set (Clause Lit)} {Q : Assignment Nat → Prop} {s : Extension}
      (h : Incremental maxVar o O A D Q s) :
      Incremental maxVar o O ∅ D Q s
  | restore {O A D : Set (Clause Lit)} {Q : Assignment Nat → Prop} {s t : Extension}
      (h : Incremental maxVar o O A D Q s) (fixed : List (List Int) → Int → Int)
      (restored : List (List Lit))
      (hfixed : ∀ (R : List (List Lit)) (l : Lit), 0 < fixed (R.map ints) l.int → ∀ σ, Q σ →
        Models σ D → (∀ c ∈ R, Clause.Sat σ c) → σ.value l = true)
      (ht : internalRestoreClauses o fixed s = some (t, restored.map ints)) :
      Incremental maxVar o O A ∅
        (fun σ => (Q σ ∧ Models σ D) ∧ ∀ c ∈ restored, Clause.Sat σ c) t
  | equivalent {O A D : Set (Clause Lit)} {Q Q' : Assignment Nat → Prop} {s : Extension}
      (h : Incremental maxVar o O A D Q s) (hQ : ∀ σ, Q σ ↔ Q' σ) :
      Incremental maxVar o O A D Q' s
  | weaken {O A : Set (Clause Lit)} {Q Q' : Assignment Nat → Prop} {s : Extension}
      {E : List Entry} (h : Incremental maxVar o O A ∅ Q s)
      (hE : Reconstructs Q (E.map Entry.weakened) Q') (hbelow : Below maxVar E)
      (hfrozen : ∀ e ∈ E, ∀ c ∈ A, e.weakened.Spares c) :
      Incremental maxVar o O A ∅ Q' (s.pushEntries E)

/-- What holds in every state of a run. -/
structure Sound (maxVar : Nat) (O A D : Set (Clause Lit)) (Q : Assignment Nat → Prop)
    (s : Extension) (E : List Entry) (P : Assignment Nat → Prop) : Prop where
  has : s.Has E
  below : Below maxVar E
  original : ∀ σ, Models σ O ↔ P σ ∧ Models σ D
  reconstructs : Reconstructs P (E.map Entry.weakened) Q
  taints : s.Taints (D ∪ A)

variable {maxVar : Nat} {O A : Set (Clause Lit)}

theorem Sound.internalize {E : List Entry} (h : Sound maxVar O A D Q s E P) (c : List Lit) :
  ((ints c).foldl Extension.internalize s).Has E
    ∧ ((ints c).foldl Extension.internalize s).Taints (insert c (D ∪ A))
  := by
  obtain ⟨hextension, hwitness, -, -⟩ := s.foldl_internalize (ints c)
  refine ⟨⟨hextension.trans h.has.extension, ?_⟩, h.taints.internalize c⟩
  rw [hwitness]
  exact h.has.witness

/-- The entries that stay spare the new and the assumed clauses. -/
theorem Sound.restore {E : List Entry} (h : Sound maxVar O A D Q s E P) {t : Extension}
    {restored : List (List Lit)}
    (hfixed : ∀ (R : List (List Lit)) (l : Lit), 0 < fixed (R.map ints) l.int → ∀ σ, Q σ →
      Models σ D → (∀ c ∈ R, Clause.Sat σ c) → σ.value l = true)
    (ht : internalRestoreClauses o fixed s = some (t, restored.map ints)) :
  ∃ E', Sound maxVar O A ∅ (fun σ => (Q σ ∧ Models σ D) ∧ ∀ c ∈ restored, Clause.Sat σ c) t E'
    (fun σ => P σ ∧ Models σ D)
  := by
  have horiginal : ∀ σ, Models σ O ↔ (P σ ∧ Models σ D) ∧ Models σ (∅ : Set (Clause Lit)) :=
    fun σ => (h.original σ).trans (and_iff_left nofun).symm
  rw [internalRestoreClauses] at ht
  split at ht
  · next hnone =>
      obtain ⟨rfl, hmap⟩ := Prod.mk.inj (Option.some.inj ht)
      obtain rfl := List.map_eq_nil_iff.mp hmap.symm
      have hspares : ∀ e ∈ E, ∀ c ∈ D, e.weakened.Spares c := by
        intro e he c hc
        apply h.taints.spares (h.has.witness e he) _ (Or.inl hc)
        rw [hnone.2]
        rintro ⟨l, -, hl⟩
        exact absurd hl (Finset.notMem_empty _)
      have hadd := h.reconstructs.add (D := D) (by
        intro e he
        obtain ⟨d, hd, rfl⟩ := List.mem_map.mp he
        exact hspares d hd)
      refine ⟨E, h.has, h.below, horiginal, hadd.congr (fun _ => Iff.rfl) ?_, ?_⟩
      · exact fun σ => (and_iff_left (List.forall_mem_nil _)).symm
      · exact fun c hc => h.taints c (Or.inr (hc.resolve_left id))
  · obtain ⟨witness, heq, hwitness⟩ := restoreClauses_flatten o fixed h.has.extension
    rw [heq] at ht
    obtain ⟨rfl, hmap⟩ := Prod.mk.inj (Option.some.inj ht)
    obtain rfl := List.map_injective_iff.mpr ints_injective hmap
    obtain ⟨hrec, hsublist, hspares⟩ := restoreEntries_reconstructs (o := o) h.reconstructs h.taints
      Set.subset_union_left h.has.witness (List.forall_mem_nil _) (Set.Subset.refl D) hfixed
    refine ⟨_, ⟨rfl, fun e he l hl => (hwitness _).mpr ⟨e, he, l, hl, rfl⟩⟩,
      fun e he => h.below e (hsublist.subset he), horiginal, hrec, ?_⟩
    intro c hc l hl hneg
    obtain ⟨e, he, k, hk, hkl⟩ := (hwitness _).mp hneg
    have hkneg : k = Literal.neg l := Lit.ext hkl
    exact absurd (hkneg ▸ hk) (hspares e he c (Or.inr (hc.resolve_left id)) l hl)

theorem Incremental.sound (h : Incremental maxVar o O A D Q s) :
  ∃ E P, Sound maxVar O A D Q s E P
  := by
  induction h with
  | init =>
      refine ⟨[], fun _ => True, ⟨rfl, nofun⟩, nofun, ?_, .nil (fun _ => Iff.rfl), ?_⟩
      · exact fun σ => ⟨fun hσ => ⟨trivial, hσ⟩, And.right⟩
      · rintro c (hc | hc)
        · cases hc
        · cases hc
  | @add O A D Q s h c ih =>
      obtain ⟨E, P, hs⟩ := ih
      obtain ⟨hhas, htaints⟩ := hs.internalize c
      refine ⟨E, P, hhas, hs.below, ?_, hs.reconstructs, ?_⟩
      · intro σ
        rw [Models, Models, Set.forall_mem_insert, Set.forall_mem_insert, and_left_comm]
        exact and_congr_right' (hs.original σ)
      · rwa [Set.insert_union]
  | @assume O A D Q s h c ih =>
      obtain ⟨E, P, hs⟩ := ih
      obtain ⟨hhas, htaints⟩ := hs.internalize c
      refine ⟨E, P, hhas, hs.below, hs.original, hs.reconstructs, ?_⟩
      rwa [Set.union_insert]
  | reset h ih =>
      obtain ⟨E, P, hs⟩ := ih
      exact ⟨E, P, hs.has, hs.below, hs.original, hs.reconstructs,
        fun c hc => hs.taints c (Or.inl (hc.resolve_right id))⟩
  | restore h fixed restored hfixed ht ih =>
      obtain ⟨E, P, hs⟩ := ih
      obtain ⟨E', hs'⟩ := hs.restore hfixed ht
      exact ⟨E', _, hs'⟩
  | equivalent h hQ ih =>
      obtain ⟨E, P, hs⟩ := ih
      exact ⟨E, P, hs.has, hs.below, hs.original, hs.reconstructs.congr (fun _ => Iff.rfl) hQ,
        hs.taints⟩
  | @weaken O A Q Q' s E' h hE hbelow hfrozen ih =>
      obtain ⟨E, P, hs⟩ := ih
      obtain ⟨hhas, htainted, honly⟩ := hs.has.pushEntries E'
      refine ⟨E ++ E', P, hhas, ?_, hs.original, ?_, ?_⟩
      · intro e he
        exact (List.mem_append.mp he).elim (hs.below e) (hbelow e)
      · rw [List.map_append]
        exact hs.reconstructs.trans hE
      · intro c hc l hl hneg
        rw [htainted]
        obtain hneg | ⟨e, he, k, hk, hkl⟩ := honly _ hneg
        · exact hs.taints c hc l hl hneg
        · exfalso
          have hkneg : k = Literal.neg l := Lit.ext hkl
          exact hfrozen e he c (hc.resolve_left id) l hl (hkneg ▸ hk)

/-! ### A small run -/

section Run

/-- Clauses are restored only when they have to be, and satisfied ones are dropped. -/
def runOptions : RestoreOptions :=
  ⟨0, true⟩

/-- The clause of the run. -/
def runClause : List Lit :=
  [Backward.lit 1, Backward.lit 2]

/-- The clause has been added, and then removed with its first literal as witness. -/
theorem weakened_incremental :
  Incremental 2 runOptions {runClause} ∅ ∅ (fun _ => True) ⟨[0, 1, 0, 1, 2], {1}, ∅⟩
  := by
  have hinit : Incremental 2 runOptions ∅ ∅ ∅ (fun _ => True) ⟨[], ∅, ∅⟩ := .init
  have hadd := hinit.add runClause
  rw [insert_empty_eq] at hadd
  have hrestore := hadd.restore (t := ⟨[], ∅, ∅⟩) (fun _ _ => 0) []
    (fun _ _ hpos => absurd hpos (by decide)) (by decide +kernel)
  have hmake : ∀ σ : Assignment Nat,
      Clause.Sat ((Weakened.mk [Backward.lit 1] runClause).extend σ) runClause := by
    intro σ
    rw [Weakened.extend]
    split
    · next hsat => exact hsat
    · exact ⟨Backward.lit 1, List.mem_cons_self, Assignment.make_value_self σ _⟩
  refine hrestore.weaken (E := [⟨[Backward.lit 1], runClause⟩]) (.single ?_ ?_ ?_) ?_
    (fun _ _ c hc => absurd hc (Set.notMem_empty c))
  · exact fun σ hσ => hσ.1.2 runClause rfl
  · exact fun σ _ => trivial
  · refine fun σ _ => ⟨⟨trivial, ?_⟩, List.forall_mem_nil _⟩
    rintro c rfl
    exact hmake σ
  · intro e he
    rw [List.mem_singleton.mp he]
    exact ⟨by decide, by decide⟩

/-- The complement of the witness is added, so that the clause is restored. -/
theorem restored_incremental :
  Incremental 2 runOptions {[Backward.lit (-1)], runClause} ∅ ∅
    (fun σ => (True ∧ Models σ {[Backward.lit (-1)]}) ∧ ∀ c ∈ [runClause], Clause.Sat σ c)
    ⟨[], ∅, ∅⟩
  := by
  have hadd := weakened_incremental.add [Backward.lit (-1)]
  rw [insert_empty_eq] at hadd
  exact hadd.restore (fun _ _ => 0) [runClause] (fun _ _ hpos => absurd hpos (by decide))
    (by decide +kernel)

end Run

/-! ### Answers -/

/-- In every state of an incremental run without new clauses and tainted literals, `extend`
stays inside of the array, and it turns an assignment that satisfies what the solver works with
and the assumed clauses into a model of all clauses that have been added and of the assumed
clauses. -/
theorem extend_incremental (h : Incremental maxVar o O A ∅ Q s) (htainted : s.tainted = ∅)
    (e2i : Nat → Int) (val : Int → Int) (vals : Nat → Bool)
    (hQ : Q (mapVals maxVar e2i val vals)) (hA : Models (mapVals maxVar e2i val vals) A) :
  ∃ τ, extendStack maxVar e2i val vals s.extension = some τ ∧ Models τ (O ∪ A)
  := by
  obtain ⟨E, P, hs⟩ := h.sound
  have hspares : ∀ e ∈ E.map Entry.weakened, ∀ c ∈ A, e.Spares c := by
    intro e he c hc
    obtain ⟨d, hd, rfl⟩ := List.mem_map.mp he
    apply hs.taints.spares (hs.has.witness d hd) _ (Or.inr hc)
    rw [htainted]
    rintro ⟨l, -, hl⟩
    exact absurd hl (Finset.notMem_empty _)
  refine ⟨External.extend E (mapVals maxVar e2i val vals), ?_, ?_⟩
  · rw [hs.has.extension]
    exact extendStack_flatten hs.below e2i val vals
  · rw [extend_eq, Models.union_iff, hs.original]
    exact ⟨⟨hs.reconstructs.extend hQ, nofun⟩, Reconstructs.models_extend hspares hA⟩

/-- The witness of the removed clause is made true. -/
theorem extend_incremental_weakened :
  ∃ τ, extendStack 2 (fun i => i) (fun _ => -1) (fun _ => false) [0, 1, 0, 1, 2] = some τ
    ∧ Models τ ({runClause} ∪ ∅)
  := extend_incremental weakened_incremental rfl (fun i => i) (fun _ => -1) (fun _ => false) trivial
    nofun

/-- When no assignment satisfies what the solver works with, the new clauses and the assumed
clauses, none satisfies all clauses that have been added and the assumed clauses. -/
theorem unsatisfiable_incremental (h : Incremental maxVar o O A D Q s)
    (hunsat : ∀ σ, Q σ → Models σ D → ¬ Models σ A) :
  ¬ Satisfiable (O ∪ A)
  := by
  obtain ⟨E, P, hs⟩ := h.sound
  rintro ⟨σ, hσ⟩
  rw [Models.union_iff, hs.original] at hσ
  exact hunsat σ (hs.reconstructs.implied hσ.1.1) hσ.1.2 hσ.2

/-- The clause has been restored, and its other literal is assumed to be false. -/
theorem unsatisfiable_incremental_restored :
  ¬ Satisfiable ({[Backward.lit (-1)], runClause} ∪ insert [Backward.lit (-2)] ∅)
  := by
  apply unsatisfiable_incremental (restored_incremental.assume [Backward.lit (-2)])
  rintro σ ⟨⟨-, hneg⟩, hclause⟩ - hassumed
  obtain ⟨k, hk, hkval⟩ := hneg _ rfl
  obtain ⟨l, hl, hlval⟩ := hassumed _ (Or.inl rfl)
  obtain ⟨m, hm, hmval⟩ := hclause runClause (List.mem_singleton_self runClause)
  rw [List.mem_singleton.mp hk,
    show Backward.lit (-1) = Literal.neg (Backward.lit 1) from rfl, Assignment.value_neg] at hkval
  rw [List.mem_singleton.mp hl,
    show Backward.lit (-2) = Literal.neg (Backward.lit 2) from rfl, Assignment.value_neg] at hlval
  obtain rfl | rfl := List.mem_pair.mp hm
  · rw [hmval] at hkval
    cases hkval
  · rw [hmval] at hlval
    cases hlval

end External

end Cadical
