import IgnoreGates.Cadical.Reduction

/-!
# Bounded variable elimination

When not too many resolvents on the pivot are needed, they are added, and the clauses with the
pivot are removed.  With gate clauses only the resolvents of a gate clause with another clause are
added, and only the gate clauses are saved on the extension stack.  This preserves the models of
the clauses when there are no gate clauses, or when these are satisfied by exactly one value of
the pivot.
-/

namespace Cadical

open Logic

/-! ### The extension stack -/

namespace External

/-- A clause on the extension stack, with its witness literals. -/
structure Entry where
  witness : List Lit
  clause : List Lit

/-- The loop of `External::extend` that flips the witness literals that are false. -/
def flip (vals : Assignment Nat) (lit : Lit) : Assignment Nat :=
  if vals.value lit then vals else Function.update vals lit.vidx (!vals lit.vidx)

/-- `External::extend` for one entry. -/
def extendEntry (e : Entry) (vals : Assignment Nat) : Assignment Nat :=
  if Clause.Sat vals e.clause then vals else e.witness.foldr (fun lit vals => flip vals lit) vals

/-- `External::extend`: the entries are processed from the last one on. -/
def extend (extension : List Entry) (vals : Assignment Nat) : Assignment Nat :=
  extension.foldr extendEntry vals

/-- Flipping a literal that is false makes it true. -/
theorem flip_eq_make (vals : Assignment Nat) (lit : Lit) :
  flip vals lit = vals.make lit
  := by
  rw [flip]
  split
  · next h => exact (Assignment.make_of_value h).symm
  · next h =>
      rw [Bool.not_eq_true] at h
      change Function.update vals lit.vidx _ = Function.update vals lit.vidx _
      congr 1
      change (vals lit.vidx ^^ Literal.sign lit) = false at h
      cases hv : vals lit.vidx <;> cases hs : Literal.sign lit <;> simp_all

/-- Entries with one witness literal restore their clauses. -/
theorem extend_eq_restore (entries : List (Lit × List Lit)) (vals : Assignment Nat) :
  extend (entries.map (fun e => ⟨[e.1], e.2⟩)) vals = restore entries vals
  := by
  induction entries with
  | nil => rfl
  | cons e entries ih =>
      change extendEntry ⟨[e.1], e.2⟩ (extend (entries.map _) vals) = _
      rw [ih, restore_cons, extendEntry]
      simp only [List.foldr_cons, List.foldr_nil, flip_eq_make]

end External

namespace Eliminator

variable (s : Eliminator)

/-! ### Counting and adding resolvents -/

/-- `substitute && c->gate == d->gate` -/
def skip (c d : Nat) : Bool :=
  !s.gates.isEmpty && s.gate c == s.gate d

/-- The inner loop of `elim_resolvents_are_bounded`: the number of resolvents, unless the
function returns false. -/
def boundedInner (pivot : Lit) (bound : Int) (c : Nat) :
    List Nat → Eliminator → Int → Option Int × Eliminator
  | [], s, resolvents => (some resolvents, s)
  | d :: ds, s, resolvents =>
      if s.garbage d then boundedInner pivot bound c ds s resolvents
      else if s.skip c d then boundedInner pivot bound c ds s resolvents
      else
        match s.resolveClauses c pivot d true with
        | (some clause, s) =>
            if clause.length > s.opts.elimclslim then (none, s)
            else if resolvents + 1 > bound then (none, s)
            else boundedInner pivot bound c ds s (resolvents + 1)
        | (none, s) =>
            if s.unsat then (none, s)
            else if (s.val pivot).isSome then (none, s)
            else boundedInner pivot bound c ds s resolvents

/-- The outer loop of `elim_resolvents_are_bounded`. -/
def boundedOuter (pivot : Lit) (bound : Int) (ns : List Nat) :
    List Nat → Eliminator → Int → Option Int × Eliminator
  | [], s, resolvents => (some resolvents, s)
  | c :: cs, s, resolvents =>
      if s.garbage c then boundedOuter pivot bound ns cs s resolvents
      else
        match boundedInner pivot bound c ns s resolvents with
        | (none, s) => (none, s)
        | (some resolvents, s) => boundedOuter pivot bound ns cs s resolvents

/-- `elim_resolvents_are_bounded` -/
def elimResolventsAreBounded (pivot : Lit) : Bool × Eliminator :=
  let ps := s.occs pivot
  let ns := s.occs (-pivot)
  if ps.isEmpty || ns.isEmpty then (0 ≤ s.elimbound, s)
  else
    match boundedOuter pivot (ps.length + ns.length + s.elimbound) ns ps s 0 with
    | (none, s) => (false, s)
    | (some _, s) => (true, s)

/-- The inner loop of `elim_add_resolvents`. -/
def addInner (pivot : Lit) (c : Nat) : List Nat → Eliminator → Eliminator
  | [], s => s
  | d :: ds, s =>
      if s.unsat then s
      else if s.garbage d then addInner pivot c ds s
      else if s.skip c d then addInner pivot c ds s
      else
        match s.resolveClauses c pivot d false with
        | (none, s) => addInner pivot c ds s
        | (some clause, s) => addInner pivot c ds (s.addResolvent clause)

/-- The outer loop of `elim_add_resolvents`. -/
def addOuter (pivot : Lit) (ns : List Nat) : List Nat → Eliminator → Eliminator
  | [], s => s
  | c :: cs, s =>
      if s.unsat then s
      else if s.garbage c then addOuter pivot ns cs s
      else addOuter pivot ns cs (addInner pivot c ns s)

/-- `elim_add_resolvents` -/
def elimAddResolvents (pivot : Lit) : Eliminator :=
  addOuter pivot (s.occs (-pivot)) (s.occs pivot) s

/-! ### Removing the clauses with the pivot -/

/-- The loops of `mark_eliminated_clauses_as_garbage` over the clauses with a literal, which is
the witness for the clauses that are pushed. -/
def eliminateLoop (lit : Lit) : List Nat → Eliminator → List External.Entry →
    Eliminator × List External.Entry
  | [], s, extension => (s, extension)
  | c :: cs, s, extension =>
      if s.garbage c then eliminateLoop lit cs s extension
      else
        eliminateLoop lit cs (s.markGarbage c)
          (if s.gates.isEmpty || s.gate c then extension ++ [⟨[lit], s.clause c⟩] else extension)

/-- `erase_occs (occs (lit))` -/
def eraseOccs (lit : Lit) : Eliminator :=
  { s with occs := Function.update s.occs lit [] }

/-- `mark_eliminated_clauses_as_garbage`, with what is pushed on the extension stack. -/
def markEliminatedClausesAsGarbage (pivot : Lit) : Eliminator × List External.Entry :=
  let (t, extension) := eliminateLoop pivot (s.occs pivot) s []
  let t := t.eraseOccs pivot
  let (u, extension) := eliminateLoop (-pivot) (t.occs (-pivot)) t extension
  (u.eraseOccs (-pivot), extension)

/-! ### Resolving all pairs -/

variable {s}

/-- The pivot is unassigned, nothing is marked, and the clauses contain the pivot and its
complement. -/
structure Trying (s : Eliminator) (pivot : Lit) (ps ns : List Nat) : Prop where
  connected : s.Connected
  marks : ∀ v, s.marks v = 0
  val : s.val pivot = none
  pos : ∀ c ∈ ps, pivot ∈ s.clause c
  neg : ∀ d ∈ ns, -pivot ∈ s.clause d

namespace Trying

variable {pivot : Lit} {ps ns : List Nat}

/-- What is tried is still tried after a reduction that leaves the pivot unassigned. -/
theorem reduces {t : Eliminator} (h : Trying s pivot ps ns) (hst : Reduces pivot.vidx s t)
    (hval : t.val pivot = none) :
  Trying t pivot ps ns
  where
    connected := hst.connected
    marks := by
      rw [hst.marks]
      exact h.marks
    val := hval
    pos := by
      intro c hc
      rw [hst.clause (lt_of_mem_clause (h.pos c hc))]
      exact h.pos c hc
    neg := by
      intro d hd
      rw [hst.clause (lt_of_mem_clause (h.neg d hd))]
      exact h.neg d hd

theorem tail_pos {c : Nat} (h : Trying s pivot (c :: ps) ns) :
  Trying s pivot ps ns
  := ⟨h.connected, h.marks, h.val, fun c hc => h.pos c (List.mem_cons_of_mem _ hc), h.neg⟩

theorem tail_neg {d : Nat} (h : Trying s pivot ps (d :: ns)) :
  Trying s pivot ps ns
  := ⟨h.connected, h.marks, h.val, h.pos, fun d hd => h.neg d (List.mem_cons_of_mem _ hd)⟩

/-- The clause that is tried next, on its own. -/
theorem head {c : Nat} (h : Trying s pivot (c :: ps) ns) :
  Trying s pivot [c] ns
  := by
  refine ⟨h.connected, h.marks, h.val, ?_, h.neg⟩
  intro c' hc'
  rw [List.mem_singleton.mp hc']
  exact h.pos c List.mem_cons_self

/-- Resolving one clause with another one. -/
theorem step {c d : Nat} (h : Trying s pivot [c] (d :: ns)) (propagateEagerly : Bool) :
  Step pivot.vidx s propagateEagerly c d (s.resolveClauses c pivot d propagateEagerly)
  := resolveClauses_step h.connected h.marks h.val (h.pos c List.mem_cons_self)
    (h.neg d List.mem_cons_self) propagateEagerly

theorem refl (h : Trying s pivot ps ns) :
  Reduces pivot.vidx s s
  := Reduces.refl _ h.connected

end Trying

variable {pivot : Lit} {bound : Int}

/-- Counting the resolvents reduces the clauses and leaves the pivot unassigned. -/
theorem boundedInner_spec {c : Nat} {ds : List Nat} {s t : Eliminator} {n m : Int}
    (hs : Trying s pivot [c] ds) (h : boundedInner pivot bound c ds s n = (some m, t)) :
  Reduces pivot.vidx s t ∧ t.val pivot = none
  := by
  induction ds generalizing s n with
  | nil =>
      cases h
      exact ⟨hs.refl, hs.val⟩
  | cons d ds ih =>
      have hstep := hs.step true
      rw [boundedInner] at h
      split at h
      · exact ih hs.tail_neg h
      split at h
      · exact ih hs.tail_neg h
      generalize s.resolveClauses c pivot d true = r at h hstep
      obtain ⟨_ | clause, u⟩ := r
      · dsimp only at h
        split at h
        · cases h
        split at h
        · cases h
        · next hval =>
            rw [Bool.not_eq_true, Option.isSome_eq_false_iff, Option.isNone_iff_eq_none] at hval
            obtain ⟨hreduces, ht⟩ := ih (hs.reduces hstep.reduces hval).tail_neg h
            exact ⟨hstep.reduces.trans hreduces, ht⟩
      · obtain ⟨heq, -⟩ := hstep.some clause rfl
        dsimp only at h heq
        rw [heq] at h
        split at h
        · cases h
        split at h
        · cases h
        · exact ih hs.tail_neg h

/-- When the number of resolvents is bounded, trying them is a reduction, and the pivot is
unassigned. -/
theorem boundedOuter_spec {ns cs : List Nat} {s t : Eliminator} {n m : Int}
    (hs : Trying s pivot cs ns) (h : boundedOuter pivot bound ns cs s n = (some m, t)) :
  Reduces pivot.vidx s t ∧ t.val pivot = none
  := by
  induction cs generalizing s n with
  | nil =>
      cases h
      exact ⟨hs.refl, hs.val⟩
  | cons c cs ih =>
      rw [boundedOuter] at h
      split at h
      · exact ih hs.tail_pos h
      split at h
      · cases h
      · next k u hinner =>
          obtain ⟨hreduces, hval⟩ := boundedInner_spec hs.head hinner
          obtain ⟨hreduces', ht⟩ := ih (hs.tail_pos.reduces hreduces hval) h
          exact ⟨hreduces.trans hreduces', ht⟩

/-- Two clauses one of which is garbage or satisfied apart from the variable by every model of
the clauses without the variable. -/
def Resolved (v : Nat) (s : Eliminator) (c d : Nat) : Prop :=
  s.garbage c = false → s.garbage d = false → ∀ σ, s.ModelOff v σ →
    Clause.SatOff σ v (s.clause c) ∨ Clause.SatOff σ v (s.clause d)

/-- A pair that has been resolved stays resolved. -/
theorem Resolved.reduces {v c d : Nat} {t : Eliminator} (h : Resolved v s c d)
    (hst : Reduces v s t) (hv : t.vals v = none) (hc : c < s.clauses.length)
    (hd : d < s.clauses.length) :
  Resolved v t c d
  := by
  intro hgc hgd σ hσ
  rw [hst.clause hc, hst.clause hd]
  exact h (hst.not_garbage hc hgc) (hst.not_garbage hd hgd) σ (hst.modelOff hv hσ)

/-- The resolvent that has been added. -/
theorem Step.add {v c d : Nat} {propagateEagerly : Bool} {lits : List Lit} {t : Eliminator}
    (hs : s.Connected) (hc : c < s.clauses.length) (hd : d < s.clauses.length)
    (h : Step v s propagateEagerly c d (Option.some lits, t)) :
  Reduces v s (t.addResolvent lits) ∧ Resolved v (t.addResolvent lits) c d
  := by
  obtain ⟨rfl, hnodup, himplied, hmem⟩ := h.some lits rfl
  dsimp only at hs hc hd himplied hmem ⊢
  refine ⟨reduces_addResolvent hs hnodup (fun l hl => (hmem l hl).1) himplied, ?_⟩
  intro _ _ σ hσ
  have hsat := hσ.sat t.clauses.length (by simp [length_addResolvent]) (Function.update_self _ _ _)
  rw [clause_addResolvent_self] at hsat
  obtain ⟨l, hl, hval⟩ := hsat (fun l hl => (hmem l hl).1)
  rw [clause_addResolvent_of_lt lits hc, clause_addResolvent_of_lt lits hd]
  obtain ⟨hne, hmem⟩ := hmem l hl
  exact hmem.imp (fun hmem => ⟨l, hmem, hne, hval⟩) (fun hmem => ⟨l, hmem, hne, hval⟩)

/-- No resolvent has been returned. -/
theorem Step.resolved {v c d : Nat} {propagateEagerly : Bool} {t : Eliminator}
    (hc : c < s.clauses.length) (hd : d < s.clauses.length)
    (h : Step v s propagateEagerly c d (Option.none, t)) (hunsat : t.unsat = false)
    (hv : t.vals v = Option.none) :
  Resolved v t c d
  := by
  intro hgc hgd σ hσ
  have hsat := h.none rfl hunsat hv hgc hgd σ hσ
  rwa [← h.reduces.clause hc, ← h.reduces.clause hd] at hsat

/-- The same pairs are skipped after a reduction. -/
theorem Reduces.skip {v c d : Nat} {t : Eliminator} (h : Reduces v s t)
    (hc : c < s.clauses.length) (hd : d < s.clauses.length) :
  t.skip c d = s.skip c d
  := by
  rw [Eliminator.skip, Eliminator.skip, h.gates, h.gate c hc, h.gate d hd]

/-- Resolving a clause with others leaves these pairs resolved, unless they are skipped. -/
theorem addInner_spec {c : Nat} {ds : List Nat} {s : Eliminator} (hs : Trying s pivot [c] ds) :
  Reduces pivot.vidx s (addInner pivot c ds s) ∧ (addInner pivot c ds s).val pivot = none
    ∧ ((addInner pivot c ds s).unsat = false → ∀ d ∈ ds, s.skip c d = false →
      Resolved pivot.vidx (addInner pivot c ds s) c d)
  := by
  induction ds generalizing s with
  | nil => exact ⟨hs.refl, hs.val, fun _ => nofun⟩
  | cons d ds ih =>
      have hc := lt_of_mem_clause (hs.pos c List.mem_cons_self)
      have hlt : ∀ d' ∈ d :: ds, d' < s.clauses.length :=
        fun d' hd' => lt_of_mem_clause (hs.neg d' hd')
      obtain ⟨hd, hds⟩ := List.forall_mem_cons.mp hlt
      -- the remaining clauses are resolved in a later state, in which `d` has been resolved
      have hnext : ∀ u, Reduces pivot.vidx s u → u.val pivot = none →
          (u.unsat = false → s.skip c d = false → Resolved pivot.vidx u c d) →
          Reduces pivot.vidx s (addInner pivot c ds u) ∧ (addInner pivot c ds u).val pivot = none
            ∧ ((addInner pivot c ds u).unsat = false → ∀ d' ∈ d :: ds, s.skip c d' = false →
              Resolved pivot.vidx (addInner pivot c ds u) c d') := by
        intro u hsu hval hd'
        obtain ⟨hreduces, ht, hresolved⟩ := ih (hs.reduces hsu hval).tail_neg
        refine ⟨hsu.trans hreduces, ht, ?_⟩
        intro hunsat
        have hunsat' := hreduces.not_unsat hunsat
        rw [List.forall_mem_cons]
        constructor
        · intro hskip
          exact (hd' hunsat' hskip).reduces hreduces (val_eq_none_iff.mp ht)
            (hc.trans_le hsu.length_le) (hd.trans_le hsu.length_le)
        · intro d' hmem hskip
          apply hresolved hunsat d' hmem
          rwa [hsu.skip hc (hds d' hmem)]
      rw [addInner]
      split
      · next hunsat =>
          refine ⟨hs.refl, hs.val, ?_⟩
          intro hfalse
          rw [hunsat] at hfalse
          cases hfalse
      split
      · next hg =>
          apply hnext s hs.refl hs.val
          intro _ _ _ hgd
          rw [hg] at hgd
          cases hgd
      split
      · next hskip =>
          apply hnext s hs.refl hs.val
          intro _ hfalse
          rw [hskip] at hfalse
          cases hfalse
      · have hstep := hs.step false
        generalize s.resolveClauses c pivot d false = r at hstep
        obtain ⟨_ | clause, u⟩ := r
        · have hval := hstep.unassigned rfl
          exact hnext u hstep.reduces (val_eq_none_iff.mpr hval)
            (fun hunsat _ => hstep.resolved hc hd hunsat hval)
        · obtain ⟨hreduces, hresolved⟩ := hstep.add hs.connected hc hd
          obtain ⟨heq, -⟩ := hstep.some clause rfl
          apply hnext _ hreduces
          · dsimp only at heq
            rw [heq]
            exact hs.val
          · exact fun _ _ => hresolved

/-- The outer loop adds the resolvents of all pairs that are not skipped. -/
theorem addOuter_spec {ns cs : List Nat} {s : Eliminator} (hs : Trying s pivot cs ns) :
  Reduces pivot.vidx s (addOuter pivot ns cs s) ∧ (addOuter pivot ns cs s).val pivot = none
    ∧ ((addOuter pivot ns cs s).unsat = false → ∀ c ∈ cs, ∀ d ∈ ns, s.skip c d = false →
      Resolved pivot.vidx (addOuter pivot ns cs s) c d)
  := by
  induction cs generalizing s with
  | nil => exact ⟨hs.refl, hs.val, fun _ => nofun⟩
  | cons c cs ih =>
      have hlt : ∀ c' ∈ c :: cs, c' < s.clauses.length :=
        fun c' hc' => lt_of_mem_clause (hs.pos c' hc')
      obtain ⟨hc, hcs⟩ := List.forall_mem_cons.mp hlt
      have hns : ∀ d ∈ ns, d < s.clauses.length := fun d hd => lt_of_mem_clause (hs.neg d hd)
      have hnext : ∀ u, Reduces pivot.vidx s u → u.val pivot = none →
          (u.unsat = false → ∀ d ∈ ns, s.skip c d = false → Resolved pivot.vidx u c d) →
          Reduces pivot.vidx s (addOuter pivot ns cs u) ∧ (addOuter pivot ns cs u).val pivot = none
            ∧ ((addOuter pivot ns cs u).unsat = false → ∀ c' ∈ c :: cs, ∀ d ∈ ns,
              s.skip c' d = false → Resolved pivot.vidx (addOuter pivot ns cs u) c' d) := by
        intro u hsu hval hc'
        obtain ⟨hreduces, ht, hresolved⟩ := ih (hs.tail_pos.reduces hsu hval)
        refine ⟨hsu.trans hreduces, ht, ?_⟩
        intro hunsat
        have hunsat' := hreduces.not_unsat hunsat
        rw [List.forall_mem_cons]
        constructor
        · intro d hd hskip
          exact (hc' hunsat' d hd hskip).reduces hreduces (val_eq_none_iff.mp ht)
            (hc.trans_le hsu.length_le) ((hns d hd).trans_le hsu.length_le)
        · intro c' hmem d hd hskip
          apply hresolved hunsat c' hmem d hd
          rwa [hsu.skip (hcs c' hmem) (hns d hd)]
      rw [addOuter]
      split
      · next hunsat =>
          refine ⟨hs.refl, hs.val, ?_⟩
          intro hfalse
          rw [hunsat] at hfalse
          cases hfalse
      split
      · next hg =>
          apply hnext s hs.refl hs.val
          intro _ d _ _ hgc
          rw [hg] at hgc
          cases hgc
      · obtain ⟨hreduces, hval, hresolved⟩ := addInner_spec hs.head
        exact hnext _ hreduces hval hresolved

/-! ### The clauses that are removed and saved -/

variable (s) in
/-- The clauses among `cs` that are pushed on the extension stack. -/
def saved (cs : List Nat) : List Nat :=
  cs.filter (fun c => !s.garbage c && (s.gates.isEmpty || s.gate c))

/-- The clauses that are saved are those that are not garbage, of the gate if there is one. -/
theorem mem_saved {c : Nat} {cs : List Nat} :
  c ∈ s.saved cs ↔ c ∈ cs ∧ s.garbage c = false ∧ (s.gates = [] ∨ s.gate c = true)
  := by
  simp [saved]

/-- The clauses are pushed with the pivot as their witness, and become garbage. -/
theorem eliminateLoop_spec (lit : Lit) {cs : List Nat} (hnodup : cs.Nodup) (s : Eliminator)
    (extension : List External.Entry) :
  ∃ g, eliminateLoop lit cs s extension
      = ({ s with garbage := g },
        extension ++ (s.saved cs).map (fun c => ⟨[lit], s.clause c⟩))
    ∧ ∀ c, g c = true ↔ s.garbage c = true ∨ c ∈ cs
  := by
  induction cs generalizing s extension with
  | nil => exact ⟨s.garbage, by simp [eliminateLoop, saved], by simp⟩
  | cons c cs ih =>
      obtain ⟨hc, hnodup⟩ := List.nodup_cons.mp hnodup
      rw [eliminateLoop]
      split
      · next hg =>
          obtain ⟨g, heq, hgarbage⟩ := ih hnodup s extension
          refine ⟨g, ?_, ?_⟩
          · rw [heq, saved, saved, List.filter_cons, if_neg (by simp [hg])]
          · intro c'
            rw [hgarbage, List.mem_cons]
            constructor
            · exact Or.imp_right Or.inr
            · rintro (hc' | rfl | hc')
              · exact Or.inl hc'
              · exact Or.inl hg
              · exact Or.inr hc'
      · next hg =>
          rw [Bool.not_eq_true] at hg
          generalize hext : (if s.gates.isEmpty || s.gate c then extension ++ [⟨[lit], s.clause c⟩]
            else extension) = extension'
          obtain ⟨g, heq, hgarbage⟩ := ih hnodup (s.markGarbage c) extension'
          have hsaved : (s.markGarbage c).saved cs = s.saved cs := by
            rw [saved, saved]
            apply List.filter_congr
            intro d hd
            have hne : d ≠ c := by
              rintro rfl
              exact hc hd
            have hgd : (s.markGarbage c).garbage d = s.garbage d := Function.update_of_ne hne _ _
            rw [hgd]
            rfl
          refine ⟨g, ?_, ?_⟩
          · rw [heq, hsaved, ← hext, saved, saved, List.filter_cons]
            cases hpush : s.gates.isEmpty || s.gate c with
            | false =>
                simp only [hg, Bool.not_false, Bool.and_false, Bool.false_eq_true, if_false]
                rfl
            | true =>
                simp only [hg, Bool.not_false, Bool.and_true, if_true, List.map_cons,
                  List.append_assoc, List.singleton_append]
                rfl
          · intro c'
            rw [hgarbage, garbage_markGarbage, List.mem_cons]
            tauto

/-- Removing the clauses with the pivot. -/
theorem mark_eliminated_spec (hs : s.Connected) (pivot : Lit) :
  ∃ g occs, s.markEliminatedClausesAsGarbage pivot
      = ({ s with garbage := g, occs := occs },
        (s.saved (s.occs pivot)).map (fun c => ⟨[pivot], s.clause c⟩)
          ++ (s.saved (s.occs (-pivot))).map (fun c => ⟨[-pivot], s.clause c⟩))
    ∧ ∀ c, g c = true ↔ s.garbage c = true ∨ c ∈ s.occs pivot ∨ c ∈ s.occs (-pivot)
  := by
  obtain ⟨g, heq, hgarbage⟩ := eliminateLoop_spec pivot (hs.occs_nodup pivot) s []
  let t : Eliminator := { s with garbage := g }
  have hoccs : (t.eraseOccs pivot).occs (-pivot) = s.occs (-pivot) :=
    Function.update_of_ne (Lit.neg_ne pivot) _ _
  obtain ⟨g', heq', hgarbage'⟩ := eliminateLoop_spec (-pivot) (hs.occs_nodup (-pivot))
    (t.eraseOccs pivot) ((s.saved (s.occs pivot)).map (fun c => ⟨[pivot], s.clause c⟩))
  have hsaved : (t.eraseOccs pivot).saved (s.occs (-pivot)) = s.saved (s.occs (-pivot)) := by
    rw [saved, saved]
    apply List.filter_congr
    intro d hd
    have hg : g d = s.garbage d := by
      rw [Bool.eq_iff_iff, hgarbage]
      apply or_iff_left
      intro hd'
      exact hs.not_taut d pivot (hs.mem _ d hd') (hs.mem _ d hd)
    change (!g d && (s.gates.isEmpty || s.gate d)) = _
    rw [hg]
  refine ⟨g', Function.update (Function.update s.occs pivot []) (-pivot) [], ?_, ?_⟩
  · rw [markEliminatedClausesAsGarbage, heq]
    dsimp only
    rw [hoccs, List.nil_append, heq', hsaved]
    rfl
  · intro c
    rw [hgarbage']
    change g c = true ∨ _ ↔ _
    rw [hgarbage, or_assoc]

/-! ### Elimination preserves models -/

/-- Some value of the pivot satisfies the gate clauses, for any values of the other variables
that agree with the root level. -/
def GatesTotal (s : Eliminator) (pivot : Lit) : Prop :=
  ∀ σ : Assignment Nat, s.Extends σ →
    ∃ b, Models (Function.update σ pivot.vidx b) s.gateClauses

/-- The gate clauses are among the clauses and define the pivot. -/
structure GatesDefine (s : Eliminator) (pivot : Lit) : Prop where
  gated : s.Gated
  mem : ∀ c, s.gate c = true → c < s.clauses.length ∧ s.garbage c = false
  defined : s.Defined pivot

/-- What holds when all resolvents have been added: `u` is reached from `s`, and the pairs of
clauses with the pivot that are not skipped are resolved. -/
structure Added (s u : Eliminator) (pivot : Lit) : Prop where
  reduces : Reduces pivot.vidx s u
  val : u.val pivot = none
  resolved : ∀ c ∈ s.occs pivot, ∀ d ∈ s.occs (-pivot), s.skip c d = false →
    Resolved pivot.vidx u c d

/-- When the resolvents are bounded, all of them are added. -/
theorem elimAddResolvents_added {t : Eliminator} (hs : s.Connected) (hmarks : ∀ v, s.marks v = 0)
    (hpivot : s.val pivot = none) (hbounded : s.elimResolventsAreBounded pivot = (true, t))
    (hunsat : (t.elimAddResolvents pivot).unsat = false) :
  Added s (t.elimAddResolvents pivot) pivot
  := by
  have htrying : Trying s pivot (s.occs pivot) (s.occs (-pivot)) :=
    ⟨hs, hmarks, hpivot, hs.mem pivot, hs.mem (-pivot)⟩
  have ht : Reduces pivot.vidx s t ∧ t.val pivot = none := by
    rw [elimResolventsAreBounded] at hbounded
    split at hbounded
    · obtain ⟨-, rfl⟩ := Prod.mk.inj hbounded
      exact ⟨htrying.refl, hpivot⟩
    · split at hbounded
      · cases hbounded
      · next hbounded' =>
          cases hbounded
          exact boundedOuter_spec htrying hbounded'
  obtain ⟨hreduces, hval⟩ := ht
  have hpos := hreduces.occs pivot rfl
  have hneg := hreduces.occs (-pivot) (Lit.vidx_neg pivot)
  rw [elimAddResolvents, hpos, hneg] at hunsat ⊢
  obtain ⟨hreduces', hval', hresolved⟩ := addOuter_spec (htrying.reduces hreduces hval)
  refine ⟨hreduces.trans hreduces', hval', ?_⟩
  intro c hc d hd hskip
  apply hresolved hunsat c hc d hd
  rwa [hreduces.skip (lt_of_mem_clause (hs.mem _ c hc)) (lt_of_mem_clause (hs.mem _ d hd))]

namespace Added

variable {u : Eliminator}

/-- The old clauses other than those with the pivot that are removed at the end are satisfied
apart from the pivot or do not mention it. -/
theorem old_cases (h : Added s u pivot) {c : Nat} (hc : c < s.clauses.length)
    (hgarbage : s.garbage c = false) {σ : Assignment Nat} (hσ : u.ModelOff pivot.vidx σ) :
  Clause.SatOff σ pivot.vidx (s.clause c)
    ∨ u.garbage c = false ∧ (c ∈ s.occs pivot ∨ c ∈ s.occs (-pivot))
  := by
  have hv := val_eq_none_iff.mp h.val
  cases hg : u.garbage c with
  | true => exact Or.inl (h.reduces.removed hv c hc hgarbage hg σ hσ)
  | false =>
      have hclause := h.reduces.clause hc
      by_cases hoff : ∀ l ∈ u.clause c, l.vidx ≠ pivot.vidx
      · left
        obtain ⟨l, hl, hval⟩ := hσ.sat c (hc.trans_le h.reduces.length_le) hg hoff
        rw [hclause] at hl hoff
        exact ⟨l, hl, hoff l hl, hval⟩
      · right
        simp only [ne_eq, not_forall, not_not] at hoff
        obtain ⟨l, hl, hvar⟩ := hoff
        have hnone : u.val l = none := (val_eq_none_congr hvar).mpr h.val
        have hmem := h.reduces.connected.full c hg l hl hnone
        rw [h.reduces.occs l hvar] at hmem
        refine ⟨rfl, ?_⟩
        obtain rfl | rfl := Lit.eq_or_eq_neg hvar
        · exact Or.inl hmem
        · exact Or.inr hmem

/-- An assignment that satisfies the clauses with the pivot and agrees with a model of the others
is a model of the old clauses. -/
theorem model (h : Added s u pivot) {σ τ : Assignment Nat} (hσ : u.ModelOff pivot.vidx σ)
    (hagree : ∀ v, v ≠ pivot.vidx → τ v = σ v)
    (hsat : ∀ c, c ∈ s.occs pivot ∨ c ∈ s.occs (-pivot) → u.garbage c = false →
      Clause.Sat τ (s.clause c)) :
  s.Model τ
  := by
  have hv := val_eq_none_iff.mp h.val
  constructor
  · intro v b hb
    rw [hagree v, hσ.root v b (h.reduces.vals v b hb)]
    rintro rfl
    rw [h.reduces.vals _ b hb] at hv
    cases hv
  · intro c hc hgarbage
    obtain hoff | ⟨hg, hmem⟩ := h.old_cases hc hgarbage hσ
    · exact ((Clause.satOff_congr hagree).mpr hoff).sat
    · exact hsat c hmem hg

/-- The saved clauses are resolved with each other. -/
theorem saved_resolved (h : Added s u pivot) (hs : s.Connected)
    (htotal : s.gates ≠ [] → s.GatesTotal pivot) {σ : Assignment Nat}
    (hσ : u.ModelOff pivot.vidx σ) {c d : Nat} (hc : c ∈ u.saved (s.occs pivot))
    (hd : d ∈ u.saved (s.occs (-pivot))) :
  Clause.SatOff σ pivot.vidx (s.clause c) ∨ Clause.SatOff σ pivot.vidx (s.clause d)
  := by
  obtain ⟨hc, hgc, hgatec⟩ := mem_saved.mp hc
  obtain ⟨hd, hgd, hgated⟩ := mem_saved.mp hd
  have hltc := lt_of_mem_clause (hs.mem _ c hc)
  have hltd := lt_of_mem_clause (hs.mem _ d hd)
  rw [h.reduces.gates, h.reduces.gate c hltc] at hgatec
  rw [h.reduces.gates, h.reduces.gate d hltd] at hgated
  by_cases hgates : s.gates = []
  · have hskip : s.skip c d = false := by simp [skip, hgates]
    have hsat := h.resolved c hc d hd hskip hgc hgd σ hσ
    rwa [h.reduces.clause hltc, h.reduces.clause hltd] at hsat
  · -- one value of the pivot satisfies both gate clauses
    have hroot : s.Extends σ := fun v b hv => hσ.root v b (h.reduces.vals v b hv)
    obtain ⟨b, hb⟩ := htotal hgates σ hroot
    have hagree : ∀ w, w ≠ pivot.vidx → Function.update σ pivot.vidx b w = σ w :=
      fun w hw => Function.update_of_ne hw _ _
    obtain ⟨k, hk, hkval⟩ := hb _ ⟨c, hgatec.resolve_left hgates, rfl⟩
    obtain ⟨l, hl, hlval⟩ := hb _ ⟨d, hgated.resolve_left hgates, rfl⟩
    by_cases hkv : k.vidx = pivot.vidx
    · by_cases hlv : l.vidx = pivot.vidx
      · have hkp := hs.eq_of_vidx hk (hs.mem _ c hc) hkv
        have hlp := hs.eq_of_vidx hl (hs.mem _ d hd) (by rw [hlv, Lit.vidx_neg])
        rw [hkp] at hkval
        rw [hlp] at hlval
        change Assignment.value _ (Literal.neg pivot) = true at hlval
        rw [Assignment.value_neg, hkval] at hlval
        cases hlval
      · right
        exact (Clause.satOff_congr hagree).mp ⟨l, hl, hlv, hlval⟩
    · left
      exact (Clause.satOff_congr hagree).mp ⟨k, hk, hkv, hkval⟩

/-- The clauses with a literal that are gate clauses, or that are not. -/
def removedSet (s u : Eliminator) (lit : Lit) (isGate : Bool) : Set (Clause Lit) :=
  {k | ∃ c ∈ s.occs lit, u.garbage c = false ∧ s.gate c = isGate ∧ s.clause c = k}

/-- The gate clauses that are saved define the pivot. -/
theorem removedSet_defines (h : Added s u pivot) (hgate : s.GatesDefine pivot)
    {σ τ : Assignment Nat} (hσ : u.ModelOff pivot.vidx σ) (hagree : ∀ v, v ≠ pivot.vidx → τ v = σ v) :
  ¬ (Models (τ.make pivot) (removedSet s u pivot true ∪ removedSet s u (-pivot) true)
    ∧ Models (τ.make (-pivot)) (removedSet s u pivot true ∪ removedSet s u (-pivot) true))
  := by
  have hv := h.reduces.val_none (val_eq_none_iff.mp h.val)
  have hmake : ∀ l : Lit, l.vidx = pivot.vidx → ∀ v, v ≠ pivot.vidx → τ.make l v = σ v := by
    intro l hl v hne
    rw [← hagree v hne]
    apply Assignment.make_apply_of_ne
    change v ≠ l.vidx
    rwa [hl]
  have hextends : ∀ l : Lit, l.vidx = pivot.vidx → s.Extends (τ.make l) := by
    intro l hl v b hb
    rw [hmake l hl v, hσ.root v b (h.reduces.vals v b hb)]
    rintro rfl
    rw [hv] at hb
    cases hb
  have hmodels : ∀ l : Lit, l.vidx = pivot.vidx →
      Models (τ.make l) (removedSet s u pivot true ∪ removedSet s u (-pivot) true) →
      Models (τ.make l) s.gateClauses := by
    rintro l hl hmodels _ ⟨c, hc, rfl⟩
    obtain ⟨hlt, hgarbage⟩ := hgate.mem c hc
    obtain hoff | ⟨hg, hmem⟩ := h.old_cases hlt hgarbage hσ
    · exact ((Clause.satOff_congr (hmake l hl)).mpr hoff).sat
    · apply hmodels
      exact hmem.imp (fun hmem => ⟨c, hmem, hg, hc, rfl⟩) (fun hmem => ⟨c, hmem, hg, hc, rfl⟩)
  rintro ⟨htrue, hfalse⟩
  apply hgate.defined
  refine ⟨τ.make pivot, τ.make (-pivot), hextends _ rfl, hextends _ (Lit.vidx_neg pivot), ?_, ?_,
    hmodels _ rfl htrue, hmodels _ (Lit.vidx_neg pivot) hfalse⟩
  · intro heq
    have htrue := Assignment.make_value_self τ pivot
    have hfalse := Assignment.make_value_self τ (-pivot)
    change Assignment.value _ (Literal.neg pivot) = true at hfalse
    rw [Assignment.value_neg] at hfalse
    have hvalue : (τ.make pivot).value pivot = (τ.make (-pivot)).value pivot :=
      Assignment.value_congr heq
    rw [← hvalue, htrue] at hfalse
    cases hfalse
  · intro v hne
    rw [hmake pivot rfl v hne, hmake (-pivot) (Lit.vidx_neg pivot) v hne]

/-- The entries of the extension stack restore the saved clauses. -/
theorem extend_eq (h : Added s u pivot) (hs : s.Connected) (σ : Assignment Nat) :
  External.extend ((u.saved (u.occs pivot)).map (fun c => ⟨[pivot], u.clause c⟩)
      ++ (u.saved (u.occs (-pivot))).map (fun c => ⟨[-pivot], u.clause c⟩)) σ
    = restore (((u.saved (s.occs pivot)).map s.clause).map (pivot, ·)
      ++ ((u.saved (s.occs (-pivot))).map s.clause).map (Literal.neg pivot, ·)) σ
  := by
  rw [← External.extend_eq_restore, h.reduces.occs pivot rfl,
    h.reduces.occs (-pivot) (Lit.vidx_neg pivot), List.map_append, List.map_map, List.map_map,
    List.map_map, List.map_map]
  have hclause : ∀ l, ∀ c ∈ u.saved (s.occs l), u.clause c = s.clause c := by
    intro l c hc
    exact h.reduces.clause (lt_of_mem_clause (hs.mem _ c (mem_saved.mp hc).1))
  congr 2
  · apply List.map_congr_left
    intro c hc
    rw [hclause _ c hc]
    rfl
  · apply List.map_congr_left
    intro c hc
    rw [hclause _ c hc]
    rfl

/-- The extension of a model of the remaining clauses is a model of the old ones. -/
theorem extend_model (h : Added s u pivot) (hs : s.Connected)
    (hgate : s.gates = [] ∨ s.GatesDefine pivot ∧ s.GatesTotal pivot) {σ : Assignment Nat}
    (hσ : u.ModelOff pivot.vidx σ) :
  s.Model (restore (((u.saved (s.occs pivot)).map s.clause).map (pivot, ·)
    ++ ((u.saved (s.occs (-pivot))).map s.clause).map (Literal.neg pivot, ·)) σ)
  := by
  have htotal : s.gates ≠ [] → s.GatesTotal pivot := fun hne => (hgate.resolve_left hne).2
  have hres : ∀ k ∈ (u.saved (s.occs pivot)).map s.clause,
      ∀ l ∈ (u.saved (s.occs (-pivot))).map s.clause,
      Clause.SatOff σ pivot.vidx k ∨ Clause.SatOff σ pivot.vidx l := by
    intro k hk l hl
    obtain ⟨c, hc, rfl⟩ := List.mem_map.mp hk
    obtain ⟨d, hd, rfl⟩ := List.mem_map.mp hl
    exact h.saved_resolved hs htotal hσ hc hd
  have hmem : ∀ (l : Lit), ∀ k ∈ (u.saved (s.occs l)).map s.clause, l ∈ k := by
    intro l k hk
    obtain ⟨c, hc, rfl⟩ := List.mem_map.mp hk
    exact hs.mem l c (mem_saved.mp hc).1
  obtain ⟨hpos, hneg, hagree⟩ := restore_resolved (hmem pivot) (hmem (-pivot)) hres
  generalize restore (((u.saved (s.occs pivot)).map s.clause).map (pivot, ·)
    ++ ((u.saved (s.occs (-pivot))).map s.clause).map (Literal.neg pivot, ·)) σ = τ
    at hpos hneg hagree
  apply h.model hσ hagree
  have hsaved : ∀ l c, c ∈ s.occs l → u.garbage c = false → s.gates = [] ∨ s.gate c = true →
      c ∈ u.saved (s.occs l) := by
    intro l c hc hg hpush
    rw [mem_saved, h.reduces.gates, h.reduces.gate c (lt_of_mem_clause (hs.mem _ c hc))]
    exact ⟨hc, hg, hpush⟩
  by_cases hgates : s.gates = []
  · rintro c (hc | hc) hg
    · exact hpos _ (List.mem_map_of_mem (hsaved pivot c hc hg (Or.inl hgates)))
    · exact hneg _ (List.mem_map_of_mem (hsaved (-pivot) c hc hg (Or.inl hgates)))
  · have hdefine := (hgate.resolve_left hgates).1
    -- the gate clauses hold, and the other ones follow from the resolvents
    have hgateSat : Models τ (removedSet s u pivot true ∪ removedSet s u (-pivot) true) := by
      rintro _ (⟨c, hc, hg, hgc, rfl⟩ | ⟨c, hc, hg, hgc, rfl⟩)
      · exact hpos _ (List.mem_map_of_mem (hsaved pivot c hc hg (Or.inr hgc)))
      · exact hneg _ (List.mem_map_of_mem (hsaved (-pivot) c hc hg (Or.inr hgc)))
    have hresolved : ∀ c ∈ s.occs pivot, ∀ d ∈ s.occs (-pivot), s.gate c ≠ s.gate d →
        u.garbage c = false → u.garbage d = false →
        Clause.SatOff τ pivot.vidx (s.clause c) ∨ Clause.SatOff τ pivot.vidx (s.clause d) := by
      intro c hc d hd hne hgc hgd
      have hskip : s.skip c d = false := by simp [skip, hne]
      have hsat := h.resolved c hc d hd hskip hgc hgd σ hσ
      rw [h.reduces.clause (lt_of_mem_clause (hs.mem _ c hc)),
        h.reduces.clause (lt_of_mem_clause (hs.mem _ d hd))] at hsat
      exact hsat.imp (Clause.satOff_congr hagree).mpr (Clause.satOff_congr hagree).mpr
    have hin : ∀ (l : Lit) (b b' : Bool), ∀ k ∈ removedSet s u l b ∪ removedSet s u l b', l ∈ k := by
      rintro l b b' _ (⟨c, hc, -, -, rfl⟩ | ⟨c, hc, -, -, rfl⟩)
      · exact hs.mem l c hc
      · exact hs.mem l c hc
    obtain ⟨hpos', hneg'⟩ := models_of_gates (hin pivot true false) (hin (-pivot) true false)
      (h.removedSet_defines hdefine hσ hagree) hgateSat
      (by
        rintro _ ⟨c, hc, hgc, hgatec, rfl⟩ _ ⟨d, hd, hgd, hgated, rfl⟩
        exact hresolved c hc d hd (by simp [hgatec, hgated]) hgc hgd)
      (by
        rintro _ ⟨c, hc, hgc, hgatec, rfl⟩ _ ⟨d, hd, hgd, hgated, rfl⟩
        exact hresolved c hc d hd (by simp [hgatec, hgated]) hgc hgd)
    rintro c (hc | hc) hg
    · cases hgc : s.gate c with
      | true => exact hgateSat _ (Or.inl ⟨c, hc, hg, hgc, rfl⟩)
      | false => exact hpos' _ ⟨c, hc, hg, hgc, rfl⟩
    · cases hgc : s.gate c with
      | true => exact hgateSat _ (Or.inr ⟨c, hc, hg, hgc, rfl⟩)
      | false => exact hneg' _ ⟨c, hc, hg, hgc, rfl⟩

end Added

/-- New clauses and units follow from the old clauses, and every model of the remaining clauses
and units is extended to a model of the old clauses. -/
structure Preserves (s : Eliminator) (r : Eliminator × List External.Entry) : Prop where
  units : ∀ σ, s.Model σ → r.1.Extends σ
  added : ∀ σ, s.Model σ → ∀ c < r.1.clauses.length, s.clauses.length ≤ c →
    Clause.Sat σ (r.1.clause c)
  extended : ∀ σ, r.1.Model σ → s.Model (External.extend r.2 σ)

/-- Eliminating the pivot preserves models, without gate clauses or with gate clauses that are
satisfied by exactly one value of the pivot. -/
theorem eliminate_preserves {t : Eliminator} (hs : s.Connected) (hmarks : ∀ v, s.marks v = 0)
    (hpivot : s.val pivot = none)
    (hgate : s.gates = [] ∨ s.GatesDefine pivot ∧ s.GatesTotal pivot)
    (hbounded : s.elimResolventsAreBounded pivot = (true, t))
    (hunsat : (t.elimAddResolvents pivot).unsat = false) :
  s.Preserves ((t.elimAddResolvents pivot).markEliminatedClausesAsGarbage pivot)
  := by
  have hadded := elimAddResolvents_added hs hmarks hpivot hbounded hunsat
  generalize t.elimAddResolvents pivot = u at hadded
  have hu := hadded.reduces.connected
  obtain ⟨g, occs, heq, hgarbage⟩ := mark_eliminated_spec hu pivot
  rw [heq]
  refine ⟨fun σ hσ => hadded.reduces.root σ hσ, fun σ hσ => hadded.reduces.added σ hσ, ?_⟩
  intro σ hσ
  rw [hadded.extend_eq hs]
  apply hadded.extend_model hs hgate
  refine ⟨hσ.root, ?_⟩
  intro c hc hg hoff
  apply hσ.sat c hc
  change g c = false
  rw [← Bool.not_eq_true, hgarbage]
  rintro (hg' | hmem | hmem)
  · rw [hg] at hg'
    cases hg'
  · exact hoff pivot (hu.mem _ c hmem) rfl
  · exact hoff (-pivot) (hu.mem _ c hmem) (Lit.vidx_neg pivot)

/-! ### An equivalence, and gate clauses that cannot be satisfied -/

/-- The state with the clauses, of which the first ones are gate clauses. -/
def ofGates (clauses : List (List Lit)) (n : Nat) : Eliminator :=
  { Backward.ofClauses Backward.defaultOptions clauses (fun _ => none) with
    gate := fun c => c < n
    gates := List.range n }

/-- Clauses without repeated variables are connected. -/
theorem ofGates_connected {clauses : List (List Lit)} (n : Nat)
    (h : ∀ c ∈ clauses, (c.map Lit.vidx).Nodup) :
  (ofGates clauses n).Connected
  := by
  have hs := Backward.ofClauses_connected Backward.defaultOptions (fun _ => none) h
  exact ⟨hs.mem, hs.full, hs.occs_nodup, hs.nodup⟩

theorem ofGates_gate {clauses : List (List Lit)} {n c : Nat} :
  (ofGates clauses n).gate c = true ↔ c < n
  := decide_eq_true_iff

theorem ofGates_gated (clauses : List (List Lit)) (n : Nat) :
  (ofGates clauses n).Gated
  := by
  intro c
  rw [ofGates_gate]
  exact List.mem_range.symm

/-- A binary clause that is satisfied apart from the variable of its first literal. -/
theorem value_of_satOff {σ : Assignment Nat} {k l : Lit}
    (h : Clause.SatOff σ k.vidx [k, l]) :
  σ.value l = true
  := by
  obtain ⟨m, hm, hne, hval⟩ := h
  simp only [List.mem_cons, List.not_mem_nil, or_false] at hm
  obtain rfl | rfl := hm
  · exact absurd rfl hne
  · exact hval

/-- The literal 1 is the complement of 2, and occurs in two other clauses. -/
def equivalenceGate : Eliminator :=
  ofGates [[Backward.lit 1, Backward.lit 2], [Backward.lit (-1), Backward.lit (-2)],
    [Backward.lit 1, Backward.lit 3], [Backward.lit (-1), Backward.lit 4]] 2

theorem equivalenceGate_connected :
  equivalenceGate.Connected
  := ofGates_connected 2 (by decide)

theorem equivalenceGate_define :
  equivalenceGate.GatesDefine (Backward.lit 1) ∧ equivalenceGate.GatesTotal (Backward.lit 1)
  := by
  have hmem : ∀ c, equivalenceGate.gate c = true → c = 0 ∨ c = 1 := by
    intro c hc
    have hlt := ofGates_gate.mp hc
    omega
  refine ⟨⟨ofGates_gated _ 2, ?_, ?_⟩, ?_⟩
  · intro c hc
    obtain rfl | rfl := hmem c hc <;> decide
  · apply (defined_iff equivalenceGate_connected rfl).mpr
    intro σ _ hall
    have hfst : σ.value (Backward.lit 2) = true := value_of_satOff (hall 0 rfl)
    have hsnd : σ.value (-Backward.lit 2) = true := value_of_satOff (hall 1 rfl)
    change σ.value (Literal.neg (Backward.lit 2)) = true at hsnd
    rw [Assignment.value_neg, hfst] at hsnd
    cases hsnd
  · intro σ _
    use !σ 2
    have hvalue : ∀ (τ : Assignment Nat) (n : Int) (h : n ≠ 0),
        τ.value (Backward.lit n) = (τ n.natAbs ^^ decide (n < 0)) := by
      intro τ n h
      rw [Backward.lit, Lit.ofInt, dif_neg h]
      rfl
    change Models (Function.update σ 1 _) _
    rintro _ ⟨c, hc, rfl⟩
    obtain rfl | rfl := hmem c hc
    · cases hv : σ 2 with
      | true => exact ⟨Backward.lit 2, by decide, by simp [hvalue, hv]⟩
      | false => exact ⟨Backward.lit 1, by decide, by simp [hvalue]⟩
    · cases hv : σ 2 with
      | true => exact ⟨Backward.lit (-1), by decide, by simp [hvalue]⟩
      | false => exact ⟨Backward.lit (-2), by decide, by simp [hvalue, hv]⟩

/-- The variable of an equivalence is eliminated. -/
theorem eliminate_preserves_equivalenceGate :
  equivalenceGate.Preserves (((equivalenceGate.elimResolventsAreBounded
    (Backward.lit 1)).2.elimAddResolvents (Backward.lit 1)).markEliminatedClausesAsGarbage
      (Backward.lit 1))
  := eliminate_preserves equivalenceGate_connected (fun _ => rfl) rfl
    (Or.inr equivalenceGate_define) (Prod.ext (by decide +kernel) rfl) (by decide +kernel)

/-- Clauses all of which are gate clauses and which say that 1 is true and that it is false. -/
def contradictoryGate : Eliminator :=
  ofGates [[Backward.lit 1, Backward.lit 2], [Backward.lit 1, Backward.lit (-2)],
    [Backward.lit (-1), Backward.lit 3], [Backward.lit (-1), Backward.lit (-3)]] 4

theorem contradictoryGate_connected :
  contradictoryGate.Connected
  := ofGates_connected 4 (by decide)

theorem contradictoryGate_define :
  contradictoryGate.GatesDefine (Backward.lit 1)
  := by
  refine ⟨ofGates_gated _ 4, ?_, ?_⟩
  · intro c hc
    have hlt := ofGates_gate.mp hc
    exact ⟨hlt, rfl⟩
  · apply (defined_iff contradictoryGate_connected rfl).mpr
    intro σ _ hall
    have hfst : σ.value (Backward.lit 2) = true := value_of_satOff (hall 0 rfl)
    have hsnd : σ.value (-Backward.lit 2) = true := value_of_satOff (hall 1 rfl)
    change σ.value (Literal.neg (Backward.lit 2)) = true at hsnd
    rw [Assignment.value_neg, hfst] at hsnd
    cases hsnd

/-- The first literal of two clauses whose second literals are complements. -/
theorem value_of_complements {σ : Assignment Nat} {k l : Lit} (h : Clause.Sat σ [k, l])
    (h' : Clause.Sat σ [k, -l]) :
  σ.value k = true
  := by
  obtain ⟨m, hm, hval⟩ := h
  obtain ⟨m', hm', hval'⟩ := h'
  simp only [List.mem_cons, List.not_mem_nil, or_false] at hm hm'
  obtain rfl | rfl := hm
  · exact hval
  · obtain rfl | rfl := hm'
    · exact hval'
    · change σ.value (Literal.neg m) = true at hval'
      rw [Assignment.value_neg, hval] at hval'
      cases hval'

/-- No assignment satisfies the clauses of the contradictory gate and the others. -/
theorem contradictoryGate_not_model (σ : Assignment Nat) :
  ¬ contradictoryGate.Model σ
  := by
  intro hσ
  have hsat : ∀ c < 4, Clause.Sat σ (contradictoryGate.clause c) := fun c hc => hσ.sat c hc rfl
  have htrue : σ.value (Backward.lit 1) = true :=
    value_of_complements (hsat 0 (by decide)) (hsat 1 (by decide))
  have hfalse : σ.value (-Backward.lit 1) = true :=
    value_of_complements (hsat 2 (by decide)) (hsat 3 (by decide))
  change σ.value (Literal.neg (Backward.lit 1)) = true at hfalse
  rw [Assignment.value_neg, htrue] at hfalse
  cases hfalse

/-- No resolvents of gate clauses are added, so that nothing remains of clauses that cannot be
satisfied. -/
theorem not_eliminatePreserves :
  ∃ (s t : Eliminator) (pivot : Lit), s.Connected ∧ (∀ v, s.marks v = 0) ∧ s.val pivot = none
    ∧ s.GatesDefine pivot ∧ s.elimResolventsAreBounded pivot = (true, t)
    ∧ (t.elimAddResolvents pivot).unsat = false
    ∧ ¬ s.Preserves ((t.elimAddResolvents pivot).markEliminatedClausesAsGarbage pivot)
  := by
  refine ⟨contradictoryGate, contradictoryGate, Backward.lit 1, contradictoryGate_connected,
    fun _ => rfl, rfl, contradictoryGate_define, rfl, by decide +kernel, ?_⟩
  intro hpreserves
  apply contradictoryGate_not_model _ (hpreserves.extended (fun _ => false) ⟨?_, ?_⟩)
  · intro v b hv
    change (none : Option Bool) = some b at hv
    cases hv
  · intro c hc hgarbage
    change c < 4 at hc
    have hall : ∀ c < 4, ((contradictoryGate.elimAddResolvents
        (Backward.lit 1)).markEliminatedClausesAsGarbage (Backward.lit 1)).1.garbage c = true := by
      decide +kernel
    rw [hall c hc] at hgarbage
    cases hgarbage

end Eliminator

end Cadical
