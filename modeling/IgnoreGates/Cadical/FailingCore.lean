import IgnoreGates.Cadical.AssumeRun
import IgnoreGates.Cadical.CheckedRun
import Mathlib.Data.Finset.Card

/-!
# Failed assumptions

`failing` collects the assumptions to which a falsified assumption, or the falsified constraint,
is traced back.  They contradict the clauses; when none is falsified and all variables are
assigned, the trail is a model of the assumptions and of the constraint.
-/

namespace Cadical

open Logic

/-- The unit clauses of the literals. -/
def units (l : List Lit) : Set (Clause Lit) :=
  {c | ∃ x ∈ l, c = [x]}

theorem units_eq (l : List Lit) :
  units l = {c | c ∈ l.map (fun x => [x])}
  := by
  ext c
  change (∃ x ∈ l, c = [x]) ↔ c ∈ l.map (fun x => [x])
  rw [List.mem_map]
  exact exists_congr (fun x => and_congr_right (fun _ => eq_comm))

namespace Cdcl

variable {s : Cdcl} {chrono : Nat} {o : Options} {e : External} {F : Set (Clause Lit)}
  {a : Assuming}

/-! ### Tracing back -/

/-- When literals are traced back to root level and to literals that are in `P` as unit clauses,
so are they. -/
theorem Holds.mem_of_traced {P : Set (Clause Lit)} (h : s.Holds P) (hP : RupClosed P)
    (ht : s.WfTrail chrono) {T : Lit → Prop} (hmem : ∀ x, T x → x ∈ s.trail)
    (hclosed : ∀ x, T x → (s.var x).level = 0
      ∨ (∃ c, (s.var x).reason = some c ∧ ∀ k ∈ s.lits c, k ≠ x → T (-k))
      ∨ [x] ∈ P) {x : Lit} (hx : T x) :
  [x] ∈ P
  := by
  have hall (n : Nat) : ∀ pre x post, s.trail = pre ++ x :: post → pre.length = n → T x →
      [x] ∈ P := by
    induction n using Nat.strong_induction_on with
    | h n ih =>
        rintro pre x post hsplit rfl hTx
        obtain hlevel | ⟨c, hc, hT⟩ | hunit := hclosed x hTx
        · exact h.root x (hmem x hTx) hlevel
        · apply hP.remove (h.clauses c (ht.reason x (hmem x hTx) c hc))
          intro k hk
          by_cases hkx : k = x
          · exact Or.inl (hkx ▸ List.mem_singleton_self k)
          · right
            have hreason : (s.toSearch.var x).reason = some (s.lits c) :=
              congrArg (Option.map s.lits) hc
            obtain ⟨hneg, -⟩ := ht.search.before pre x post _ hsplit hreason k hk hkx
            obtain ⟨pre', post', hsplit'⟩ := List.append_of_mem hneg
            have hlt : pre'.length < pre.length := by
              rw [hsplit', List.length_append, List.length_cons]
              omega
            exact ih _ hlt pre' (-k) (post' ++ x :: post)
              (by rw [hsplit, hsplit', List.append_assoc, List.cons_append]) rfl (hT k hk hkx)
        · exact hunit
  obtain ⟨pre, post, hsplit⟩ := List.append_of_mem (hmem x hx)
  exact hall _ pre x post hsplit rfl hx

/-! ### The working stack -/

/-- The literals of a clause are pushed once for each variable. -/
theorem analyze_literals_spec (f : Failing) (c : List Lit) :
  ∃ new, (c.foldl Failing.analyzeLiteral f).analyzed = f.analyzed ++ new
    ∧ (c.foldl Failing.analyzeLiteral f).failed = f.failed
    ∧ (c.foldl Failing.analyzeLiteral f).seen = f.seen ∪ (new.map Lit.vidx).toFinset
    ∧ (c.foldl Failing.analyzeLiteral f).seen.card = f.seen.card + new.length
    ∧ (∀ x ∈ new, -x ∈ c ∧ x.vidx ∉ f.seen)
    ∧ ∀ k ∈ c, k.vidx ∈ (c.foldl Failing.analyzeLiteral f).seen
  := by
  induction c generalizing f with
  | nil => exact ⟨[], by simp⟩
  | cons other c ih =>
      rw [List.foldl_cons, Failing.analyzeLiteral]
      split
      · next hseen =>
          obtain ⟨new, hanalyzed, hfailed, hnew, hcard, hmem, hall⟩ := ih f
          refine ⟨new, hanalyzed, hfailed, hnew, hcard,
            fun x hx => ⟨List.mem_cons_of_mem other (hmem x hx).1, (hmem x hx).2⟩, ?_⟩
          refine List.forall_mem_cons.mpr ⟨?_, hall⟩
          rw [hnew]
          exact Finset.mem_union_left _ hseen
      · next hseen =>
          obtain ⟨new, hanalyzed, hfailed, hnew, hcard, hmem, hall⟩ :=
            ih ⟨insert other.vidx f.seen, f.analyzed ++ [-other], f.failed⟩
          refine ⟨-other :: new, ?_, hfailed, ?_, ?_, ?_, List.forall_mem_cons.mpr ⟨?_, hall⟩⟩
          · rw [hanalyzed, List.append_assoc, List.singleton_append]
          · rw [hnew, List.map_cons, List.toFinset_cons, Lit.vidx_neg, Finset.insert_union,
              Finset.union_insert]
          · rw [hcard, Finset.card_insert_of_notMem hseen, List.length_cons]
            omega
          · refine List.forall_mem_cons.mpr ⟨⟨?_, ?_⟩, ?_⟩
            · rw [Lit.neg_neg]
              exact List.mem_cons_self
            · rwa [Lit.vidx_neg]
            · intro x hx
              exact ⟨List.mem_cons_of_mem other (hmem x hx).1,
                fun hmem' => (hmem x hx).2 (Finset.mem_insert_of_mem hmem')⟩
          · rw [hnew]
            exact Finset.mem_union_left _ (Finset.mem_insert_self _ _)

/-- The rest of the working stack does not matter for what is pushed. -/
theorem analyze_literals_analyzed {f g : Failing} {lit : Lit}
    (hf : f = ⟨g.seen, lit :: g.analyzed, g.failed⟩) (c : List Lit) :
  c.foldl Failing.analyzeLiteral f = ⟨(c.foldl Failing.analyzeLiteral g).seen,
    lit :: (c.foldl Failing.analyzeLiteral g).analyzed,
    (c.foldl Failing.analyzeLiteral g).failed⟩
  := by
  induction c generalizing f g with
  | nil => exact hf
  | cons other c ih =>
      rw [List.foldl_cons, List.foldl_cons]
      apply ih
      rw [hf, Failing.analyzeLiteral, Failing.analyzeLiteral]
      split
      · rfl
      · rfl

/-- The literals `done` have been taken from the working stack: they are on root level, their
reasons have been pushed, or they are failed assumptions. -/
structure FailingInv (s : Cdcl) (a : Assuming) (first : List Lit) (done : List Lit) (f : Failing) :
    Prop where
  mem : ∀ x ∈ done ++ f.analyzed, x ∈ s.trail
  seen : ∀ v, v ∈ f.seen ↔ ∃ x ∈ done ++ f.analyzed, x.vidx = v
  closed : ∀ x ∈ done, (s.var x).level = 0
    ∨ (∃ c, (s.var x).reason = some c ∧ ∀ k ∈ s.lits c, k ≠ x → -k ∈ done ++ f.analyzed)
    ∨ x ∈ f.failed
  first : ∀ x ∈ first, x ∈ f.failed
  failed : ∀ x ∈ f.failed, x ∈ a.assumptions

variable {first done : List Lit} {f : Failing}

/-- A literal is taken from the working stack. -/
theorem FailingInv.pop (h : s.FailingInv a first done f) {lit : Lit} {analyzed failed : List Lit}
    (hf : f.analyzed = lit :: analyzed) (hfailed : ∀ x ∈ failed, x ∈ a.assumptions)
    (hsub : f.failed ⊆ failed)
    (hlit : (s.var lit).level = 0
      ∨ (∃ c, (s.var lit).reason = some c ∧ ∀ k ∈ s.lits c, k ≠ lit → -k ∈ done ++ f.analyzed)
      ∨ lit ∈ failed) :
  s.FailingInv a first (done ++ [lit]) ⟨f.seen, analyzed, failed⟩
  := by
  have heq : done ++ [lit] ++ analyzed = done ++ f.analyzed := by
    rw [hf, List.append_assoc, List.singleton_append]
  refine ⟨?_, ?_, ?_, fun x hx => hsub (h.first x hx), hfailed⟩
  · simp only [heq]
    exact h.mem
  · simp only [heq]
    exact h.seen
  · intro x hx
    simp only [heq]
    obtain hx | hx := List.mem_append.mp hx
    · exact (h.closed x hx).imp_right (Or.imp_right (fun hmem => hsub hmem))
    · rw [List.mem_singleton.mp hx]
      exact hlit

/-- The literals of a reason are pushed. -/
theorem FailingInv.push (h : s.FailingInv a first done f) (ht : s.WfTrail chrono) {c : List Lit}
    {lit : Lit} (hlit : lit ∈ done ++ f.analyzed) (hc : ∀ k ∈ c, k ≠ lit → -k ∈ s.trail) :
  s.FailingInv a first done (c.foldl Failing.analyzeLiteral f)
    ∧ ∀ k ∈ c, k ≠ lit → -k ∈ done ++ (c.foldl Failing.analyzeLiteral f).analyzed
  := by
  obtain ⟨new, hanalyzed, hfailed, hseen, -, hnew, hall⟩ := analyze_literals_spec f c
  have hmem : ∀ x ∈ done ++ (c.foldl Failing.analyzeLiteral f).analyzed, x ∈ s.trail := by
    intro x hx
    rw [hanalyzed, ← List.append_assoc] at hx
    obtain hx | hx := List.mem_append.mp hx
    · exact h.mem x hx
    · obtain ⟨hxc, hxseen⟩ := hnew x hx
      have hne : -x ≠ lit := by
        rintro rfl
        exact hxseen ((h.seen _).mpr ⟨_, hlit, Lit.vidx_neg x⟩)
      have hxmem := hc (-x) hxc hne
      rwa [Lit.neg_neg] at hxmem
  have hseen' : ∀ v, v ∈ (c.foldl Failing.analyzeLiteral f).seen ↔
      ∃ x ∈ done ++ (c.foldl Failing.analyzeLiteral f).analyzed, x.vidx = v := by
    intro v
    rw [hseen, hanalyzed, Finset.mem_union, h.seen, List.mem_toFinset, ← List.append_assoc]
    simp only [List.mem_append (s := done ++ f.analyzed), or_and_right, exists_or, List.mem_map]
  refine ⟨⟨hmem, hseen', ?_, ?_, ?_⟩, ?_⟩
  · intro x hx
    rw [hfailed]
    refine (h.closed x hx).imp_right (Or.imp_left ?_)
    rintro ⟨c', hc', hpushed⟩
    refine ⟨c', hc', fun k hk hkx => ?_⟩
    rw [hanalyzed, ← List.append_assoc]
    exact List.mem_append_left _ (hpushed k hk hkx)
  · rw [hfailed]
    exact h.first
  · rw [hfailed]
    exact h.failed
  · intro k hk hkne
    obtain ⟨x, hx, hvidx⟩ := (hseen' _).mp (hall k hk)
    have hxeq := ht.search.eq_of_vidx (hmem x hx) (hc k hk hkne)
      (hvidx.trans k.vidx_neg.symm)
    rwa [← hxeq]

theorem FailingInv.card_le (h : s.FailingInv a first done f) :
  f.seen.card ≤ s.trail.length
  := by
  have hsub : f.seen ⊆ (s.trail.map Lit.vidx).toFinset := by
    intro v hv
    obtain ⟨x, hx, rfl⟩ := (h.seen v).mp hv
    exact List.mem_toFinset.mpr (List.mem_map_of_mem (h.mem x hx))
  have hle := (Finset.card_le_card hsub).trans (List.toFinset_card_le _)
  rwa [List.length_map] at hle

/-- One literal is taken from the working stack, and there is room for those that are pushed. -/
theorem FailingInv.step (h : s.FailingInv a first done f) (ht : s.WfTrail chrono)
    (hdecision : ∀ x ∈ s.trail, (s.var x).reason = none → 0 < (s.var x).level →
      x ∈ a.assumptions) {lit : Lit} {analyzed : List Lit} (hf : f.analyzed = lit :: analyzed)
    (n : Nat) :
  ∃ f', s.failingLoop (n + 1) f = s.failingLoop n f' ∧ s.FailingInv a first (done ++ [lit]) f'
    ∧ done ++ f.analyzed ⊆ done ++ [lit] ++ f'.analyzed
    ∧ f'.analyzed.length + f.seen.card + 1 ≤ f.analyzed.length + f'.seen.card
  := by
  have hlit : lit ∈ done ++ f.analyzed := by
    rw [hf]
    exact List.mem_append_right _ List.mem_cons_self
  have hsub (new : List Lit) : done ++ f.analyzed ⊆ done ++ [lit] ++ (analyzed ++ new) := by
    rw [hf, List.append_assoc, List.singleton_append, ← List.cons_append, ← List.append_assoc]
    exact List.subset_append_left _ _
  have hlength : analyzed.length + f.seen.card + 1 = f.analyzed.length + f.seen.card := by
    rw [hf, List.length_cons]
    omega
  have hsub' := hsub []
  rw [List.append_nil] at hsub'
  rw [Cdcl.failingLoop, hf]
  simp only
  split
  · next hlevel =>
      exact ⟨_, rfl, h.pop hf h.failed (List.Subset.refl _) (Or.inl hlevel), hf ▸ hsub',
        hf ▸ hlength.le⟩
  · next hlevel =>
      split
      · next c hc =>
          have hreason : (s.toSearch.var lit).reason = some (s.lits c) :=
            congrArg (Option.map s.lits) hc
          obtain ⟨hpush, hpushed⟩ := h.push ht hlit
            (fun k hk hne => (ht.search.reason_false (h.mem lit hlit) hreason hk hne).1)
          obtain ⟨new, hanalyzed, -, -, hcard, -⟩ :=
            analyze_literals_spec { f with analyzed := analyzed } (s.lits c)
          have heq := analyze_literals_analyzed (g := { f with analyzed := analyzed })
            (by rw [← hf]) (s.lits c)
          refine ⟨_, rfl, ?_, ?_, ?_⟩
          · have hpop := hpush.pop (congrArg Failing.analyzed heq) hpush.failed
              (List.Subset.refl _) (Or.inr (Or.inl ⟨c, hc, hpushed⟩))
            rw [heq] at hpop
            exact hpop
          · rw [hanalyzed]
            exact hf ▸ hsub new
          · rw [hanalyzed, hcard, List.length_append, List.length_cons]
            simp only
            omega
      · next hnone =>
          have hmem := hdecision lit (h.mem lit hlit) hnone (Nat.pos_of_ne_zero hlevel)
          refine ⟨_, rfl, h.pop hf ?_ (List.subset_append_left _ _)
            (Or.inr (Or.inr (List.mem_append_right _ (List.mem_singleton_self lit)))), hf ▸ hsub',
            hf ▸ hlength.le⟩
          intro x hx
          obtain hx | hx := List.mem_append.mp hx
          · exact h.failed x hx
          · rwa [List.mem_singleton.mp hx]

/-- The loop goes through the working stack. -/
theorem FailingInv.failingLoop (h : s.FailingInv a first done f) (ht : s.WfTrail chrono)
    (hdecision : ∀ x ∈ s.trail, (s.var x).reason = none → 0 < (s.var x).level →
      x ∈ a.assumptions) {n : Nat} (hn : s.trail.length + f.analyzed.length < n + f.seen.card) :
  ∃ failed done' seen, s.failingLoop n f = some failed
    ∧ s.FailingInv a first done' ⟨seen, [], failed⟩ ∧ done ++ f.analyzed ⊆ done'
  := by
  induction n generalizing f done with
  | zero =>
      have hle := h.card_le
      omega
  | succ n ih =>
      cases hf : f.analyzed with
      | nil =>
          refine ⟨f.failed, done, f.seen, ?_, hf ▸ h, ?_⟩
          · rw [Cdcl.failingLoop, hf]
          · rw [List.append_nil]
            exact List.Subset.refl _
      | cons lit analyzed =>
          obtain ⟨f', heq, hinv, hsub, hlength⟩ := h.step ht hdecision hf n
          obtain ⟨failed, done', seen, hloop, hinv', hsub'⟩ := ih hinv (by omega)
          exact ⟨failed, done', seen, heq.trans hloop, hinv', hf ▸ List.Subset.trans hsub hsub'⟩

/-- When the working stack is empty, the literals taken from it follow from the failed
assumptions. -/
theorem FailingInv.unit_mem {seen : Finset Nat} {failed : List Lit} {P : Set (Clause Lit)}
    (h : s.FailingInv a first done ⟨seen, [], failed⟩) (ht : s.WfTrail chrono) (hs : s.Holds P)
    (hP : RupClosed P) (hfailed : units failed ⊆ P) {x : Lit} (hx : x ∈ done) :
  [x] ∈ P
  := by
  apply hs.mem_of_traced hP ht (T := fun y => y ∈ done) _ _ hx
  · exact fun y hy => h.mem y (List.mem_append_left _ hy)
  · intro y hy
    refine (h.closed y hy).imp_right (Or.imp ?_ (fun hmem => hfailed ⟨y, hmem, rfl⟩))
    rintro ⟨c, hc, hpushed⟩
    refine ⟨c, hc, fun k hk hne => ?_⟩
    have hmem := hpushed k hk hne
    rwa [List.append_nil] at hmem

/-! ### Falsified assumptions -/

/-- What is known of the falsified assumption that is chosen. -/
def FalsifyingOk (s : Cdcl) (a : Assuming) : Falsifying → Prop
  | .failedUnit lit => lit ∈ a.assumptions ∧ -lit ∈ s.trail ∧ (s.var lit).level = 0
  | .failedClashing lit => lit ∈ a.assumptions ∧ -lit ∈ s.trail ∧ (s.var lit).level ≠ 0
      ∧ (s.var lit).reason = none
  | .firstFailed lit => lit ∈ a.assumptions ∧ -lit ∈ s.trail

theorem falsifying_ok {assumptions : List Lit} {failedClashing firstFailed : Option Lit}
    {r : Falsifying} (hsub : assumptions ⊆ a.assumptions)
    (hclashing : ∀ lit, failedClashing = some lit → s.FalsifyingOk a (.failedClashing lit))
    (hfirst : ∀ lit, firstFailed = some lit → s.FalsifyingOk a (.firstFailed lit))
    (h : s.falsifying assumptions failedClashing firstFailed = some r) :
  s.FalsifyingOk a r
  := by
  induction assumptions generalizing failedClashing firstFailed with
  | nil =>
      cases failedClashing with
      | some lit =>
          cases h
          exact hclashing lit rfl
      | none =>
          obtain ⟨lit, hlit, rfl⟩ := Option.map_eq_some_iff.mp h
          exact hfirst lit hlit
  | cons lit assumptions ih =>
      have hlit := hsub List.mem_cons_self
      have hrest : assumptions ⊆ a.assumptions := fun k hk => hsub (List.mem_cons_of_mem lit hk)
      rw [falsifying] at h
      split at h
      · exact ih hrest hclashing hfirst h
      · next hval =>
          have hneg := ((s.val_neg_iff lit).mp (Int.not_le.mp hval)).2
          split at h
          · next hlevel =>
              cases h
              exact ⟨hlit, hneg, hlevel⟩
          · next hlevel =>
              split at h
              · exact ih hrest hclashing hfirst h
              · next hnone =>
                  rw [Bool.not_eq_true, Option.isSome_eq_false_iff, Option.isNone_iff_eq_none]
                    at hnone
                  rw [hnone] at hclashing
                  split at h
                  · next hreason =>
                      apply ih hrest _ hfirst h
                      intro k hk
                      cases hk
                      exact ⟨hlit, hneg, hlevel, hreason⟩
                  · split at h
                    · apply ih hrest hclashing _ h
                      intro k hk
                      cases hk
                      exact ⟨hlit, hneg⟩
                    · exact ih hrest hclashing hfirst h

/-- A falsified assumption is found. -/
theorem falsifying_isSome {assumptions : List Lit} {failedClashing firstFailed : Option Lit}
    (h : failedClashing.isSome ∨ firstFailed.isSome ∨ ∃ lit ∈ assumptions, s.val lit < 0) :
  (s.falsifying assumptions failedClashing firstFailed).isSome
  := by
  induction assumptions generalizing failedClashing firstFailed with
  | nil =>
      obtain h | h | ⟨lit, hlit, -⟩ := h
      · obtain ⟨lit, rfl⟩ := Option.isSome_iff_exists.mp h
        rfl
      · cases failedClashing with
        | some lit => rfl
        | none =>
            rw [falsifying, Option.isSome_map]
            exact h
      · cases hlit
  | cons lit assumptions ih =>
      rw [falsifying]
      split
      · next hval =>
          apply ih
          refine h.imp_right (Or.imp_right ?_)
          rintro ⟨k, hk, hneg⟩
          obtain rfl | hk := List.mem_cons.mp hk
          · omega
          · exact ⟨k, hk, hneg⟩
      · split
        · rfl
        · split
          · next hsome => exact ih (Or.inl hsome)
          · split
            · exact ih (Or.inl rfl)
            · split
              · exact ih (Or.inr (Or.inl rfl))
              · next hall =>
                  apply ih (Or.inr (Or.inl _))
                  cases firstFailed with
                  | none => exact absurd rfl hall
                  | some first => rfl

/-! ### The failed assumptions contradict the clauses -/

/-- The analysis of a falsified assumption. -/
theorem Ok.failing_assumption (h : s.Ok e o F) (ha : s.Assumed e a)
    (hlt : s.level < a.assumptions.length) (hval : ∃ lit ∈ a.assumptions, s.val lit < 0) :
  ∃ failed, s.failing a false = some failed ∧ failed ⊆ a.assumptions
    ∧ ∀ P, RupClosed P → F ⊆ P → units failed ⊆ P → [] ∈ P
  := by
  have ht := h.inv.trail
  have hdecision : ∀ x ∈ s.trail, (s.var x).reason = none → 0 < (s.var x).level →
      x ∈ a.assumptions := fun x hx hnone hpos =>
    ha.decision x hx hnone hpos ((ht.search.level_le x hx).trans hlt.le)
  have hone {lit : Lit} (hlit : lit ∈ a.assumptions) : [lit] ⊆ a.assumptions :=
    fun x hx => List.mem_singleton.mp hx ▸ hlit
  have hsome : (s.falsifying a.assumptions none none).isSome :=
    falsifying_isSome (Or.inr (Or.inr hval))
  obtain ⟨r, hr⟩ := Option.isSome_iff_exists.mp hsome
  have hok := falsifying_ok (List.Subset.refl a.assumptions)
    (fun _ h => absurd h.symm (Option.some_ne_none _))
    (fun _ h => absurd h.symm (Option.some_ne_none _)) hr
  rw [failing, if_neg Bool.false_ne_true, hr]
  cases r with
  | failedUnit lit =>
      obtain ⟨hlit, hneg, hlevel⟩ := hok
      refine ⟨[lit], rfl, hone hlit, fun P hP hF hunits => ?_⟩
      apply hP.nil_mem (hunits ⟨lit, List.mem_singleton_self lit, rfl⟩)
      exact (h.holds P hP hF).root (-lit) hneg (by rw [var_neg, hlevel])
  | failedClashing lit =>
      obtain ⟨hlit, hneg, hlevel, hnone⟩ := hok
      have hmem : -lit ∈ a.assumptions := by
        apply hdecision (-lit) hneg
        · rw [var_neg, hnone]
        · rw [var_neg]
          exact Nat.pos_of_ne_zero hlevel
      refine ⟨[lit, -lit], rfl, ?_, fun P hP _ hunits => ?_⟩
      · exact List.cons_subset.mpr ⟨hlit, hone hmem⟩
      · apply hP.nil_mem (hunits ⟨lit, List.mem_cons_self, rfl⟩)
        exact hunits ⟨-lit, List.mem_cons_of_mem lit (List.mem_singleton_self _), rfl⟩
  | firstFailed lit =>
      obtain ⟨hlit, hneg⟩ := hok
      have hinv : s.FailingInv a [lit] [] ⟨{lit.vidx}, [-lit], [lit]⟩ := by
        refine ⟨?_, ?_, nofun, fun x hx => hx, ?_⟩
        · intro x hx
          rwa [List.mem_singleton.mp hx]
        · intro v
          simp [eq_comm]
        · intro x hx
          rwa [List.mem_singleton.mp hx]
      obtain ⟨failed, done, seen, hloop, hend, hsub⟩ :=
        hinv.failingLoop (n := s.trail.length + 2) ht hdecision (by simp)
      refine ⟨failed, hloop, hend.failed, fun P hP hF hunits => ?_⟩
      apply hP.nil_mem (hunits ⟨lit, hend.first lit (List.mem_singleton_self lit), rfl⟩)
      exact hend.unit_mem ht (h.holds P hP hF) hP hunits (hsub (List.mem_singleton_self (-lit)))

/-- The analysis of a falsified constraint. -/
theorem Ok.failing_constraint (h : s.Ok e o F) (ha : s.Assumed e a)
    (hle : s.level ≤ a.assumptions.length) (hfalse : ∀ k ∈ a.constraint, -k ∈ s.trail) :
  ∃ failed, s.failing a true = some failed ∧ failed ⊆ a.assumptions
    ∧ ∀ P, RupClosed P → F ⊆ P → units failed ⊆ P → a.constraint ∈ P → [] ∈ P
  := by
  have ht := h.inv.trail
  have hdecision : ∀ x ∈ s.trail, (s.var x).reason = none → 0 < (s.var x).level →
      x ∈ a.assumptions := fun x hx hnone hpos =>
    ha.decision x hx hnone hpos ((ht.search.level_le x hx).trans hle)
  have hinv : s.FailingInv a [] [] ⟨(a.constraint.map Lit.vidx).toFinset,
      a.constraint.map (fun lit => -lit), []⟩ := by
    refine ⟨?_, ?_, nofun, nofun, nofun⟩
    · intro x hx
      obtain ⟨k, hk, rfl⟩ := List.mem_map.mp hx
      exact hfalse k hk
    · intro v
      simp
  obtain ⟨failed, done, seen, hloop, hend, hsub⟩ :=
    hinv.failingLoop (n := a.constraint.length + s.trail.length + 1) ht hdecision
      (by rw [List.length_map]; omega)
  refine ⟨failed, hloop, hend.failed, fun P hP hF hunits hconstraint => ?_⟩
  apply hP.remove hconstraint
  intro k hk
  exact Or.inr (hend.unit_mem ht (h.holds P hP hF) hP hunits (hsub (List.mem_map_of_mem hk)))

/-! ### Small runs -/

/-- The state after a decision. -/
def decided (s : Cdcl) (o : Options) (a : Assuming) : Cdcl :=
  match s.decide o.chrono a (Lit.ofInt 1) with
  | .next t => t
  | .failed _ => s

/-- A decision on the levels of the assumptions and the constraint. -/
theorem Solving.decided (h : Solving e o F a s) (hunsat : s.unsat = false)
    (hall : s.propagated = s.trail.length)
    (hlevel : s.level < a.assumptions.length + (if a.constraint = [] then 0 else 1)) :
  Solving e o F a (s.decided o a)
  := by
  cases ht : s.decide o.chrono a (Lit.ofInt 1) with
  | next t =>
      rw [Cdcl.decided, ht]
      exact h.decide hunsat hall (fun hle => absurd hlevel (Nat.not_lt.mpr hle)) ht
  | failed unsatConstraint =>
      rw [Cdcl.decided, ht]
      exact h

theorem Solving.searched (h : Solving e o F a s) (hunsat : s.unsat = false) :
  Solving e o F a (s.searched e o)
  := by
  obtain ⟨t, ht, -⟩ := h.assumed.1.ok.propagateAndAnalyze hunsat ⟨0, fun _ _ => true⟩
  rw [Cdcl.searched, ht]
  exact h.search hunsat _ ht

section Run

/-- No variable is auxiliary. -/
def plainExternal : External :=
  ⟨∅, id⟩

/-- A call on one clause over two variables. -/
def oneCall : Cdcl :=
  (((init 0).initVars 2).added runOptions (runClause 1 2)).backtrack 0

theorem oneCall_solving {assumptions constraint : List Lit}
    (hvars : ∀ x ∈ assumptions ++ constraint, x.vidx ≤ 2) :
  Solving plainExternal runOptions {runClause 1 2} ⟨assumptions, constraint⟩ oneCall
  := by
  have hinit := Reachable.initVars (.init (e := plainExternal) (o := runOptions)) 2
  have hadd := hinit.added (runClause 1 2) (by decide +kernel)
  rw [insert_empty_eq] at hadd
  exact .start hadd (by decide +kernel) (fun x hx => ⟨hvars x hx, rfl⟩)

/-- Both literals of the clause are assumed to be false. -/
def bothFalse : Assuming :=
  ⟨[Lit.ofInt (-1), Lit.ofInt (-2)], []⟩

/-- The first literal is assumed to be false, and the second one is the constraint. -/
def firstFalse : Assuming :=
  ⟨[Lit.ofInt (-1)], [Lit.ofInt 2]⟩

/-- The first assumption is decided, and the clause falsifies the second one. -/
def failedCall : Cdcl :=
  (oneCall.decided runOptions bothFalse).searched plainExternal runOptions

theorem failedCall_solving :
  Solving plainExternal runOptions {runClause 1 2} bothFalse failedCall
  := ((oneCall_solving (by decide +kernel)).decided (by decide +kernel) (by decide +kernel)
    (by decide +kernel)).searched (by decide +kernel)

/-- The assumption is decided, the clause makes the constraint true, and its level is entered. -/
def satisfiedCall : Cdcl :=
  ((oneCall.decided runOptions firstFalse).searched plainExternal runOptions).decided runOptions
    firstFalse

theorem satisfiedCall_solving :
  Solving plainExternal runOptions {runClause 1 2} firstFalse satisfiedCall
  := (((oneCall_solving (by decide +kernel)).decided (by decide +kernel) (by decide +kernel)
    (by decide +kernel)).searched (by decide +kernel)).decided (by decide +kernel)
    (by decide +kernel) (by decide +kernel)

end Run

/-! ### Answers under assumptions -/

/-- The empty clause follows from the original clauses, the failed assumptions, and the constraint
if it is falsified. -/
theorem Solving.failing (h : Solving e o F a s) (decision : Lit) {unsatConstraint : Bool}
    (hdecide : s.decide o.chrono a decision = .failed unsatConstraint) :
  ∃ failed, s.failing a unsatConstraint = some failed ∧ failed ⊆ a.assumptions
    ∧ ∀ P, RupClosed P →
      F ∪ units failed ∪ {c | unsatConstraint = true ∧ c = a.constraint} ⊆ P → [] ∈ P
  := by
  obtain ⟨hreach, ha⟩ := h.assumed
  obtain ⟨rfl, hlt, lit, hlit, hval⟩ | ⟨rfl, hlevel, hfalse⟩ := decide_failed hdecide
  · obtain ⟨failed, hfailed, hsub, hnil⟩ := hreach.ok.failing_assumption ha hlt
      ⟨lit, hlit, (s.val_neg_iff lit).mpr hval⟩
    exact ⟨failed, hfailed, hsub, fun P hP hall => hnil P hP (fun c hc => hall (Or.inl (Or.inl hc)))
      (fun c hc => hall (Or.inl (Or.inr hc)))⟩
  · obtain ⟨failed, hfailed, hsub, hnil⟩ := hreach.ok.failing_constraint ha hlevel.le hfalse
    exact ⟨failed, hfailed, hsub, fun P hP hall => hnil P hP (fun c hc => hall (Or.inl (Or.inl hc)))
      (fun c hc => hall (Or.inl (Or.inr hc))) (hall (Or.inr ⟨rfl, rfl⟩))⟩

/-- When `decide` finds that an assumption or the constraint is falsified, `failing` ends and
marks assumptions that together with the original clauses, and the constraint if it is the
constraint that is falsified, have no model. -/
theorem failing_core (h : Solving e o F a s) (decision : Lit) {unsatConstraint : Bool}
    (hdecide : s.decide o.chrono a decision = .failed unsatConstraint) :
  ∃ failed, s.failing a unsatConstraint = some failed ∧ failed ⊆ a.assumptions
    ∧ ¬ Satisfiable (F ∪ units failed ∪ {c | unsatConstraint = true ∧ c = a.constraint})
  := by
  obtain ⟨failed, hfailed, hsub, hnil⟩ := h.failing decision hdecide
  refine ⟨failed, hfailed, hsub, ?_⟩
  rintro ⟨σ, hσ⟩
  exact nil_not_mem_satisfiedBy (hnil _ (rupClosed_satisfiedBy σ) hσ)

/-- Both assumptions are false in the clause, and the clause has no model with the failed ones. -/
theorem failing_core_failedCall :
  ∃ failed, failedCall.failing bothFalse false = some failed ∧ failed ⊆ bothFalse.assumptions
    ∧ ¬ Satisfiable ({runClause 1 2} ∪ units failed
      ∪ {c | false = true ∧ c = bothFalse.constraint})
  := failing_core failedCall_solving (Lit.ofInt 1) rfl

example :
  failedCall.failing bothFalse false = some [Lit.ofInt (-2), Lit.ofInt (-1)]
  := by decide +kernel

/-- The failed assumptions are checked: from the original clauses, the failed assumptions, and the
constraint if it is falsified, there is a proof that the checker accepts and after which it is
inconsistent. -/
theorem failing_checked (h : Solving e o F a s) (decision : Lit) {unsatConstraint : Bool}
    (hdecide : s.decide o.chrono a decision = .failed unsatConstraint) :
  ∃ failed os ds k, s.failing a unsatConstraint = some failed ∧ failed ⊆ a.assumptions
    ∧ F ∪ units failed ∪ {c | unsatConstraint = true ∧ c = a.constraint} = {c | c ∈ os}
    ∧ Checker.Run (Checker.proof os ds) k ∧ k.inconsistent = true
  := by
  obtain ⟨failed, hfailed, hsub, hnil⟩ := h.failing decision hdecide
  obtain ⟨os, rfl⟩ := h.assumed.1.exists_list
  have hlist : {c | c ∈ os} ∪ units failed ∪ {c | unsatConstraint = true ∧ c = a.constraint}
      = {c | c ∈ os ++ failed.map (fun x => [x])
        ++ if unsatConstraint then [a.constraint] else []} := by
    rw [units_eq]
    ext c
    cases unsatConstraint <;> simp [or_comm, or_left_comm]
  rw [hlist] at hnil
  obtain ⟨ds, k, hrun, hinconsistent⟩ := Checker.exists_refutation
    (hnil _ (rupClosed_derived _) (fun c hc => .given hc))
  exact ⟨failed, _, ds, k, hfailed, hsub, hlist, hrun, hinconsistent⟩

/-- The empty clause is derived from the clause and the failed assumptions. -/
theorem failing_checked_failedCall :
  ∃ failed os ds k, failedCall.failing bothFalse false = some failed
    ∧ failed ⊆ bothFalse.assumptions
    ∧ {runClause 1 2} ∪ units failed ∪ {c | false = true ∧ c = bothFalse.constraint} = {c | c ∈ os}
    ∧ Checker.Run (Checker.proof os ds) k ∧ k.inconsistent = true
  := failing_checked failedCall_solving (Lit.ofInt 1) rfl

/-- When the search is satisfied, the trail is a model of the original clauses, of the
assumptions and of the constraint. -/
theorem assuming_model (h : Solving e o F a s) (hunsat : s.unsat = false)
    (hsat : s.satisfied a.assumptions a.constraint = true) :
  Models s.model (F ∪ units a.assumptions ∪ {c | a.constraint ≠ [] ∧ c = a.constraint})
  := by
  obtain ⟨hreach, ha⟩ := h.assumed
  have ht := hreach.ok.inv.trail
  rw [satisfied, decide_eq_true_eq] at hsat
  rintro c ((hc | ⟨x, hx, rfl⟩) | ⟨hne, rfl⟩)
  · exact hreach.ok.models_model hunsat hsat.1 hsat.2.2 c hc
  · obtain ⟨l, hl⟩ := List.mem_iff_getElem?.mp hx
    have hlt := (List.getElem?_eq_some_iff.mp hl).1
    exact ⟨x, List.mem_singleton_self x, model_value ht (ha.entered l (by omega) x hl).1⟩
  · rw [if_neg hne] at hsat
    obtain ⟨x, hx, hmem, -⟩ := ha.constraint hsat.2.1 hne
    exact ⟨x, hx, model_value ht hmem⟩

/-- The clause, the assumption and the constraint are satisfied by the trail. -/
theorem assuming_model_satisfiedCall :
  Models satisfiedCall.model ({runClause 1 2} ∪ units firstFalse.assumptions
    ∪ {c | firstFalse.constraint ≠ [] ∧ c = firstFalse.constraint})
  := assuming_model satisfiedCall_solving (by decide +kernel) (by decide +kernel)

/-! ### The shrunken constraint -/

/-- Removing duplicates and false literals does not change the constraint, and it is found to be
satisfied only when it is. -/
theorem shrinkLoop_sat {σ : Assignment Nat} (hroot : ∀ x ∈ s.trail, σ.value x = true)
    (kept constraint : List Lit) :
  Clause.Sat σ (kept ++ constraint) ↔ ∀ r, s.shrinkLoop kept constraint = some r → Clause.Sat σ r
  := by
  have hdrop {kept constraint : List Lit} {lit : Lit}
      (h : σ.value lit = true → lit ∈ kept) :
      Clause.Sat σ (kept ++ lit :: constraint) ↔ Clause.Sat σ (kept ++ constraint) := by
    constructor
    · rintro ⟨k, hk, hval⟩
      obtain hk | hk := List.mem_append.mp hk
      · exact ⟨k, List.mem_append_left _ hk, hval⟩
      · obtain rfl | hk := List.mem_cons.mp hk
        · exact ⟨k, List.mem_append_left _ (h hval), hval⟩
        · exact ⟨k, List.mem_append_right _ hk, hval⟩
    · rintro ⟨k, hk, hval⟩
      refine ⟨k, ?_, hval⟩
      rw [List.mem_append] at hk ⊢
      exact hk.imp_right (List.mem_cons_of_mem lit)
  induction constraint generalizing kept with
  | nil => simp [shrinkLoop]
  | cons lit constraint ih =>
      have hlit : lit ∈ kept ++ lit :: constraint :=
        List.mem_append_right _ List.mem_cons_self
      rw [shrinkLoop]
      split
      · next hmem => exact (hdrop (fun _ => hmem)).trans (ih kept)
      · split
        · next hneg =>
            refine ⟨nofun, fun _ => ?_⟩
            cases hval : σ.value lit with
            | true => exact ⟨lit, hlit, hval⟩
            | false =>
                refine ⟨-lit, List.mem_append_left _ hneg, ?_⟩
                rw [show -lit = Literal.neg lit from rfl, Assignment.value_neg, hval]
                rfl
        · split
          · next hval =>
              refine (hdrop (fun htrue => ?_)).trans (ih kept)
              have hfalse := hroot _ ((s.val_neg_iff lit).mp hval).2
              rw [show -lit = Literal.neg lit from rfl, Assignment.value_neg, htrue] at hfalse
              cases hfalse
          · split
            · next hval =>
                exact ⟨nofun, fun _ => ⟨lit, hlit, hroot lit ((s.val_pos_iff lit).mp hval)⟩⟩
            · have heq := ih (kept ++ [lit])
              rwa [List.append_assoc, List.singleton_append] at heq

/-- What `constrain` leaves is equivalent to the constraint: it is satisfied when nothing is left,
falsified when the flag is set, and otherwise the clause that is left. -/
theorem constrain_iff (h : Reachable e o F s) (constraint : List Lit) {σ : Assignment Nat}
    (hσ : Models σ F) :
  Clause.Sat σ constraint ↔ (s.constrain constraint).2 = false
    ∧ ((s.constrain constraint).1 ≠ [] → Clause.Sat σ (s.constrain constraint).1)
  := by
  have hroot := h.ok.backtrack_zero
  have hsat := (s.backtrack 0).shrinkLoop_sat
    (fun x hx => singleton_mem_satisfiedBy.mp
      (hroot.root_mem (s.backtrack_level 0) (rupClosed_satisfiedBy σ) hσ hx)) [] constraint
  rw [List.nil_append] at hsat
  rw [hsat, constrain]
  cases (s.backtrack 0).shrinkLoop [] constraint with
  | none => simp
  | some kept =>
      cases kept with
      | nil => simp [Clause.Sat]
      | cons k kept => simp

/-- The second occurrence of the literal is removed. -/
theorem constrain_iff_oneCall :
  Clause.Sat satisfiedCall.model (runClause 2 2)
    ↔ (satisfiedCall.constrain (runClause 2 2)).2 = false
      ∧ ((satisfiedCall.constrain (runClause 2 2)).1 ≠ []
        → Clause.Sat satisfiedCall.model (satisfiedCall.constrain (runClause 2 2)).1)
  := constrain_iff satisfiedCall_solving.assumed.1 (runClause 2 2)
    (satisfiedCall_solving.assumed.1.ok.models_model (by decide +kernel) (by decide +kernel)
      (by decide +kernel))

end Cdcl

end Cadical
