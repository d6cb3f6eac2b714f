import IgnoreGates.Cadical.CheckerPropagate

/-!
# The calls of the checker

Between two calls the whole trail is of root level and has been propagated.  A call that adds a
clause stores it, or puts its last literal that is not false on the trail, or finds the
inconsistency; a call that deletes a clause removes a stored one with the same literals; and a
check leaves the trail as it was.
-/

namespace Cadical

open Logic

namespace Checker

variable {s : Checker} {c l : List Lit}

/-- The invariant between two calls. -/
structure Inv (s : Checker) : Prop extends s.Ready s.trail.length where
  next : s.nextToPropagate = s.trail.length

/-! ### Checking a clause -/

/-- The complements of the literals have been assumed. -/
structure Assumed (s s' : Checker) (r : Nat) (l : List Lit) : Prop where
  ready : s'.Ready r
  reorders : s.Reorders s'
  trail : s.trail <+: s'.trail
  mem : ∀ k ∈ l, -k ∈ s'.trail
  holds : ∀ σ, s.Holds σ → (∀ k ∈ l, σ.value (-k) = true) → s'.Holds σ

/-- What is settled stays so on a longer part of the trail. -/
theorem Settled.mono {n m m' : Nat} (h : s.Settled n m) (hm : m ≤ m') :
  s.Settled n m'
  := by
  intro c hc k hk hneg
  obtain ⟨x, hx, hmem⟩ := h c hc k hk hneg
  exact ⟨x, hx, (List.take_sublist_take_left hm).subset hmem⟩

theorem Ready.assign {r : Nat} {x : Lit} (h : s.Ready r) (hx : s.Assignable x) :
  (s.assign x).Ready r
  where
    toPropagating := h.toPropagating.assign hx
    settled := by
      apply (h.settled.assign h.trail le_rfl le_rfl x).mono
      change s.trail.length ≤ (s.trail ++ [x]).length
      rw [List.length_append]
      exact Nat.le_add_right _ _

/-- The negations of the literals of a clause are assumed one by one. -/
theorem Ready.assume_all {r : Nat} (h : s.Ready r) (htrail : ∀ k ∈ l, k ∉ s.trail)
    (hneg : ∀ k ∈ l, -k ∉ l) (hlt : ∀ k ∈ l, k.vidx < s.sizeVars) :
  s.Assumed (l.foldl (fun s lit => s.assume (-lit)) s) r l
  := by
  induction l generalizing s with
  | nil => exact ⟨h, Reorders.refl s, List.prefix_refl _, List.forall_mem_nil _, fun _ hσ _ => hσ⟩
  | cons lit l ih =>
      have hstep : (s.assume (-lit)).Ready r ∧ s.Reorders (s.assume (-lit))
          ∧ s.trail <+: (s.assume (-lit)).trail ∧ -lit ∈ (s.assume (-lit)).trail
          ∧ (∀ y ∈ (s.assume (-lit)).trail, y ∈ s.trail ∨ y = -lit)
          ∧ ∀ σ, s.Holds σ → σ.value (-lit) = true → (s.assume (-lit)).Holds σ := by
        rw [assume]
        split
        · next hval =>
            exact ⟨h, Reorders.refl s, List.prefix_refl _, (vals_pos_iff _ _).mp hval,
              fun y hy => Or.inl hy, fun σ hσ _ => hσ⟩
        · next hval =>
            have hunassigned : s.val (-lit) = 0 := by
              apply (vals_eq_zero_iff _ _).mpr
              rw [Lit.neg_neg]
              exact ⟨fun hmem => hval ((vals_pos_iff _ _).mpr hmem), htrail lit List.mem_cons_self⟩
            refine ⟨h.assign ⟨hunassigned, ?_⟩, s.reorders_with s.watchers _ s.nextToPropagate,
              List.prefix_append _ _, List.mem_append_right _ (List.mem_singleton_self _), ?_, ?_⟩
            · rw [Lit.vidx_neg]
              exact hlt lit List.mem_cons_self
            · intro y hy
              exact (List.mem_append.mp hy).imp_right List.mem_singleton.mp
            · intro σ hσ hlit
              refine ⟨hσ.clauses, ?_⟩
              intro y hy
              obtain hy | hy := List.mem_append.mp hy
              · exact hσ.trail y hy
              · rwa [List.mem_singleton.mp hy]
      rw [List.foldl_cons]
      generalize s.assume (-lit) = s' at hstep
      obtain ⟨hready, hreorders, hprefix, hmem, hnew, hholds⟩ := hstep
      obtain ⟨hready', hreorders', hprefix', hmem', hholds'⟩ := ih hready
        (by
          intro k hk hkmem
          obtain hkmem | rfl := hnew k hkmem
          · exact htrail k (List.mem_cons_of_mem lit hk) hkmem
          · exact hneg lit List.mem_cons_self (List.mem_cons_of_mem lit hk))
        (fun k hk hkneg => hneg k (List.mem_cons_of_mem lit hk) (List.mem_cons_of_mem lit hkneg))
        (fun k hk => by
          rw [hreorders.sizeVars]
          exact hlt k (List.mem_cons_of_mem lit hk))
      refine ⟨hready', hreorders.trans hreorders', hprefix.trans hprefix', ?_, ?_⟩
      · intro k hk
        obtain rfl | hk := List.mem_cons.mp hk
        · exact hprefix'.subset hmem
        · exact hmem' k hk
      · intro σ hσ hall
        apply hholds' σ (hholds σ hσ (hall lit List.mem_cons_self))
        exact fun k hk => hall k (List.mem_cons_of_mem lit hk)

/-- The literals that propagation has reached without a conflict: a clause of the table has a
literal among them, or two literals whose complements are not. -/
structure Open (s : Checker) (l : List Lit) (T : Lit → Prop) : Prop where
  consistent : ∀ x, T x → ¬ T (-x)
  trail : ∀ x ∈ s.trail, T x
  assumed : ∀ k ∈ l, T (-k)
  clause : ∀ c, s.Stored c → (∃ x ∈ s.lits c, T x)
    ∨ ∃ k ∈ s.lits c, ∃ x ∈ s.lits c, k ≠ x ∧ ¬ T (-k) ∧ ¬ T (-x)

/-- What a check does: the trail is restored, an accepted clause follows, and a clause that is not
accepted leaves some clauses open. -/
structure Checked (s : Checker) (l : List Lit) (res : Bool) (s' : Checker) : Prop where
  inv : s'.Inv
  reorders : s.Reorders s'
  trail : s'.trail = s.trail
  holds : ∀ σ, s.Holds σ → s'.Holds σ
  sound : res = true → ∀ σ, s.Holds σ → Clause.Sat σ l
  complete : res = false → ∃ T, s.Open l T

/-- The check of a simplified clause ends, and it succeeds only if the clause follows. -/
theorem Inv.check (h : s.Inv) (hinconsistent : s.inconsistent = false) (hl : s.Simplified c l)
    (hlt : ∀ k ∈ l, k.vidx < s.sizeVars) :
  ∃ res s', s.check l = some (res, s') ∧ s.Checked l res s'
  := by
  have hassumed := h.toReady.assume_all hl.not_mem_trail hl.neg_not_mem hlt
  rw [Checker.check, if_neg (by rw [hinconsistent]; decide)]
  generalize l.foldl (fun s lit => s.assume (-lit)) s = s₁ at hassumed
  obtain ⟨res, s₂, hpropagate, hresult⟩ := hassumed.ready.propagate
  rw [hpropagate]
  have hreorders := hassumed.reorders.trans hresult.extends_.reorders
  have hprefix := hassumed.trail.trans hresult.extends_.trail
  have htrail : s₂.trail.take s.nextToPropagate = s.trail := by
    rw [h.next]
    exact (List.prefix_iff_eq_take.mp hprefix).symm
  have hbacktrack := s₂.reorders_with s₂.watchers (s₂.trail.take s.nextToPropagate)
    s.nextToPropagate
  refine ⟨!res, s₂.backtrack s.nextToPropagate, rfl, ?_, hreorders.trans hbacktrack, htrail, ?_,
    ?_, ?_⟩
  · have hroot : (s₂.backtrack s.nextToPropagate).Settled s.trail.length s.trail.length := by
      have hroot := hresult.propagating.root
      intro d hd k hk hneg
      change -k ∈ (s₂.trail.take s.nextToPropagate).take s.trail.length at hneg
      change ∃ x ∈ s₂.lits d, x ∈ (s₂.trail.take s.nextToPropagate).take s.trail.length
      rw [h.next, List.take_take, min_self] at hneg ⊢
      exact hroot d hd k hk hneg
    have heq : (s₂.backtrack s.nextToPropagate).trail = s.trail := htrail
    have hnext : (s₂.backtrack s.nextToPropagate).nextToPropagate = s.trail.length := h.next
    refine ⟨⟨⟨hbacktrack.wfTable hresult.propagating.table, ⟨?_, ?_, ?_, ?_⟩, ?_,
      hresult.propagating.watches, ?_⟩, ?_⟩, ?_⟩
    · rw [heq]
      exact h.trail.nodup
    · rw [heq]
      exact h.trail.neg_not_mem
    · rw [heq]
      intro x hx
      exact hreorders.sizeVars ▸ h.trail.vidx_lt x hx
    · rw [heq, hnext]
    · rw [heq, hnext]
    · rw [heq]
      exact hroot
    · rw [heq, hnext]
      exact hroot
    · rw [heq, hnext]
  · intro σ hσ
    refine ⟨?_, ?_⟩
    · intro d hd
      obtain ⟨k, hk, hval⟩ := hσ.clauses d ((hreorders.allocated d).mp hd)
      exact ⟨k, (hreorders.lits d).symm.subset hk, hval⟩
    · intro x hx
      apply hσ.trail x
      rwa [← htrail]
  · intro hres σ hσ
    by_contra hsat
    rw [Clause.not_sat_iff] at hsat
    apply hresult.conflict (by simpa using hres) σ
    apply hassumed.holds σ hσ
    intro k hk
    rw [show -k = Literal.neg k from rfl, Assignment.value_neg, hsat k hk]
    rfl
  · intro hres
    obtain ⟨-, hsettled⟩ := hresult.settled (by simpa using hres)
    rw [Settled, List.take_length] at hsettled
    refine ⟨(· ∈ s₂.trail), hresult.propagating.trail.neg_not_mem, fun x hx => hprefix.subset hx,
      fun k hk => hresult.extends_.trail.subset (hassumed.mem k hk), ?_⟩
    intro d hd
    have hd₂ := (hreorders.stored d).mpr hd
    have hlits {x : Lit} : x ∈ s₂.lits d ↔ x ∈ s.lits d := (hreorders.lits d).mem_iff
    have hlength := h.table.length d (h.table.stored_lt hd)
    have hnodup := h.table.lits_nodup d (h.table.stored_lt hd)
    rw [← (hreorders.lits d).length_eq] at hlength
    rw [← (hreorders.lits d).nodup_iff] at hnodup
    by_cases htrue : ∃ x ∈ s₂.lits d, x ∈ s₂.trail
    · obtain ⟨x, hx, hmem⟩ := htrue
      exact Or.inl ⟨x, hlits.mp hx, hmem⟩
    · right
      have hwatched {k : Lit} (hk : k ∈ (s₂.lits d).take 2) : -k ∉ s₂.trail :=
        fun hneg => htrue (hsettled d hd₂ k hk hneg)
      obtain ⟨a, b, rest, habr⟩ := Cdcl.exists_eq_cons_cons hlength
      rw [habr] at hnodup hwatched hlits
      refine ⟨a, hlits.mp List.mem_cons_self, b,
        hlits.mp (List.mem_cons_of_mem a List.mem_cons_self), ?_, hwatched List.mem_cons_self,
        hwatched (List.mem_cons_of_mem a List.mem_cons_self)⟩
      rintro rfl
      exact (List.nodup_cons.mp hnodup).1 List.mem_cons_self

/-! ### Inserting a clause -/

/-- The watched literals are only moved to the front. -/
theorem perm_watchUnassigned (s : Checker) (l : List Lit) (i : Nat) :
  (s.watchUnassigned l i).Perm l
  := by
  rw [watchUnassigned]
  split
  · rfl
  · split
    · rfl
    · split
      · rfl
      · exact List.swap_perm _ _ _

theorem watchUnassigned_succ (s : Checker) (a : Lit) (l : List Lit) (i : Nat) :
  s.watchUnassigned (a :: l) (i + 1) = a :: s.watchUnassigned l i
  := by
  rw [watchUnassigned, watchUnassigned, List.getElem?_cons_succ]
  cases l[i]? with
  | none => rfl
  | some lit =>
      simp only [List.drop_succ_cons]
      split
      · rfl
      · cases (l.drop (i + 1)).findIdx? (fun other => s.val other = 0) with
        | none => rfl
        | some j =>
            simp only
            rw [Nat.add_right_comm]
            rfl

/-- An unassigned literal is moved to the front, if there is one. -/
theorem watchUnassigned_zero {x : Lit} (hx : x ∈ l) (hval : s.val x = 0) :
  ∃ a rest, s.watchUnassigned l 0 = a :: rest ∧ s.val a = 0
  := by
  obtain _ | ⟨lit, rest⟩ := l
  · cases hx
  · rw [watchUnassigned, List.getElem?_cons_zero]
    simp only
    split
    · next hlit => exact ⟨lit, rest, rfl, hlit⟩
    · next hlit =>
        have hrest : x ∈ rest := by
          obtain rfl | hx := List.mem_cons.mp hx
          · exact absurd hval hlit
          · exact hx
        rw [List.drop_succ_cons, List.drop_zero]
        cases hfind : rest.findIdx? (fun other => s.val other = 0) with
        | none =>
            have hnone := List.findIdx?_eq_none_iff.mp hfind x hrest
            rw [decide_eq_false_iff_not] at hnone
            exact absurd hval hnone
        | some j =>
            obtain ⟨hj, hvalj, -⟩ := List.findIdx?_eq_some_iff_getElem.mp hfind
            refine ⟨rest[j], rest.set j lit, ?_, of_decide_eq_true hvalj⟩
            simp only
            rw [Nat.add_comm (0 + 1) j]
            change rest[j]?.getD lit :: rest.set j lit = _
            rw [List.getElem?_eq_getElem hj]
            rfl

/-- The first two literals of a new clause are unassigned, when two of its literals are. -/
theorem watchUnassigned_twice {x y : Lit} (hx : x ∈ l) (hy : y ∈ l) (hne : x ≠ y)
    (hxval : s.val x = 0) (hyval : s.val y = 0) :
  ∃ a b rest, s.watchUnassigned (s.watchUnassigned l 0) 1 = a :: b :: rest
    ∧ s.val a = 0 ∧ s.val b = 0
  := by
  have hperm := s.perm_watchUnassigned l 0
  obtain ⟨a, rest, ha, haval⟩ := watchUnassigned_zero hx hxval
  rw [ha] at hperm ⊢
  rw [watchUnassigned_succ]
  have hother : ∃ z ∈ rest, s.val z = 0 := by
    have hmem {z : Lit} (hz : z ∈ l) := List.mem_cons.mp (hperm.symm.subset hz)
    obtain rfl | hx := hmem hx
    · exact ⟨y, (hmem hy).resolve_left hne.symm, hyval⟩
    · exact ⟨x, hx, hxval⟩
  obtain ⟨z, hz, hzval⟩ := hother
  obtain ⟨b, rest', hb, hbval⟩ := watchUnassigned_zero hz hzval
  exact ⟨a, b, rest', by rw [hb], haval, hbval⟩

/-- The lists with the two watches of the clause `c`. -/
def watchBoth (watchers : Lit → List CheckerWatch) (l₀ l₁ : Lit) (c size : Nat) :
    Lit → List CheckerWatch :=
  Function.update (Function.update watchers l₀ (watchers l₀ ++ [⟨c, l₁, size⟩])) l₁
    (watchers l₁ ++ [⟨c, l₀, size⟩])

/-- The new clause is watched by its first two literals. -/
theorem newClause_eq (hash : Nat) {l₀ l₁ : Lit} {rest : List Lit}
    (hlits : s.watchUnassigned (s.watchUnassigned l 0) 1 = l₀ :: l₁ :: rest) (hne : l₁ ≠ l₀) :
  s.newClause l hash = { s with
    memory := Function.update s.memory s.numAllocated
      ⟨hash, (l₀ :: l₁ :: rest).length, l₀ :: l₁ :: rest⟩
    numAllocated := s.numAllocated + 1
    numClauses := s.numClauses + 1
    watchers := watchBoth s.watchers l₀ l₁ s.numAllocated (l₀ :: l₁ :: rest).length }
  := by
  rw [newClause]
  simp only [hlits, watch, watchBoth, Function.update_of_ne hne]

/-- A new clause is in the table, with its first two literals watched. -/
theorem inserted_insert (h : s.WfTable) (hl : Sorted l) (hlt : ∀ k ∈ l, k.vidx < s.sizeVars)
    {l₀ l₁ : Lit} {rest : List Lit}
    (hlits : s.watchUnassigned (s.watchUnassigned l 0) 1 = l₀ :: l₁ :: rest) (hne : l₁ ≠ l₀) :
  s.Inserted (s.insert l) l (l₀ :: l₁ :: rest) ∧ (s.insert l).WfTable
    ∧ (s.insert l).watchers
      = watchBoth s.watchers l₀ l₁ s.numAllocated (l₀ :: l₁ :: rest).length
  := by
  have hperm : (l₀ :: l₁ :: rest).Perm l := by
    rw [← hlits]
    exact (s.perm_watchUnassigned _ 1).trans (s.perm_watchUnassigned l 0)
  obtain ⟨s₁, hs₁, htable, hflatten, hload⟩ : ∃ s₁, (if s.numClauses = s.clauses.length then
      s.enlargeClauses else s) = { s with clauses := s₁ } ∧ { s with clauses := s₁ }.WfTable
      ∧ s₁.flatten.Perm s.clauses.flatten ∧ s.numClauses < s₁.length := by
    by_cases hfull : s.numClauses = s.clauses.length
    · obtain ⟨htable, hflatten, hload⟩ := h.enlargeClauses hfull
      exact ⟨_, if_pos hfull, htable, hflatten, hload⟩
    · exact ⟨s.clauses, if_neg hfull, h, List.Perm.refl _, lt_of_le_of_ne h.load hfull⟩
  have heq := newClause_eq (s := { s with clauses := s₁ }) (computeHash l) hlits hne
  rw [insert, hs₁, heq]
  simp only
  have hlinks := links_link (Function.update s.memory s.numAllocated
    ⟨computeHash l, (l₀ :: l₁ :: rest).length, l₀ :: l₁ :: rest⟩) (Nat.zero_lt_of_lt hload)
    s.numAllocated
  generalize hmemory : Function.update s.memory s.numAllocated
    ⟨computeHash l, (l₀ :: l₁ :: rest).length, l₀ :: l₁ :: rest⟩ = memory at hlinks ⊢
  have hinserted : { s with clauses := s₁ }.Inserted { s with
      memory := memory
      numAllocated := s.numAllocated + 1
      numClauses := s.numClauses + 1
      watchers := watchBoth s.watchers l₀ l₁ s.numAllocated (l₀ :: l₁ :: rest).length
      clauses := link memory s₁ s.numAllocated } l (l₀ :: l₁ :: rest) :=
    ⟨rfl, rfl, rfl, rfl, rfl, rfl, hmemory.symm, hlinks.flatten⟩
  refine ⟨⟨rfl, rfl, rfl, rfl, rfl, rfl, hmemory.symm, hlinks.flatten.trans (hflatten.cons _)⟩, ?_,
    trivial⟩
  apply hinserted.wfTable htable hl hperm _ hlt _ rfl rfl
  · change s.numClauses + 1 ≤ (link memory s₁ s.numAllocated).length
    rw [hlinks.length]
    exact hload
  · rw [← hperm.length_eq]
    exact Nat.le_add_left _ _
  · apply hlinks.hashed
    intro i c hc
    have hlt := htable.stored_lt (Chains.mem_flatten_of_mem_getD hc)
    have hold := htable.hashed i c hc
    rw [index] at hold ⊢
    rwa [← hmemory, Function.update_of_ne (Nat.ne_of_lt hlt)]

/-- The new clause is the only one that has been allocated. -/
theorem Inserted.allocated {s' : Checker} {literals : List Lit} (h : s.Inserted s' l literals)
    (c : Nat) :
  s'.Allocated c ↔ c = s.numAllocated ∨ s.Allocated c
  := by
  rw [Allocated, h.garbage, List.mem_append, h.flatten.mem_iff, List.mem_cons, or_assoc,
    ← List.mem_append]
  rfl

/-- The first two literals of the new clause are unassigned. -/
theorem Inv.inserted {s' : Checker} {l₀ l₁ : Lit} {rest : List Lit} (h : s.Inv)
    (hs' : s.Inserted s' l (l₀ :: l₁ :: rest)) (htable : s'.WfTable)
    (hwatchers : s'.watchers
      = watchBoth s.watchers l₀ l₁ s.numAllocated (l₀ :: l₁ :: rest).length)
    (hne : l₀ ≠ l₁) (hl₀ : s.val l₀ = 0) (hl₁ : s.val l₁ = 0) :
  s'.Inv
  := by
  have hnew : ¬ s.Allocated s.numAllocated :=
    fun hmem => Nat.lt_irrefl _ (h.table.allocated_lt hmem)
  have hold {c : Nat} (hc : s.Allocated c) : s'.lits c = s.lits c :=
    hs'.lits_of_ne (fun heq => hnew (heq ▸ hc))
  have hsettled {n m : Nat} (hs : s.Settled n m) : s'.Settled n m := by
    intro c hc k hk hneg
    rw [hs'.trail] at hneg ⊢
    obtain rfl | hc := (hs'.stored c).mp hc
    · rw [hs'.lits_self] at hk
      have hmem := List.mem_of_mem_take hneg
      obtain rfl | hk := List.mem_cons.mp hk
      · exact absurd hmem ((vals_eq_zero_iff _ _).mp hl₀).2
      · rw [List.mem_singleton.mp hk] at hmem
        exact absurd hmem ((vals_eq_zero_iff _ _).mp hl₁).2
    · rw [hold (List.mem_append_left _ hc)] at hk ⊢
      exact hs c hc k hk hneg
  refine ⟨⟨⟨htable, ⟨?_, ?_, ?_, ?_⟩, ?_, ?_, ?_⟩, ?_⟩, ?_⟩
  · rw [hs'.trail]
    exact h.trail.nodup
  · rw [hs'.trail]
    exact h.trail.neg_not_mem
  · rw [hs'.trail, hs'.sizeVars]
    exact h.trail.vidx_lt
  · rw [hs'.trail, hs'.nextToPropagate]
    exact h.trail.next_le
  · rw [hs'.trail, hs'.nextToPropagate]
    exact h.root_le
  · have hwatches : WatchTable s'.lits s.Allocated s.Stored s.watchers :=
      h.watches.congr (fun c hc => hold hc) (fun _ => id) (fun _ => id)
    have hboth : WatchTable s'.lits s'.Allocated s'.Stored _ :=
      hwatches.watchClause hs'.lits_self hne hnew
        (fun c hc => (hs'.allocated c).mpr (Or.inr hc)) ((hs'.allocated _).mpr (Or.inl rfl))
        (fun c hc => (hs'.stored c).mp hc)
    rw [hs'.lits_self] at hboth
    rw [hwatchers]
    exact hboth
  · rw [hs'.trail]
    exact hsettled h.root
  · rw [hs'.trail, hs'.nextToPropagate]
    exact hsettled h.settled
  · rw [hs'.trail, hs'.nextToPropagate]
    exact h.next

/-! ### Adding a clause -/

/-- What the addition of the clause `c` does: clauses that are not satisfied are stored as often as
before, and `c` once more. -/
structure Added (s s' : Checker) (c : List Lit) : Prop where
  inv : s'.inconsistent = false → s'.Inv
  trail : s.trail <+: s'.trail
  count : s'.inconsistent = false → ∀ d : List Lit, (∀ k ∈ d, k ∉ s'.trail) →
    s'.count d = s.count d + if c.toFinset = d.toFinset then 1 else 0
  holds : ∀ σ, s.Holds σ → Clause.Sat σ c → s'.inconsistent = false ∧ s'.Holds σ

/-- Without a conflict everything has been propagated. -/
theorem Result.inv {r : Nat} {s' : Checker} (h : s.Result r true s') :
  s'.Inv
  := by
  obtain ⟨hnext, hsettled⟩ := h.settled rfl
  refine ⟨⟨⟨h.propagating.table, h.propagating.trail, hnext.ge, h.propagating.watches, hsettled⟩, ?_⟩,
    hnext⟩
  rw [hnext]
  exact hsettled

/-- A clause all of whose literals are false on the trail is not satisfied. -/
theorem not_sat_of_false {σ : Assignment Nat} (hσ : s.Holds σ) (hfalse : ∀ k ∈ l, -k ∈ s.trail) :
  ¬ Clause.Sat σ l
  := by
  rw [Clause.not_sat_iff]
  intro k hk
  have hneg := hσ.trail (-k) (hfalse k hk)
  rwa [show -k = Literal.neg k from rfl, Assignment.value_neg, Bool.not_eq_true'] at hneg

/-- The only literal of the clause that is not false is put on the trail. -/
theorem Inv.add_unit (h : s.Inv) (hinconsistent : s.inconsistent = false) {unit : Lit}
    (hunit : s.Assignable unit) (hmem : unit ∈ l) (hfalse : ∀ k ∈ l, k ≠ unit → -k ∈ s.trail) :
  ∃ res s', (s.assign unit).propagate = some (res, s')
    ∧ s.Added (if res then s' else { s' with inconsistent := true }) l
  := by
  obtain ⟨res, s', heq, hresult⟩ := (h.toReady.assign hunit).propagate
  refine ⟨res, s', heq, ?_⟩
  have hreorders := (s.reorders_with s.watchers (s.trail ++ [unit]) s.nextToPropagate).trans
    hresult.extends_.reorders
  have htrail : s.trail ++ [unit] <+: s'.trail := hresult.extends_.trail
  have hassign {σ : Assignment Nat} (hσ : s.Holds σ) (hsat : Clause.Sat σ l) :
      (s.assign unit).Holds σ := by
    refine ⟨hσ.clauses, ?_⟩
    intro x hx
    obtain hx | hx := List.mem_append.mp hx
    · exact hσ.trail x hx
    · rw [List.mem_singleton.mp hx]
      obtain ⟨k, hk, hval⟩ := hsat
      by_cases hku : k = unit
      · rwa [← hku]
      · have hneg := hσ.trail (-k) (hfalse k hk hku)
        rw [show -k = Literal.neg k from rfl, Assignment.value_neg, hval] at hneg
        cases hneg
  cases res with
  | true =>
      refine ⟨fun _ => hresult.inv, (List.prefix_append _ _).trans htrail, ?_, ?_⟩
      · intro _ d hd
        have hunsat : l.toFinset ≠ d.toFinset := by
          intro hsame
          apply hd unit
          · rwa [← List.mem_toFinset, ← hsame, List.mem_toFinset]
          · exact htrail.subset (List.mem_append_right _ (List.mem_singleton_self _))
        rw [if_neg hunsat, Nat.add_zero]
        exact hreorders.count d
      · intro σ hσ hsat
        exact ⟨hreorders.inconsistent.trans hinconsistent, hresult.extends_.holds σ (hassign hσ hsat)⟩
  | false =>
      refine ⟨nofun, (List.prefix_append _ _).trans htrail, nofun, ?_⟩
      intro σ hσ hsat
      exact absurd (hassign hσ hsat) (hresult.conflict rfl σ)

/-- Adding a simplified clause keeps the invariant. -/
theorem Inv.addClause (h : s.Inv) (hinconsistent : s.inconsistent = false)
    (hl : s.Simplified c l) (hlt : ∀ k ∈ l, k.vidx < s.sizeVars) :
  ∃ s', s.addClause l = some s' ∧ s.Added s' l
  := by
  have hnotfalse {k : Lit} (hk : k ∈ l) (hval : ¬ s.val k < 0) : s.val k = 0 := by
    have hle : ¬ 0 < s.val k := fun hpos => hl.not_mem_trail k hk ((vals_pos_iff _ _).mp hpos)
    omega
  have hfalse {k : Lit} (hk : k ∈ l) (hnot : k ∉ l.filter (fun lit => ¬ s.val lit < 0)) :
      -k ∈ s.trail := by
    by_contra hmem
    apply hnot
    apply List.mem_filter.mpr
    refine ⟨hk, ?_⟩
    rw [decide_eq_true_eq]
    exact fun hneg => hmem ((vals_neg_iff _ _).mp hneg).2
  have hsome {k : Lit} (hk : k ∈ l.filter (fun lit => ¬ s.val lit < 0)) :
      k ∈ l ∧ s.val k = 0 := by
    obtain ⟨hk, hval⟩ := List.mem_filter.mp hk
    exact ⟨hk, hnotfalse hk (of_decide_eq_true hval)⟩
  have hnodup := hl.sorted.nodup.filter (fun lit => ¬ s.val lit < 0)
  rw [Checker.addClause]
  generalize l.filter (fun lit => ¬ s.val lit < 0) = free at hfalse hsome hnodup
  obtain _ | ⟨x, _ | ⟨y, free⟩⟩ := free
  · refine ⟨_, rfl, nofun, List.prefix_refl _, nofun, ?_⟩
    intro σ hσ hsat
    exact absurd hsat (not_sat_of_false hσ (fun k hk => hfalse hk List.not_mem_nil))
  · obtain ⟨hx, hval⟩ := hsome List.mem_cons_self
    obtain ⟨res, s', heq, hadded⟩ := h.add_unit hinconsistent ⟨hval, hlt x hx⟩ hx
      (fun k hk hne => hfalse hk (fun hmem => hne (List.mem_singleton.mp hmem)))
    refine ⟨_, ?_, hadded⟩
    simp only [heq]
  · obtain ⟨hx, hxval⟩ := hsome List.mem_cons_self
    obtain ⟨hy, hyval⟩ := hsome (List.mem_cons_of_mem x List.mem_cons_self)
    have hxy : x ≠ y := by
      rintro rfl
      exact (List.nodup_cons.mp hnodup).1 List.mem_cons_self
    obtain ⟨l₀, l₁, rest, hlits, hl₀, hl₁⟩ := watchUnassigned_twice hx hy hxy hxval hyval
    have hperm : (l₀ :: l₁ :: rest).Perm l := by
      rw [← hlits]
      exact (s.perm_watchUnassigned _ 1).trans (s.perm_watchUnassigned l 0)
    have hne : l₀ ≠ l₁ := by
      rintro rfl
      exact (List.nodup_cons.mp (hperm.nodup_iff.mpr hl.sorted.nodup)).1 List.mem_cons_self
    obtain ⟨hinserted, htable, hwatchers⟩ :=
      inserted_insert h.table hl.sorted hlt hlits hne.symm
    refine ⟨_, rfl, ?_⟩
    generalize s.insert l = s' at hinserted htable hwatchers
    refine ⟨fun _ => h.inserted hinserted htable hwatchers hne hl₀ hl₁, ?_, ?_, ?_⟩
    · rw [hinserted.trail]
    · intro _ d _
      rw [hinserted.count h.table, List.toFinset_eq_of_perm _ _ hperm]
    · intro σ hσ hsat
      refine ⟨hinserted.inconsistent.trans hinconsistent, ?_, ?_⟩
      · intro d hd
        obtain rfl | hd := (hinserted.allocated d).mp hd
        · rw [hinserted.lits_self]
          obtain ⟨k, hk, hval⟩ := hsat
          exact ⟨k, hperm.symm.subset hk, hval⟩
        · rw [hinserted.lits_of_ne (Nat.ne_of_lt (h.table.allocated_lt hd))]
          exact hσ.clauses d hd
      · rw [hinserted.trail]
        exact hσ.trail

/-! ### Deleting clauses -/

/-- The clauses of the list become garbage, all others stay. -/
theorem foldl_markGarbage (memory : Nat → CheckerClause) (cs : List Nat) (c : Nat) :
  cs.foldl markGarbage memory c = if c ∈ cs then { memory c with size := 0 } else memory c
  := by
  induction cs generalizing memory with
  | nil => rfl
  | cons d cs ih =>
      rw [List.foldl_cons, ih, markGarbage]
      by_cases hcd : c = d
      · subst hcd
        rw [Function.update_self, if_pos List.mem_cons_self]
        split <;> rfl
      · rw [Function.update_of_ne hcd]
        simp only [List.mem_cons, hcd, false_or]

/-- A clause with the literals `same` has left the table, and perhaps satisfied ones. -/
structure Removed (s s' : Checker) (same : Finset Lit) : Prop where
  inv : s'.Inv
  inconsistent : s'.inconsistent = s.inconsistent
  trail : s'.trail = s.trail
  count : ∀ d : List Lit, (∀ k ∈ d, k ∉ s.trail) →
    s.count d = s'.count d + if same = d.toFinset then 1 else 0
  holds : ∀ σ, s.Holds σ → s'.Holds σ

/-- A clause is satisfied if one of its literals is on the trail. -/
theorem clauseSatisfied_iff (s : Checker) (c : Nat) :
  s.clauseSatisfied c = true ↔ ∃ k ∈ s.lits c, k ∈ s.trail
  := by
  rw [clauseSatisfied, List.any_eq_true]
  simp only [decide_eq_true_eq, gt_iff_lt]
  exact exists_congr (fun k => and_congr_right (fun _ => vals_pos_iff s.trail k))

/-- The table after clauses have been removed from it. -/
theorem WfTable.removed {s' : Checker} (h : s.WfTable) (hvars : s'.sizeVars = s.sizeVars)
    (hnum : s'.numAllocated = s.numAllocated) (hlits : ∀ c, s'.lits c = s.lits c)
    (hhash : ∀ c, (s'.memory c).hash = (s.memory c).hash)
    (hlength : s'.clauses.length = s.clauses.length)
    (hhashed : Chains.Hashed (index s.memory s.clauses.length) s'.clauses)
    (hnodup : (s'.clauses.flatten ++ s'.garbage).Nodup)
    (hsub : s'.clauses.flatten ++ s'.garbage ⊆ s.clauses.flatten ++ s.garbage)
    (hclauses : s'.numClauses = s'.clauses.flatten.length)
    (hgarbage : s'.numGarbage = s'.garbage.length) (hle : s'.numClauses ≤ s.numClauses)
    (hsize : ∀ c ∈ s'.clauses.flatten, s.Stored c ∧ s'.memory c = s.memory c)
    (hzero : ∀ c ∈ s'.garbage, (s'.memory c).size = 0) :
  s'.WfTable
  where
    hashed := by
      have hindex : index s'.memory s'.clauses.length = index s.memory s.clauses.length := by
        funext c
        rw [index, index, hhash, hlength]
      rw [hindex]
      exact hhashed
    nodup := hnodup
    lt := by
      rw [hnum]
      exact fun c hc => h.lt c (hsub hc)
    numClauses := hclauses
    numGarbage := hgarbage
    load := by
      rw [hlength]
      exact hle.trans h.load
    length := by
      intro c hc
      rw [hlits]
      exact h.length c (hnum ▸ hc)
    lits_nodup := by
      intro c hc
      rw [hlits]
      exact h.lits_nodup c (hnum ▸ hc)
    vidx_lt := by
      intro c hc
      rw [hlits, hvars]
      exact h.vidx_lt c (hnum ▸ hc)
    hash := by
      intro c hc
      rw [hlits, hhash]
      exact h.hash c (hnum ▸ hc)
    size := by
      intro c hc
      obtain ⟨hstored, hmemory⟩ := hsize c hc
      rw [hlits, hmemory]
      exact h.size c hstored
    garbage := hzero

/-- Trail and literals are the same, and fewer clauses are stored. -/
theorem Inv.removed {s' : Checker} (h : s.Inv) (htable : s'.WfTable)
    (hvars : s'.sizeVars = s.sizeVars) (htrail : s'.trail = s.trail)
    (hnext : s'.nextToPropagate = s.nextToPropagate) (hlits : ∀ c, s'.lits c = s.lits c)
    (hstored : ∀ c, s'.Stored c → s.Stored c) (hwatches : s'.WfWatches s'.watchers) :
  s'.Inv
  := by
  have hsettled {n m : Nat} (hs : s.Settled n m) : s'.Settled n m := by
    intro c hc k hk hneg
    rw [htrail] at hneg ⊢
    rw [hlits] at hk ⊢
    exact hs c (hstored c hc) k hk hneg
  refine ⟨⟨⟨htable, ⟨?_, ?_, ?_, ?_⟩, ?_, hwatches, ?_⟩, ?_⟩, ?_⟩
  · rw [htrail]
    exact h.trail.nodup
  · rw [htrail]
    exact h.trail.neg_not_mem
  · rw [htrail, hvars]
    exact h.trail.vidx_lt
  · rw [htrail, hnext]
    exact h.trail.next_le
  · rw [htrail, hnext]
    exact h.root_le
  · rw [htrail]
    exact hsettled h.root
  · rw [htrail, hnext]
    exact hsettled h.settled
  · rw [htrail, hnext]
    exact h.next

/-- The clauses that are satisfied on root level have other literals than one that is not. -/
theorem countP_unsatisfied (s : Checker) {d : List Lit} (hd : ∀ k ∈ d, k ∉ s.trail) :
  (s.clauses.flatten.filter (fun c => ¬ s.clauseSatisfied c)).countP
      (fun c => (s.lits c).toFinset = d.toFinset) = s.count d
  := by
  rw [count, List.countP_filter]
  apply List.countP_congr
  intro c _
  rw [Bool.and_eq_true, decide_eq_true_eq, decide_eq_true_eq]
  apply and_iff_left_of_imp
  intro hsame hsat
  obtain ⟨k, hk, htrail⟩ := (s.clauseSatisfied_iff c).mp hsat
  apply hd k _ htrail
  rwa [← List.mem_toFinset, ← hsame, List.mem_toFinset]

/-- Collecting garbage keeps the invariant and what holds, and it loses no clause without a literal
on the trail. -/
theorem Inv.collectGarbageClauses (h : s.Inv) :
  s.collectGarbageClauses.Inv ∧ (∀ d : List Lit, (∀ k ∈ d, k ∉ s.trail) →
      s.collectGarbageClauses.count d = s.count d)
    ∧ ∀ σ, s.Holds σ → s.collectGarbageClauses.Holds σ
  := by
  have hmemory := foldl_markGarbage s.memory (s.clauses.flatten.filter s.clauseSatisfied)
  have hlength := List.length_eq_length_filter_add (l := s.clauses.flatten) s.clauseSatisfied
  rw [Checker.collectGarbageClauses]
  generalize (s.clauses.flatten.filter s.clauseSatisfied).foldl markGarbage s.memory = memory
    at hmemory ⊢
  have hlits : ∀ c, (memory c).literals = s.lits c := by
    intro c
    rw [hmemory]
    split <;> rfl
  have hhash : ∀ c, (memory c).hash = (s.memory c).hash := by
    intro c
    rw [hmemory]
    split <;> rfl
  have hflatten := Chains.flatten_map_filter s.clauses (fun c => ¬ s.clauseSatisfied c)
  have hmem {c : Nat} : c ∈ s.clauses.flatten.filter (fun c => ¬ s.clauseSatisfied c)
      ↔ s.Stored c ∧ ¬ s.clauseSatisfied c = true := by
    rw [List.mem_filter, decide_eq_true_eq]
    rfl
  have hsame {c : Nat} (hc : ¬ s.clauseSatisfied c = true) : memory c = s.memory c := by
    rw [hmemory, if_neg (fun hmem => hc (List.mem_filter.mp hmem).2)]
  have hcount : (s.clauses.flatten.filter (fun c => ¬ s.clauseSatisfied c)).length
      = s.numClauses - (s.clauses.flatten.filter s.clauseSatisfied).length := by
    have heq : s.clauses.flatten.filter (fun c => ¬ s.clauseSatisfied c)
        = s.clauses.flatten.filter (fun c => !s.clauseSatisfied c) := by
      congr 1
      funext c
      cases s.clauseSatisfied c <;> rfl
    rw [heq, h.table.numClauses]
    omega
  refine ⟨?_, ?_, ?_⟩
  · refine h.removed ?_ rfl rfl rfl hlits ?_ ?_
    rotate_left
    · intro c hc
      rw [Stored, hflatten, hmem] at hc
      exact hc.1
    · have hstored {c : Nat} (hc : c ∈ (s.clauses.map (fun chain =>
          chain.filter (fun c => ¬ s.clauseSatisfied c))).flatten) :
          s.Stored c ∧ ¬ s.clauseSatisfied c = true := by
        rwa [hflatten, hmem] at hc
      have hwatches : WatchTable (fun c => (memory c).literals) s.Allocated s.Stored s.watchers :=
        h.watches.congr (fun c _ => hlits c) (fun _ => id) (fun _ => id)
      apply hwatches.remove
      · exact fun k => List.filter_sublist
      · intro k v hv
        obtain ⟨hv, hsize⟩ := List.mem_filter.mp hv
        rw [decide_eq_true_eq, hmemory] at hsize
        apply List.mem_append_left
        rw [hflatten, hmem]
        obtain hclause | hclause := List.mem_append.mp (h.watches.clause k v hv)
        · refine ⟨hclause, ?_⟩
          intro hsat
          rw [if_pos (List.mem_filter.mpr ⟨hclause, hsat⟩)] at hsize
          exact hsize rfl
        · have hzero := h.table.garbage v.clause hclause
          split at hsize
          · exact absurd rfl hsize
          · exact absurd hzero hsize
      · exact fun c hc => ⟨(hstored hc).1, List.mem_append_left _ hc⟩
      · intro k v hv hc
        apply List.mem_filter.mpr
        refine ⟨hv, ?_⟩
        obtain ⟨hc, hsat⟩ := hstored hc
        rw [decide_eq_true_eq, hsame hsat, h.table.size _ hc]
        have hle := h.table.length _ (h.table.stored_lt hc)
        omega
    · refine h.table.removed rfl rfl hlits hhash (List.length_map _)
        (h.table.hashed.map_filter _) ?_ ?_ ?_ ?_ ?_ ?_ ?_
      · rw [List.append_nil, hflatten]
        exact (List.nodup_append'.mp h.table.nodup).1.filter _
      · rw [List.append_nil, hflatten]
        exact fun c hc => List.mem_append_left _ (List.mem_of_mem_filter hc)
      · rw [hflatten]
        exact hcount.symm
      · simp only [List.length_append, List.length_reverse, List.length_nil, h.table.numGarbage]
        omega
      · exact Nat.sub_le _ _
      · intro c hc
        rw [hflatten, hmem] at hc
        exact ⟨hc.1, hsame hc.2⟩
      · exact List.forall_mem_nil _
  · intro d hd
    rw [← s.countP_unsatisfied hd, count, hflatten]
    congr 1
    funext c
    change decide ((memory c).literals.toFinset = _) = _
    rw [hlits]
  · intro σ hσ
    refine ⟨?_, hσ.trail⟩
    intro c hc
    rw [Allocated, List.append_nil, hflatten, hmem] at hc
    change Clause.Sat σ (memory c).literals
    rw [hlits]
    exact hσ.clauses c (List.mem_append_left _ hc.1)

theorem markGarbage_literals (memory : Nat → CheckerClause) (d c : Nat) :
  (markGarbage memory d c).literals = (memory c).literals
  := by
  rw [markGarbage, Function.update_apply]
  split
  · next heq => rw [heq]
  · rfl

theorem markGarbage_hash (memory : Nat → CheckerClause) (d c : Nat) :
  (markGarbage memory d c).hash = (memory c).hash
  := by
  rw [markGarbage, Function.update_apply]
  split
  · next heq => rw [heq]
  · rfl

/-- A stored clause becomes garbage. -/
theorem Inv.removeClause (h : s.Inv) {i d : Nat} (hi : i < s.clauses.length)
    (hd : d ∈ s.clauses.getD i []) :
  s.Removed (s.removeClause i d) (s.lits d).toFinset
  := by
  have hflatten := Chains.flatten_modify_erase hd
  have hstored : s.Stored d := Chains.mem_flatten_of_mem_getD hd
  have hlits : ∀ c, (markGarbage s.memory d c).literals = s.lits c := markGarbage_literals s.memory d
  have hperm : ((s.clauses.modify i (fun chain => chain.erase d)).flatten ++ d :: s.garbage).Perm
      (s.clauses.flatten ++ s.garbage) :=
    List.perm_middle.trans (hflatten.append_right s.garbage)
  have hnodup : (d :: (s.clauses.modify i (fun chain => chain.erase d)).flatten).Nodup :=
    hflatten.nodup_iff.mpr (List.nodup_append'.mp h.table.nodup).1
  have hmem {c : Nat} (hc : c ∈ (s.clauses.modify i (fun chain => chain.erase d)).flatten) :
      s.Stored c := hflatten.subset (List.mem_cons_of_mem d hc)
  have hlength := hflatten.length_eq
  rw [List.length_cons] at hlength
  have htable : (s.removeClause i d).WfTable := by
    refine h.table.removed rfl rfl hlits (markGarbage_hash s.memory d) (List.length_modify _ _ _)
      (h.table.hashed.modify_erase hi d) (hperm.nodup_iff.mpr h.table.nodup) hperm.subset ?_ ?_
      (Nat.sub_le _ _) ?_ ?_
    · change s.numClauses - 1 = _
      rw [h.table.numClauses, ← hlength, Nat.add_sub_cancel]
      rfl
    · change s.numGarbage + 1 = (d :: s.garbage).length
      rw [List.length_cons, h.table.numGarbage]
    · intro c hc
      refine ⟨hmem hc, ?_⟩
      apply Function.update_of_ne
      rintro rfl
      exact (List.nodup_cons.mp hnodup).1 hc
    · intro c hc
      change (markGarbage s.memory d c).size = 0
      rw [markGarbage, Function.update_apply]
      split
      · rfl
      · next hne =>
          apply h.table.garbage c
          exact (List.mem_cons.mp hc).resolve_left hne
  refine ⟨?_, rfl, rfl, ?_, ?_⟩
  · refine h.removed htable rfl rfl rfl hlits (fun c hc => hmem hc) ?_
    exact h.watches.congr (fun c _ => hlits c) (fun c hc => hperm.symm.subset hc)
      (fun c hc => hmem hc)
  · intro c _
    have hcount : (s.removeClause i d).count c
        = (s.clauses.modify i (fun chain => chain.erase d)).flatten.countP
          (fun d => (s.lits d).toFinset = c.toFinset) := by
      rw [count]
      congr 1
      funext e
      rw [show (s.removeClause i d).lits e = s.lits e from hlits e]
    rw [hcount, count, ← hflatten.countP_eq, List.countP_cons]
    simp only [decide_eq_true_eq]
  · intro σ hσ
    refine ⟨?_, hσ.trail⟩
    intro c hc
    change Clause.Sat σ (markGarbage s.memory d c).literals
    rw [hlits]
    exact hσ.clauses c (hperm.subset hc)

/-- The capacity of the variables does not matter. -/
theorem Inv.set_sizeVars (h : s.Inv) {n : Nat} (hn : s.sizeVars ≤ n) :
  { s with sizeVars := n }.Inv
  := ⟨⟨⟨h.table.set_sizeVars hn, ⟨h.trail.nodup, h.trail.neg_not_mem,
    fun x hx => (h.trail.vidx_lt x hx).trans_le hn, h.trail.next_le⟩, h.root_le, h.watches, h.root⟩,
    h.settled⟩, h.next⟩

/-- A clause is stored that has the same literals. -/
theorem Inv.delete_simplified (h : s.Inv) (hl : s.Simplified c l) {i : Nat}
    (hindex : reduceHash (computeHash l) s.clauses.length = some i) :
  (∀ d, s.find l (computeHash l) (s.clauses.getD i []) = some d →
      s.Removed (if 2 * (s.removeClause i d).numGarbage
          > max (s.removeClause i d).clauses.length (s.removeClause i d).sizeVars then
        (s.removeClause i d).collectGarbageClauses else s.removeClause i d) c.toFinset)
    ∧ (s.find l (computeHash l) (s.clauses.getD i []) = none → s.count c = 0)
  := by
  constructor
  · intro d hfind
    obtain ⟨hmem, hsame⟩ := h.table.find_some hfind
    obtain ⟨i', hi', -⟩ := Chains.exists_mem_getD (Chains.mem_flatten_of_mem_getD hmem)
    have hpos : 0 < s.clauses.length := Nat.zero_lt_of_lt hi'
    have hremoved := h.removeClause (reduceLoop_lt hpos hindex) hmem
    rw [hsame, hl.same] at hremoved
    generalize s.removeClause i d = s' at hremoved
    split
    · obtain ⟨hinv, hcount, hholds⟩ := hremoved.inv.collectGarbageClauses
      refine ⟨hinv, hremoved.inconsistent, hremoved.trail, ?_,
        fun σ hσ => hholds σ (hremoved.holds σ hσ)⟩
      intro e he
      rw [hremoved.count e he, hcount e (by rwa [hremoved.trail])]
    · exact hremoved
  · intro hfind
    have hzero := h.table.find_none hindex hfind hl.sorted
    rwa [count, hl.same] at hzero

end Checker

end Cadical
