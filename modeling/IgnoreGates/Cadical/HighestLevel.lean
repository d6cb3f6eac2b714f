import IgnoreGates.Cadical.Analyze

/-!
# The highest level of a conflict

The loop of `find_conflict_level` goes over the literals of the conflict once, counts those on
the highest level so far and stops when two literals are on the current level.  It reports a
literal exactly when this is the only one on the highest level, and not on root level.
-/

namespace Cadical

open Logic

namespace Search

variable {s : Search}

/-- The level that the loop computes is an upper bound, and it is the level of a literal unless
it is the one at the beginning. -/
theorem findConflictLoop_level (s : Search) (lits : List Lit)
    (hle : ∀ k ∈ lits, (s.var k).level ≤ s.level) (res : Nat) (forced : Option Lit) (count : Nat) :
  res ≤ (s.findConflictLoop lits res forced count).1
    ∧ (∀ k ∈ lits, (s.var k).level ≤ (s.findConflictLoop lits res forced count).1)
    ∧ ((s.findConflictLoop lits res forced count).1 = res
      ∨ ∃ k ∈ lits, (s.var k).level = (s.findConflictLoop lits res forced count).1)
  := by
  induction lits generalizing res forced count with
  | nil => exact ⟨le_rfl, by simp, Or.inl rfl⟩
  | cons lit lits ih =>
      have hrest := ih (fun k hk => hle k (List.mem_cons_of_mem lit hk))
      rw [findConflictLoop]
      split
      · next hlt =>
          obtain ⟨hres, hall, heq⟩ := hrest (s.var lit).level (some lit) 1
          refine ⟨hlt.le.trans hres, ?_, ?_⟩
          · intro k hk
            obtain rfl | hk := List.mem_cons.mp hk
            · exact hres
            · exact hall k hk
          · right
            obtain heq | ⟨k, hk, heq⟩ := heq
            · exact ⟨lit, List.mem_cons_self, heq.symm⟩
            · exact ⟨k, List.mem_cons_of_mem lit hk, heq⟩
      · next hnot =>
          have hkeep (count : Nat) : res ≤ (s.findConflictLoop lits res forced count).1
              ∧ (∀ k ∈ lit :: lits, (s.var k).level ≤ (s.findConflictLoop lits res forced count).1)
              ∧ ((s.findConflictLoop lits res forced count).1 = res ∨ ∃ k ∈ lit :: lits,
                (s.var k).level = (s.findConflictLoop lits res forced count).1) := by
            obtain ⟨hres, hall, heq⟩ := hrest res forced count
            refine ⟨hres, ?_, ?_⟩
            · intro k hk
              obtain rfl | hk := List.mem_cons.mp hk
              · exact (Nat.not_lt.mp hnot).trans hres
              · exact hall k hk
            · obtain heq | ⟨k, hk, heq⟩ := heq
              · exact Or.inl heq
              · exact Or.inr ⟨k, List.mem_cons_of_mem lit hk, heq⟩
          split
          · split
            · next hcur =>
                refine ⟨le_rfl, ?_, Or.inl rfl⟩
                intro k hk
                rw [hcur.1]
                exact hle k hk
            · exact hkeep (count + 1)
          · exact hkeep count

/-- What the loop has found among the literals `seen`: the highest level, how many literals lie
on it, unless it has stopped counting, and the only one of them, unless it is on root level. -/
structure Counted (s : Search) (seen : List Lit) (r : Nat × Option Lit × Nat) : Prop where
  le : ∀ k ∈ seen, (s.var k).level ≤ r.1
  count : r.2.2 = seen.countP (fun k => (s.var k).level = r.1)
    ∨ 2 ≤ r.2.2 ∧ 2 ≤ seen.countP (fun k => (s.var k).level = r.1)
  forced : r.2.2 = 1 → r.1 = 0 ∨ ∃ x ∈ seen, r.2.1 = some x ∧ (s.var x).level = r.1
  root : r.1 = 0 → r.2.1 = none

/-- The loop goes on from what it has found so far. -/
theorem counted_findConflictLoop (lits seen : List Lit) (res : Nat) (forced : Option Lit)
    (count : Nat) (hle : ∀ k ∈ lits, (s.var k).level ≤ s.level)
    (hres : ∀ k ∈ seen, (s.var k).level ≤ res)
    (hcount : count = seen.countP (fun k => (s.var k).level = res))
    (hzero : count = 0 → res = 0)
    (hforced : count = 1 → res = 0 ∨ ∃ x ∈ seen, forced = some x ∧ (s.var x).level = res)
    (hroot : res = 0 → forced = none) :
  s.Counted (seen ++ lits) (s.findConflictLoop lits res forced count)
  := by
  induction lits generalizing seen res forced count with
  | nil =>
      rw [findConflictLoop, List.append_nil]
      exact ⟨hres, Or.inl hcount, hforced, hroot⟩
  | cons lit lits ih =>
      have hlits : ∀ k ∈ lits, (s.var k).level ≤ s.level := fun k hk =>
        hle k (List.mem_cons_of_mem lit hk)
      have hone (p : Lit → Bool) (hp : p lit = true) :
          (seen ++ [lit]).countP p = seen.countP p + 1 := by
        rw [List.countP_append, List.countP_singleton, if_pos hp]
      rw [findConflictLoop, List.append_cons]
      split
      · next hlt =>
          apply ih _ _ _ _ hlits
          · intro k hk
            obtain hk | hk := List.mem_append.mp hk
            · exact (hres k hk).trans hlt.le
            · rw [List.mem_singleton.mp hk]
          · have hnone : seen.countP (fun k => (s.var k).level = (s.var lit).level) = 0 := by
              rw [List.countP_eq_zero]
              intro k hk
              have hkle := hres k hk
              rw [decide_eq_true_eq]
              omega
            rw [hone _ (decide_eq_true rfl), hnone]
          · exact fun h => absurd h Nat.one_ne_zero
          · intro _
            exact Or.inr ⟨lit, List.mem_append_right _ (List.mem_singleton_self lit), rfl, rfl⟩
          · intro hzero
            exact absurd hlt (by omega)
      · next hnot =>
          have hres' : ∀ k ∈ seen ++ [lit], (s.var k).level ≤ res := by
            intro k hk
            obtain hk | hk := List.mem_append.mp hk
            · exact hres k hk
            · rw [List.mem_singleton.mp hk]
              exact Nat.not_lt.mp hnot
          split
          · next heq =>
              have hplus : count + 1
                  = (seen ++ [lit]).countP (fun k => (s.var k).level = res) := by
                rw [hone _ (decide_eq_true heq), hcount]
              split
              · next hstop =>
                  refine ⟨?_, Or.inr ⟨hstop.2, ?_⟩, fun h => absurd h hstop.2.ne', hroot⟩
                  · intro k hk
                    obtain hk | hk := List.mem_append.mp hk
                    · exact hres' k hk
                    · rw [hstop.1]
                      exact hlits k hk
                  · rw [List.countP_append, ← hplus]
                    exact Nat.le_add_right_of_le hstop.2
              · apply ih _ _ _ _ hlits hres' hplus (fun h => absurd h (Nat.succ_ne_zero count))
                · intro h
                  exact Or.inl (hzero (Nat.succ_injective h))
                · exact hroot
          · next hne =>
              have hsame : count = (seen ++ [lit]).countP (fun k => (s.var k).level = res) := by
                rw [List.countP_append, ← hcount, List.countP_singleton,
                  if_neg (by rwa [decide_eq_true_eq])]
                rfl
              apply ih _ _ _ _ hlits hres' hsame hzero
              · intro h
                obtain hzero | ⟨x, hx, hspec⟩ := hforced h
                · exact Or.inl hzero
                · exact Or.inr ⟨x, List.mem_append_left _ hx, hspec⟩
              · exact hroot

/-- The level of `find_conflict_level` is the highest one. -/
theorem findConflictLevel_le {c : List Lit} (hle : ∀ k ∈ c, (s.var k).level ≤ s.level) :
  (∀ k ∈ c, (s.var k).level ≤ (s.findConflictLevel c).1)
    ∧ ((s.findConflictLevel c).1 = 0 ∨ ∃ k ∈ c, (s.var k).level = (s.findConflictLevel c).1)
  := (findConflictLoop_level s c hle 0 none 0).2

/-! ### The only literal on the highest level -/

variable {c : List Lit} {lit : Lit}

theorem Forces.mem (h : s.Forces c lit) :
  lit ∈ c
  := by
  apply List.mem_of_mem_filter (p := fun k => (s.var lit).level ≤ (s.var k).level)
  rw [h.2]
  exact List.mem_singleton_self lit

/-- No other literal is on the level of the one that is forced, or on a higher one. -/
theorem Forces.eq_of_le (h : s.Forces c lit) {k : Lit} (hk : k ∈ c)
    (hle : (s.var lit).level ≤ (s.var k).level) :
  k = lit
  := by
  rw [← List.mem_singleton, ← h.2, List.mem_filter]
  exact ⟨hk, decide_eq_true hle⟩

/-- The literal that is forced is on the level that `find_conflict_level` computes. -/
theorem Forces.level_eq (h : s.Forces c lit) (hle : ∀ k ∈ c, (s.var k).level ≤ s.level) :
  (s.var lit).level = (s.findConflictLevel c).1
  := by
  obtain ⟨hall, hlevel⟩ := findConflictLevel_le hle
  have hlit := hall lit h.mem
  apply le_antisymm hlit
  obtain hzero | ⟨k, hk, heq⟩ := hlevel
  · omega
  · rw [← heq] at hlit ⊢
    rw [h.eq_of_le hk hlit]

/-- A literal on the highest level is forced when no other one is counted on this level. -/
theorem forces_iff {n : Nat} (hall : ∀ k ∈ c, (s.var k).level ≤ n) (hlit : (s.var lit).level = n) :
  s.Forces c lit ↔ 0 < n ∧ lit ∈ c ∧ c.countP (fun k => (s.var k).level = n) = 1
  := by
  have hfilter : c.filter (fun k => (s.var lit).level ≤ (s.var k).level)
      = c.filter (fun k => (s.var k).level = n) := by
    apply List.filter_congr
    intro k hk
    rw [decide_eq_decide, hlit]
    exact ⟨fun hle => le_antisymm (hall k hk) hle, fun heq => heq.ge⟩
  rw [List.countP_eq_length_filter, List.length_eq_one_iff, ← hfilter]
  constructor
  · intro h
    exact ⟨hlit ▸ h.1, h.mem, lit, h.2⟩
  · rintro ⟨hpos, hmem, x, hx⟩
    have hmem : lit ∈ c.filter (fun k => (s.var lit).level ≤ (s.var k).level) :=
      List.mem_filter.mpr ⟨hmem, decide_eq_true le_rfl⟩
    rw [hx, List.mem_singleton] at hmem
    exact ⟨hlit ▸ hpos, by rw [hx, hmem]⟩

/-- The literal that `find_conflict_level` reports is the only one on the highest level. -/
theorem findConflictLevel_forced_iff (hle : ∀ k ∈ c, (s.var k).level ≤ s.level) :
  (s.findConflictLevel c).2 = some lit ↔ s.Forces c lit
  := by
  have hcounted := counted_findConflictLoop c [] 0 none 0 hle nofun rfl (fun _ => rfl)
    (fun h => absurd h Nat.zero_ne_one) (fun _ => rfl)
  have hlevel (h : s.Forces c lit) := h.level_eq hle
  rw [findConflictLevel] at hlevel ⊢
  rw [List.nil_append] at hcounted
  generalize s.findConflictLoop c 0 none 0 = r at hcounted hlevel
  obtain ⟨n, forced, count⟩ := r
  obtain ⟨hall, hcount, hforced, hroot⟩ := hcounted
  simp only at hall hcount hforced hroot hlevel ⊢
  constructor
  · intro hfound
    split at hfound
    · next hone =>
        have hn : n ≠ 0 := by
          intro hzero
          rw [hroot hzero] at hfound
          cases hfound
        obtain ⟨x, hx, hsome, hxlevel⟩ := (hforced hone).resolve_left hn
        obtain rfl : x = lit := Option.some_injective _ (hsome.symm.trans hfound)
        have hcountP := hcount.resolve_right (fun htwo => absurd (hone ▸ htwo.1) (by decide))
        exact (forces_iff hall hxlevel).mpr ⟨Nat.pos_of_ne_zero hn, hx, hcountP.symm.trans hone⟩
    · cases hfound
  · intro h
    have hlit := hlevel h
    obtain ⟨hpos, -, hcountP⟩ := (forces_iff hall hlit).mp h
    have hcount := hcount.resolve_right (fun htwo => absurd (hcountP ▸ htwo.2) (by decide))
    have hone := hcount.trans hcountP
    obtain ⟨x, hx, hsome, hxlevel⟩ := (hforced hone).resolve_left hpos.ne'
    rw [if_pos hone, hsome, h.eq_of_le hx (hlit.trans hxlevel.symm).le]

/-- A clause of two literals at least has one literal on its highest level, which is found, or
several. -/
theorem findConflictLevel_spec (hlength : 2 ≤ c.length)
    (hle : ∀ k ∈ c, (s.var k).level ≤ s.level) :
  (∀ k ∈ c, (s.var k).level ≤ (s.findConflictLevel c).1)
    ∧ ((∃ x ∈ c, (s.findConflictLevel c).2 = some x
        ∧ (s.var x).level = (s.findConflictLevel c).1
        ∧ ∀ k ∈ c, k ≠ x → (s.var k).level < (s.findConflictLevel c).1)
      ∨ (s.findConflictLevel c).2 = none
        ∧ 2 ≤ c.countP (fun k => (s.var k).level = (s.findConflictLevel c).1))
  := by
  obtain ⟨hall, hlevel⟩ := findConflictLevel_le hle
  refine ⟨hall, ?_⟩
  cases hfound : (s.findConflictLevel c).2 with
  | some x =>
      have h := (findConflictLevel_forced_iff hle).mp hfound
      refine Or.inl ⟨x, h.mem, rfl, h.level_eq hle, ?_⟩
      intro k hk hne
      apply lt_of_le_of_ne (hall k hk)
      intro heq
      exact hne (h.eq_of_le hk ((h.level_eq hle).trans heq.symm).le)
  | none =>
      refine Or.inr ⟨rfl, ?_⟩
      obtain hzero | hpos := Nat.eq_zero_or_pos (s.findConflictLevel c).1
      · have hcountP : c.countP (fun k => (s.var k).level = (s.findConflictLevel c).1)
            = c.length := by
          rw [List.countP_eq_length]
          intro k hk
          rw [hzero] at hall ⊢
          exact decide_eq_true (Nat.le_zero.mp (hall k hk))
        rwa [hcountP]
      · obtain ⟨x, hx, hxlevel⟩ := hlevel.resolve_left hpos.ne'
        have hcountP : 0 < c.countP (fun k => (s.var k).level = (s.findConflictLevel c).1) :=
          List.countP_pos_iff.mpr ⟨x, hx, decide_eq_true hxlevel⟩
        by_contra hlt
        have h : s.Forces c x := (forces_iff hall hxlevel).mpr ⟨hpos, hx, by omega⟩
        rw [(findConflictLevel_forced_iff hle).mpr h] at hfound
        cases hfound

end Search

end Cadical
