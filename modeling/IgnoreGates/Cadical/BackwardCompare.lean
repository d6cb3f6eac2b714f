import IgnoreGates.Cadical.Backward

/-!
# Comparing a candidate

What the loops over the literals of a candidate compute, in terms of the literals that they
meet.
-/

namespace Cadical

open Logic

namespace Eliminator

variable {s : Eliminator} {c : Nat}

/-- The unassigned literals of the clause are marked, and no others. -/
structure Matching (s : Eliminator) (c : Nat) : Prop where
  mem : ∀ l, s.val l = none → l ∈ s.clause c → s.marked l = 1
  neg : ∀ l, s.val l = none → -l ∈ s.clause c → s.marked l = -1
  other : ∀ l, s.val l = none → l ∉ s.clause c → -l ∉ s.clause c → s.marked l = 0

/-- When only the unassigned literals of the clause are marked, their marks are the signs in the
clause. -/
theorem Marks.matching {t : Eliminator} (h : Marks s t (s.clause c))
    (hmarks : ∀ v, s.marks v = 0) :
  t.Matching c
  := by
  obtain ⟨⟨marks, rfl⟩, hmem, hother⟩ := h
  have hneg : ∀ l, s.val l = none → s.val (-l) = none := by
    intro l hl
    rw [val_neg, hl]
    rfl
  have hzero : ∀ l, s.marked l = 0 := by
    intro l
    rw [marked, hmarks]
    simp
  constructor
  · intro l hl hlc
    exact hmem l hlc hl
  · intro l hl hlc
    have hmarked := hmem (-l) hlc (hneg l hl)
    rw [marked_neg] at hmarked
    omega
  · intro l hl hlc hnlc
    apply (hother l _).trans (hzero l)
    intro hvar
    obtain ⟨k, hk, hvidx⟩ := List.mem_map.mp hvar
    obtain rfl | rfl := Lit.eq_or_eq_neg hvidx
    · exact hlc hk
    · exact hnlc hk

/-! ### The comparison -/

theorem opposed_append (c : Nat) (pre post : List Lit) :
  s.opposed c (pre ++ post) = s.opposed c pre ++ s.opposed c post
  := List.filter_append ..

theorem common_append (c : Nat) (pre post : List Lit) :
  s.common c (pre ++ post) = s.common c pre ++ s.common c post
  := List.filter_append ..

theorem opposed_singleton (c : Nat) (l : Lit) :
  s.opposed c [l] = if s.val l = none ∧ -l ∈ s.clause c then [l] else []
  := by
  simp only [opposed, List.filter_cons, List.filter_nil, decide_eq_true_eq]

theorem common_singleton (c : Nat) (l : Lit) :
  s.common c [l] = if s.val l = none ∧ (l ∈ s.clause c ∨ -l ∈ s.clause c) then [l] else []
  := by
  simp only [common, List.filter_cons, List.filter_nil, decide_eq_true_eq]

theorem Compared.not_true {lits : List Lit} (h : s.Compared c lits) :
  ∀ l ∈ lits, s.val l ≠ some true
  := h.1

theorem Compared.opposed {lits : List Lit} (h : s.Compared c lits) :
  (s.opposed c lits).length ≤ 1
  := h.2.1

theorem Compared.common {lits : List Lit} (h : s.Compared c lits) :
  (s.common c lits).length < (s.free c).length
  := h.2.2

theorem Comparable.ne {d : Nat} (h : s.Comparable c d) :
  d ≠ c
  := h.1

theorem Comparable.not_garbage {d : Nat} (h : s.Comparable c d) :
  s.garbage d = false
  := h.2.1

theorem Comparable.size {d : Nat} (h : s.Comparable c d) :
  (s.free c).length ≤ (s.clause d).length
  := h.2.2

/-- What goes on behind a list goes on behind its beginnings. -/
theorem Compared.of_append {pre post : List Lit} (h : s.Compared c (pre ++ post)) :
  s.Compared c pre
  := by
  obtain ⟨hnot, hopposed, hcommon⟩ := h
  rw [opposed_append, List.length_append] at hopposed
  rw [common_append, List.length_append] at hcommon
  exact ⟨fun l hl => hnot l (List.mem_append_left _ hl), by omega, by omega⟩

/-- The variables of the comparison behind the literals. -/
def Comparison.behind (s : Eliminator) (c : Nat) (v : Comparison) (pre : List Lit) : Comparison :=
  { v with negated := (s.opposed c pre).head?, found := (s.common c pre).length }

/-- A literal whose complement is in the clause is the one to be removed, if it is the first of its
kind. -/
theorem matchLoop_opposed (h : s.Matching c) {lit : Lit} (hnone : s.val lit = none)
    (hneg : -lit ∈ s.clause c) (rest : List Lit) (v : Comparison) :
  s.matchLoop (lit :: rest) v
    = if v.negated.isSome then { v with size := uintMax }
      else if v.found + 1 = v.size then { v with negated := some lit, found := v.found + 1 }
      else s.matchLoop rest { v with negated := some lit, found := v.found + 1 }
  := by
  have hmarked := h.neg lit hnone hneg
  have hzero : ¬ s.marked lit = 0 := by omega
  have hlt : s.marked lit < 0 := by omega
  rw [matchLoop, hnone]
  simp only [hzero, hlt, if_true, if_false, true_and]

/-- A literal of the clause is counted. -/
theorem matchLoop_mem (h : s.Matching c) {lit : Lit} (hnone : s.val lit = none)
    (hmem : lit ∈ s.clause c) (rest : List Lit) (v : Comparison) :
  s.matchLoop (lit :: rest) v
    = if v.found + 1 = v.size then { v with found := v.found + 1 }
      else s.matchLoop rest { v with found := v.found + 1 }
  := by
  have hmarked := h.mem lit hnone hmem
  have hzero : ¬ s.marked lit = 0 := by omega
  have hlt : ¬ s.marked lit < 0 := by omega
  rw [matchLoop, hnone]
  simp only [hzero, hlt, if_false, false_and]

/-- A literal of another variable is passed. -/
theorem matchLoop_other (h : s.Matching c) {lit : Lit} (hnone : s.val lit = none)
    (hmem : lit ∉ s.clause c) (hneg : -lit ∉ s.clause c) (rest : List Lit) (v : Comparison) :
  s.matchLoop (lit :: rest) v = s.matchLoop rest v
  := by
  rw [matchLoop, hnone]
  simp only [h.other lit hnone hmem hneg, if_true]

/-- A false literal is passed. -/
theorem matchLoop_false {lit : Lit} (hfalse : s.val lit = some false) (rest : List Lit)
    (v : Comparison) :
  s.matchLoop (lit :: rest) v = s.matchLoop rest v
  := by
  rw [matchLoop, hfalse]

/-- The loop passes literals behind which the comparison goes on. -/
theorem matchLoop_compared (h : s.Matching c) {v : Comparison}
    (hsize : v.size = (s.free c).length) {pre : List Lit} (hpre : s.Compared c pre)
    (rest : List Lit) :
  s.matchLoop (pre ++ rest) (v.behind s c []) = s.matchLoop rest (v.behind s c pre)
  := by
  induction pre using List.reverseRecOn generalizing rest with
  | nil => rfl
  | append_singleton pre lit ih =>
      rw [List.append_assoc, ih hpre.of_append, List.singleton_append]
      obtain ⟨hnot, hopposed, hcommon⟩ := hpre
      have hlit := hnot lit (List.mem_append_right _ List.mem_cons_self)
      rw [opposed_append, opposed_singleton] at hopposed
      rw [common_append, common_singleton] at hcommon
      rw [Comparison.behind, Comparison.behind, opposed_append, common_append,
        opposed_singleton, common_singleton]
      cases hval : s.val lit with
      | some b =>
          cases b with
          | true => exact absurd hval hlit
          | false =>
              rw [matchLoop_false hval]
              simp only [reduceCtorEq, false_and, if_false, List.append_nil]
      | none =>
          by_cases hneg : -lit ∈ s.clause c
          · simp only [hval, hneg, true_and, or_true, if_true, List.length_append,
              List.length_singleton] at hopposed hcommon ⊢
            have hnil : s.opposed c pre = [] := List.length_eq_zero_iff.mp (by omega)
            rw [matchLoop_opposed h hval hneg, hnil]
            simp only [List.head?_nil, Option.isSome_none, Bool.false_eq_true, if_false,
              List.nil_append, List.head?_cons]
            rw [if_neg (by omega)]
          · by_cases hmem : lit ∈ s.clause c
            · simp only [hval, hneg, hmem, true_and, and_false, or_false, if_true, if_false,
                List.length_append, List.length_singleton] at hopposed hcommon ⊢
              rw [matchLoop_mem h hval hmem, if_neg (by dsimp only; omega), List.append_nil]
            · rw [matchLoop_other h hval hmem hneg]
              simp only [hneg, hmem, and_false, or_self, if_false, List.append_nil]

/-- How a comparison can end. -/
theorem compared_or_meets (hpos : 0 < (s.free c).length) (lits : List Lit) :
  s.Compared c lits ∨ s.MeetsTrue c lits ∨ s.MeetsTwo c lits ∨ ∃ negated, s.MeetsAll c lits negated
  := by
  induction lits using List.reverseRecOn with
  | nil => exact Or.inl ⟨nofun, Nat.zero_le _, hpos⟩
  | append_singleton pre lit ih =>
      obtain hpre | ⟨pre', k, post, rfl, h⟩ | ⟨pre', k, post, rfl, h⟩
        | ⟨negated, pre', k, post, rfl, h⟩ := ih
      · cases hval : s.val lit with
        | some b =>
            cases b with
            | true => exact Or.inr (Or.inl ⟨pre, lit, [], rfl, hpre, hval⟩)
            | false =>
                left
                refine ⟨?_, ?_, ?_⟩
                · intro l hl
                  obtain hl | hl := List.mem_append.mp hl
                  · exact hpre.not_true l hl
                  · rw [List.mem_singleton.mp hl, hval]
                    simp
                · rw [opposed_append, opposed_singleton, if_neg (by simp [hval]), List.append_nil]
                  exact hpre.opposed
                · rw [common_append, common_singleton, if_neg (by simp [hval]), List.append_nil]
                  exact hpre.common
        | none =>
            rw [or_iff_not_imp_right]
            intro hnot
            rw [not_or, not_or] at hnot
            obtain ⟨-, htwo, hall⟩ := hnot
            have hopposed : (s.opposed c (pre ++ [lit])).length ≤ 1 := by
              rw [opposed_append, opposed_singleton]
              split
              · next hneg =>
                  have hle := hpre.opposed
                  have hne : (s.opposed c pre).length ≠ 1 :=
                    fun hone => htwo ⟨pre, lit, [], rfl, hpre, hval, hneg.2, hone⟩
                  rw [List.length_append, List.length_singleton]
                  omega
              · rw [List.append_nil]
                exact hpre.opposed
            refine ⟨?_, hopposed, ?_⟩
            · intro l hl
              obtain hl | hl := List.mem_append.mp hl
              · exact hpre.not_true l hl
              · rw [List.mem_singleton.mp hl, hval]
                simp
            · rw [common_append, common_singleton]
              have hlt := hpre.common
              split
              · next hmem =>
                  have hne : (s.common c pre).length + 1 ≠ (s.free c).length :=
                    fun heq => hall ⟨_, pre, lit, [], rfl, hpre, hval, hmem.2, heq, rfl, hopposed⟩
                  rw [List.length_append, List.length_singleton]
                  omega
              · rwa [List.append_nil]
      · exact Or.inr (Or.inl ⟨pre', k, post ++ [lit], by simp, h⟩)
      · exact Or.inr (Or.inr (Or.inl ⟨pre', k, post ++ [lit], by simp, h⟩))
      · exact Or.inr (Or.inr (Or.inr ⟨negated, pre', k, post ++ [lit], by simp, h⟩))

section Ends

variable {v : Comparison} {lits : List Lit}

/-- The comparison stops at a true literal. -/
theorem MeetsTrue.matchLoop (h : s.Matching c) (hsize : v.size = (s.free c).length)
    (hmeets : s.MeetsTrue c lits) :
  (s.matchLoop lits (v.behind s c [])).satisfied = true
    ∧ (s.matchLoop lits (v.behind s c [])).size = v.size
  := by
  obtain ⟨pre, lit, post, rfl, hpre, htrue⟩ := hmeets
  rw [matchLoop_compared h hsize hpre, Eliminator.matchLoop, htrue]
  exact ⟨rfl, rfl⟩

/-- The comparison stops at a second literal whose complement is in the clause. -/
theorem MeetsTwo.matchLoop (h : s.Matching c) (hsize : v.size = (s.free c).length)
    (hmeets : s.MeetsTwo c lits) :
  (s.matchLoop lits (v.behind s c [])).satisfied = v.satisfied
    ∧ (s.matchLoop lits (v.behind s c [])).size = uintMax
    ∧ (s.matchLoop lits (v.behind s c [])).found < (s.free c).length
  := by
  obtain ⟨pre, lit, post, rfl, hpre, hnone, hneg, hone⟩ := hmeets
  have hsome : (s.opposed c pre).head?.isSome = true := by
    rw [List.isSome_head?]
    apply List.ne_nil_of_length_pos
    omega
  rw [matchLoop_compared h hsize hpre, matchLoop_opposed h hnone hneg, Comparison.behind,
    if_pos hsome]
  exact ⟨rfl, rfl, hpre.common⟩

/-- The comparison stops when all variables of the clause have been met. -/
theorem MeetsAll.matchLoop (h : s.Matching c) (hsize : v.size = (s.free c).length)
    {negated : List Lit} (hmeets : s.MeetsAll c lits negated) :
  s.matchLoop lits (v.behind s c [])
    = { v with negated := negated.head?, found := v.size }
  := by
  obtain ⟨pre, lit, post, rfl, hpre, hnone, hmem, hfound, rfl, hle⟩ := hmeets
  rw [opposed_append, opposed_singleton] at hle ⊢
  rw [matchLoop_compared h hsize hpre, Comparison.behind]
  have hlast : (s.common c pre).length + 1 = v.size := hfound.trans hsize.symm
  by_cases hneg : -lit ∈ s.clause c
  · simp only [hnone, hneg, true_and, if_true, List.length_append, List.length_singleton] at hle ⊢
    have hnil : s.opposed c pre = [] := List.length_eq_zero_iff.mp (by omega)
    rw [matchLoop_opposed h hnone hneg, hnil]
    simp only [List.head?_nil, Option.isSome_none, Bool.false_eq_true, if_false, hlast, if_true,
      List.nil_append, List.head?_cons]
  · rw [matchLoop_mem h hnone (hmem.resolve_right hneg)]
    simp only [hlast, if_true, hneg, and_false, if_false, List.append_nil]

/-- The comparison goes on behind the literals. -/
theorem Compared.matchLoop (h : s.Matching c) (hsize : v.size = (s.free c).length)
    (hlits : s.Compared c lits) :
  s.matchLoop lits (v.behind s c []) = v.behind s c lits
  := by
  have hloop := matchLoop_compared h hsize hlits []
  rwa [List.append_nil, Eliminator.matchLoop] at hloop

end Ends

section Outcomes

variable {v : Comparison} {lits : List Lit}

/-- When the comparison sets `satisfied`. -/
theorem matchLoop_satisfied (h : s.Matching c) (hsize : v.size = (s.free c).length)
    (hpos : 0 < (s.free c).length) :
  (s.matchLoop lits (v.behind s c [])).satisfied = true
    ↔ v.satisfied = true ∨ s.MeetsTrue c lits
  := by
  constructor
  · intro hsat
    obtain hlits | htrue | htwo | ⟨negated, hall⟩ := compared_or_meets hpos lits
    · rw [hlits.matchLoop h hsize] at hsat
      exact Or.inl hsat
    · exact Or.inr htrue
    · rw [(htwo.matchLoop h hsize).1] at hsat
      exact Or.inl hsat
    · rw [hall.matchLoop h hsize] at hsat
      exact Or.inl hsat
  · rintro (hsat | htrue)
    · obtain hlits | htrue | htwo | ⟨negated, hall⟩ := compared_or_meets hpos lits
      · rw [hlits.matchLoop h hsize]
        exact hsat
      · exact (htrue.matchLoop h hsize).1
      · rw [(htwo.matchLoop h hsize).1]
        exact hsat
      · rw [hall.matchLoop h hsize]
        exact hsat
    · exact (htrue.matchLoop h hsize).1

/-- When the comparison keeps `size`. -/
theorem matchLoop_size (h : s.Matching c) (hsize : v.size = (s.free c).length)
    (hpos : 0 < (s.free c).length) (hnot : ¬ s.MeetsTwo c lits) :
  (s.matchLoop lits (v.behind s c [])).size = v.size
  := by
  obtain hlits | htrue | htwo | ⟨negated, hall⟩ := compared_or_meets hpos lits
  · rw [hlits.matchLoop h hsize]
    rfl
  · exact (htrue.matchLoop h hsize).2
  · exact absurd htwo hnot
  · rw [hall.matchLoop h hsize]

/-- When all variables of `c` are met. -/
theorem matchLoop_found (h : s.Matching c) (hsize : v.size = (s.free c).length)
    (hpos : 0 < (s.free c).length) (hlt : (s.free c).length < uintMax)
    (hsat : (s.matchLoop lits (v.behind s c [])).satisfied = false) :
  (s.matchLoop lits (v.behind s c [])).found = (s.matchLoop lits (v.behind s c [])).size
    ↔ ∃ negated, s.MeetsAll c lits negated
  := by
  constructor
  · intro heq
    obtain hlits | htrue | htwo | hall := compared_or_meets hpos lits
    · rw [hlits.matchLoop h hsize] at heq
      have hcommon := hlits.common
      change (s.common c lits).length = v.size at heq
      omega
    · rw [(htrue.matchLoop h hsize).1] at hsat
      cases hsat
    · obtain ⟨-, hmax, hfound⟩ := htwo.matchLoop h hsize
      omega
    · exact hall
  · rintro ⟨negated, hall⟩
    rw [hall.matchLoop h hsize]

end Outcomes

/-! ### The search for a unit -/

theorem others_append (negated : Lit) (pre post : List Lit) :
  s.others negated (pre ++ post) = s.others negated pre ++ s.others negated post
  := List.filter_append ..

/-- How far the search has come behind literals that are not true: to the first of the others. -/
def Scan.first : List Lit → Scan
  | [] => .falsified
  | lit :: _ => .unit lit

/-- The search passes literals of which at most one counts. -/
theorem unitLoop_append {negated : Lit} {pre : List Lit} (hnot : ∀ l ∈ pre, s.val l ≠ some true)
    (hle : (s.others negated pre).length ≤ 1) (rest : List Lit) :
  s.unitLoop negated (pre ++ rest) .falsified
    = s.unitLoop negated rest (Scan.first (s.others negated pre))
  := by
  induction pre using List.reverseRecOn generalizing rest with
  | nil => rfl
  | append_singleton pre lit ih =>
      rw [others_append, List.length_append] at hle
      rw [List.append_assoc, ih (fun l hl => hnot l (List.mem_append_left _ hl)) (by omega),
        List.singleton_append, unitLoop, others_append]
      split
      · next hfalse =>
          have hnil : s.others negated [lit] = [] := by simp [others, hfalse]
          rw [hnil, List.append_nil]
      · next htrue =>
          exact absurd htrue (hnot lit (List.mem_append_right _ List.mem_cons_self))
      · next hnone =>
          split
          · next heq =>
              have hnil : s.others negated [lit] = [] := by simp [others, heq]
              rw [hnil, List.append_nil]
          · next hne =>
              have hsingle : s.others negated [lit] = [lit] := by simp [others, hnone, hne]
              rw [hsingle, List.length_singleton] at hle
              have hnil : s.others negated pre = [] := List.length_eq_zero_iff.mp (by omega)
              rw [hsingle, hnil]
              rfl

/-- The search ends at the second literal that counts. -/
theorem unitLoop_several {negated : Lit} {pre : List Lit} (rest : List Lit)
    (hnot : ∀ l ∈ pre, s.val l ≠ some true) (hlt : 1 < (s.others negated pre).length) :
  s.unitLoop negated (pre ++ rest) .falsified = .several
  := by
  induction pre using List.reverseRecOn generalizing rest with
  | nil => cases hlt
  | append_singleton pre lit ih =>
      have hpre : ∀ l ∈ pre, s.val l ≠ some true :=
        fun l hl => hnot l (List.mem_append_left _ hl)
      rw [List.append_assoc]
      by_cases hmore : 1 < (s.others negated pre).length
      · exact ih _ hpre hmore
      · rw [others_append, List.length_append] at hlt
        have hcounts : s.val lit = none ∧ lit ≠ negated := by
          by_contra hcounts
          have hnil : s.others negated [lit] = [] := by simpa [others] using hcounts
          rw [hnil, List.length_nil] at hlt
          omega
        have hsingle : (s.others negated [lit]).length ≤ 1 := List.length_filter_le _ _
        obtain ⟨k, hk⟩ := List.length_eq_one_iff.mp
          (show (s.others negated pre).length = 1 by omega)
        rw [unitLoop_append hpre (by omega), hk, List.singleton_append, unitLoop, hcounts.1]
        simp only
        rw [if_neg hcounts.2, if_neg (by simp [Scan.first])]

/-- What the search for a unit finds. -/
inductive UnitSearch (s : Eliminator) (negated : Lit) (lits : List Lit) : Scan → Prop
  | satisfied (h : ∃ pre lit post, lits = pre ++ lit :: post ∧ s.val lit = some true
      ∧ (s.others negated pre).length ≤ 1) : UnitSearch s negated lits .satisfied
  | first (hnot : ∀ l ∈ lits, s.val l ≠ some true) (hle : (s.others negated lits).length ≤ 1) :
      UnitSearch s negated lits (Scan.first (s.others negated lits))
  | several (h : ∃ pre post, lits = pre ++ post ∧ (∀ l ∈ pre, s.val l ≠ some true)
      ∧ 1 < (s.others negated pre).length) : UnitSearch s negated lits .several

/-- The first true literal of a list. -/
theorem exists_first_true {lits : List Lit} (h : ∃ l ∈ lits, s.val l = some true) :
  ∃ pre lit post, lits = pre ++ lit :: post ∧ s.val lit = some true
    ∧ ∀ l ∈ pre, s.val l ≠ some true
  := by
  induction lits with
  | nil =>
      obtain ⟨l, hl, -⟩ := h
      cases hl
  | cons lit lits ih =>
      by_cases htrue : s.val lit = some true
      · exact ⟨[], lit, lits, rfl, htrue, nofun⟩
      · have hrest : ∃ l ∈ lits, s.val l = some true := by
          obtain ⟨l, hl, hval⟩ := h
          obtain rfl | hl := List.mem_cons.mp hl
          · exact absurd hval htrue
          · exact ⟨l, hl, hval⟩
        obtain ⟨pre, k, post, rfl, hk, hpre⟩ := ih hrest
        exact ⟨lit :: pre, k, post, rfl, hk, List.forall_mem_cons.mpr ⟨htrue, hpre⟩⟩

/-- The loop finds a unit, a true literal, or two literals. -/
theorem unitLoop_search (negated : Lit) (lits : List Lit) :
  UnitSearch s negated lits (s.unitLoop negated lits .falsified)
  := by
  by_cases htrue : ∃ l ∈ lits, s.val l = some true
  · obtain ⟨pre, lit, post, rfl, hlit, hpre⟩ := exists_first_true htrue
    by_cases hle : (s.others negated pre).length ≤ 1
    · rw [unitLoop_append hpre hle, unitLoop, hlit]
      exact .satisfied ⟨pre, lit, post, rfl, hlit, hle⟩
    · rw [unitLoop_several _ hpre (by omega)]
      exact .several ⟨pre, _, rfl, hpre, by omega⟩
  · have hnot : ∀ l ∈ lits, s.val l ≠ some true := fun l hl hval => htrue ⟨l, hl, hval⟩
    by_cases hle : (s.others negated lits).length ≤ 1
    · have hloop := unitLoop_append hnot hle []
      rw [List.append_nil, unitLoop] at hloop
      rw [hloop]
      exact .first hnot hle
    · have hlt : 1 < (s.others negated lits).length := by omega
      have hloop := unitLoop_several [] hnot hlt
      rw [List.append_nil] at hloop
      rw [hloop]
      exact .several ⟨lits, [], (List.append_nil lits).symm, hnot, by omega⟩

/-- The loop comes to a true literal if and only if at most one literal stands before it. -/
theorem unitLoop_satisfied_iff (negated : Lit) (lits : List Lit) :
  s.unitLoop negated lits .falsified = .satisfied
    ↔ ∃ pre lit post, lits = pre ++ lit :: post ∧ s.val lit = some true
      ∧ (s.others negated pre).length ≤ 1
  := by
  have hsearch := unitLoop_search (s := s) negated lits
  constructor
  · intro h
    rw [h] at hsearch
    generalize hr : Scan.satisfied = r at hsearch
    cases hsearch with
    | satisfied h => exact h
    | first hnot hle =>
        cases hothers : s.others negated lits <;> rw [hothers] at hr <;> cases hr
    | several h => cases hr
  · rintro ⟨pre, lit, post, rfl, htrue, hle⟩
    generalize s.unitLoop negated (pre ++ lit :: post) .falsified = r at hsearch
    cases hsearch with
    | satisfied h => rfl
    | first hnot _ =>
        exact absurd htrue (hnot lit (List.mem_append_right _ List.mem_cons_self))
    | several h =>
        obtain ⟨pre', post', hsplit, hnot, hlt⟩ := h
        exfalso
        obtain ⟨mid, rfl, hmid⟩ | ⟨mid, rfl, hmid⟩ := List.append_eq_append_iff.mp hsplit
        · cases mid with
          | nil =>
              rw [List.append_nil] at hlt
              omega
          | cons k mid =>
              obtain ⟨rfl, -⟩ := List.cons.inj hmid
              exact hnot lit (List.mem_append_right _ List.mem_cons_self) htrue
        · rw [others_append, List.length_append] at hle
          omega

/-- The loop finds a unit if and only if there is no true literal and one literal is left. -/
theorem unitLoop_unit_iff (negated : Lit) (lits : List Lit) :
  (∃ unit, s.unitLoop negated lits .falsified = .unit unit)
    ↔ (∀ l ∈ lits, s.val l ≠ some true) ∧ (s.others negated lits).length = 1
  := by
  constructor
  · rintro ⟨unit, h⟩
    have hsearch := unitLoop_search (s := s) negated lits
    rw [h] at hsearch
    generalize hr : Scan.unit unit = r at hsearch
    cases hsearch with
    | satisfied h => cases hr
    | first hnot hle =>
        refine ⟨hnot, ?_⟩
        cases hothers : s.others negated lits with
        | nil =>
            rw [hothers] at hr
            cases hr
        | cons k rest =>
            rw [hothers, List.length_cons] at hle
            rw [List.length_cons]
            omega
    | several h => cases hr
  · rintro ⟨hnot, hone⟩
    have hloop := unitLoop_append hnot hone.le []
    rw [List.append_nil, unitLoop] at hloop
    obtain ⟨unit, hunit⟩ := List.length_eq_one_iff.mp hone
    rw [hunit] at hloop
    exact ⟨unit, hloop⟩

/-- All literals of a candidate with a unit are false, except for the unit and `negated`. -/
theorem unitLoop_unit {negated unit : Lit} {lits : List Lit}
    (h : s.unitLoop negated lits .falsified = .unit unit) :
  unit ∈ lits ∧ s.val unit = none
    ∧ ∀ k ∈ lits, s.val k = some false ∨ k = negated ∨ k = unit
  := by
  obtain ⟨hnot, hone⟩ := (unitLoop_unit_iff negated lits).mp ⟨unit, h⟩
  have hloop := unitLoop_append hnot hone.le []
  rw [List.append_nil, h, unitLoop] at hloop
  obtain ⟨k, hk⟩ := List.length_eq_one_iff.mp hone
  rw [hk] at hloop
  obtain rfl : unit = k := Scan.unit.inj hloop
  have hmem : unit ∈ s.others negated lits := by
    rw [hk]
    exact List.mem_singleton_self unit
  obtain ⟨hmem, hspec⟩ := List.mem_filter.mp hmem
  rw [decide_eq_true_eq] at hspec
  refine ⟨hmem, hspec.1, ?_⟩
  intro k' hk'
  cases hval : s.val k' with
  | some b =>
      cases b with
      | true => exact absurd hval (hnot k' hk')
      | false => exact Or.inl rfl
  | none =>
      right
      rw [or_iff_not_imp_left]
      intro hne
      have hother : k' ∈ s.others negated lits := by
        apply List.mem_filter.mpr
        exact ⟨hk', by simpa using ⟨hval, hne⟩⟩
      rw [hk] at hother
      exact List.mem_singleton.mp hother

end Eliminator

end Cadical
