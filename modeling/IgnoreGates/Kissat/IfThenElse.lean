import IgnoreGates.Kissat.Dense

/-!
# If-then-else gates

Two clauses of a literal with three unassigned literals, which share a variable in both
signs, are looked for, and then two clauses of the complement that have no other unassigned
literals than the matching ones.  The variable selects which of the two other literals the
literal is equal to.
-/

namespace Kissat

open Logic

namespace Solver

variable (s : Solver)

/-- The loop of `get_ternary_clause` over the literals of a clause, with the unassigned
literals found so far. -/
def ternaryLiterals : List Lit → List Lit → Scan (List Lit)
  | [], found => .done found
  | other :: rest, found =>
      match s.value other with
      | some true => .satisfied
      | some false => ternaryLiterals rest found
      | none =>
          if found.length < 3 then ternaryLiterals rest (found ++ [other]) else .failed

/-- `get_ternary_clause` -/
def getTernaryClause (f : Flags) (ref : Nat) : Option (Lit × Lit × Lit) × Flags :=
  if f.garbage ref then (none, f)
  else
    match s.ternaryLiterals (s.arena ref) [] with
    | .satisfied => (none, f.eliminateClause ref)
    | .done [a, b, c] => (some (a, b, c), f)
    | _ => (none, f)

/-- `match_ternary_ref` -/
def matchTernaryRef (a b c : Lit) (ref : Nat) (f : Flags) : Bool × Flags :=
  if f.garbage ref then (false, f)
  else
    match s.matchLiterals (fun other => a = other ∨ b = other ∨ c = other) (s.arena ref) 0 with
    | .satisfied => (false, f.eliminateClause ref)
    | .failed => (false, f)
    | .done found => (true, if found = 3 then f else { f with resolveGate := true })

/-- `match_ternary_watch` -/
def matchTernaryWatch (a b c : Lit) (w : Watch) (f : Flags) : Bool × Flags :=
  match w with
  | .binary other =>
      if other ≠ b ∧ other ≠ c then (false, f) else (true, { f with resolveGate := true })
  | .large ref => s.matchTernaryRef a b c ref f

/-- `find_ternary_clause` -/
def findTernaryClause (a b c : Lit) (f : Flags) : Option (Nat × Watch) × Flags :=
  findWatch (s.matchTernaryWatch a b c) (s.watches a) 0 f

/-- The two swaps that bring `lit` to the front of three literals. -/
def toFront (lit : Lit) : Lit × Lit × Lit → Lit × Lit × Lit
  | (a, b, c) =>
      let (a, b) := if b = lit then (b, a) else (a, b)
      if c = lit then (c, b, a) else (a, b, c)

/-- The inner loop of `kissat_find_if_then_else_gate` over the watches behind `w1`, whose
clause has the unassigned literals `lit`, `b1` and `c1`. -/
def itePartner (lit b1 c1 : Lit) (w1 : Watch) :
    List Watch → Nat → Flags → Option (List Watch × List Watch) × Nat × Flags
  | [], steps, f => (none, steps, f)
  | .binary _ :: ws, steps, f =>
      if steps < s.options.occurrences then itePartner lit b1 c1 w1 ws steps f
      else (none, steps, f)
  | .large ref :: ws, steps, f =>
      if steps < s.options.occurrences then
        match s.getTernaryClause f ref with
        | (none, f) => itePartner lit b1 c1 w1 ws steps f
        | (some clause, f) =>
            let (_, b2, c2) := toFront lit clause
            let (b2, c2) := if STRIP b1 = STRIP c2 then (c2, b2) else (b2, c2)
            if STRIP c1 = STRIP c2 then itePartner lit b1 c1 w1 ws steps f
            else if b1 ≠ NOT b2 then itePartner lit b1 c1 w1 ws steps f
            else
              let f := { f with resolveGate := false }
              let notWatches := s.watches (NOT lit)
              match s.findTernaryClause (NOT lit) b1 (NOT c1) f with
              | (none, f) =>
                  itePartner lit b1 c1 w1 ws (steps + stepsOf notWatches none) f
              | (some (p3, w3), f) =>
                  let steps := steps + stepsOf notWatches (some (p3, w3))
                  match s.findTernaryClause (NOT lit) b2 (NOT c2) f with
                  | (none, f) =>
                      itePartner lit b1 c1 w1 ws (steps + stepsOf notWatches none) f
                  | (some (p4, w4), f) =>
                      (some ([w1, .large ref], if p3 < p4 then [w3, w4] else [w4, w3]),
                        steps + stepsOf notWatches (some (p4, w4)), f)
      else (none, steps, f)

/-- The outer loop of `kissat_find_if_then_else_gate`, which leaves out the last watch. -/
def iteGate (lit : Lit) :
    List Watch → Nat → Flags → Option (List Watch × List Watch) × Nat × Flags
  | [], steps, f => (none, steps, f)
  | .binary _ :: ws, steps, f =>
      if steps < s.options.occurrences ∧ ws ≠ [] then iteGate lit ws steps f
      else (none, steps, f)
  | .large ref :: ws, steps, f =>
      if steps < s.options.occurrences ∧ ws ≠ [] then
        match s.getTernaryClause f ref with
        | (none, f) => iteGate lit ws steps f
        | (some clause, f) =>
            let (_, b1, c1) := toFront lit clause
            match s.itePartner lit b1 c1 (.large ref) ws steps f with
            | (none, steps, f) => iteGate lit ws steps f
            | (some gates, steps, f) => (some gates, steps, f)
      else (none, steps, f)

/-- `kissat_find_if_then_else_gate` -/
def kissatFindIfThenElseGate (lit : Lit) (negative : Bool) : Bool × Solver :=
  if !s.options.ifthenelse then (false, s)
  else if s.watches lit = [] then (false, s)
  else
    let largeClauses := (s.watches lit).countP isLarge
    if largeClauses * largeClauses > s.options.occurrences then (false, s)
    else
      match s.iteGate lit (s.watches lit) 0 s.flags with
      | (none, _, f) => (false, { s with flags := f })
      | (some (ws, notWs), _, f) =>
          (true, { s with
            flags := f
            gates := pushGates (pushGates s.gates negative ws) (!negative) notWs })

variable {s}

/-! ### The clauses that are found -/

theorem ternaryLiterals_done {c found r : List Lit}
    (h : s.ternaryLiterals c found = .done r) :
  (∀ l ∈ found, l ∈ r) ∧ ∀ l ∈ c, s.value l = some false ∨ l ∈ r
  := by
  induction c generalizing found with
  | nil =>
      cases h
      simp
  | cons other rest ih =>
      rw [ternaryLiterals] at h
      rw [List.forall_mem_cons]
      split at h
      · cases h
      · next hother =>
          obtain ⟨hfound, hrest⟩ := ih h
          exact ⟨hfound, Or.inl hother, hrest⟩
      · split at h
        · obtain ⟨hfound, hrest⟩ := ih h
          refine ⟨fun l hl => hfound l (List.mem_append_left _ hl), Or.inr ?_, hrest⟩
          apply hfound
          simp
        · cases h

theorem getTernaryClause_some {f f' : Flags} {ref : Nat} {a b c : Lit}
    (h : s.getTernaryClause f ref = (some (a, b, c), f')) :
  ∀ l ∈ s.arena ref, s.value l = some false ∨ l ∈ [a, b, c]
  := by
  rw [getTernaryClause] at h
  split at h
  · cases h
  split at h
  · cases h
  · next hdone =>
      cases h
      exact (ternaryLiterals_done hdone).2
  · cases h

/-- The first of three literals that contain `lit` becomes `lit`. -/
theorem toFront_eq {lit a b c a' b' c' : Lit} (hlit : lit ∈ [a, b, c])
    (h : toFront lit (a, b, c) = (a', b', c')) :
  ∀ l ∈ [a, b, c], l ≠ lit → l = b' ∨ l = c'
  := by
  simp only [toFront] at h
  simp only [List.mem_cons, List.not_mem_nil, or_false] at hlit ⊢
  grind

/-- A clause with three unassigned literals has, apart from the watching literal, no
unassigned literals but the two behind it. -/
theorem getTernaryClause_within (hs : s.Connected) {lit : Lit} (hlit : s.value lit = none)
    {f f' : Flags} {ref : Nat} (hmem : Watch.large ref ∈ s.watches lit)
    {clause : Lit × Lit × Lit} {a b c : Lit}
    (h : s.getTernaryClause f ref = (some clause, f'))
    (hfront : toFront lit clause = (a, b, c)) :
  s.Within lit (.large ref) (fun l => l = b ∨ l = c)
  := by
  obtain ⟨x, y, z⟩ := clause
  have hclause := getTernaryClause_some h
  have hfound : lit ∈ [x, y, z] := by
    obtain hfalse | hfound := hclause lit (hs.mem lit _ hmem)
    · rw [hlit] at hfalse
      cases hfalse
    · exact hfound
  intro l hl hvar
  obtain hfalse | hl := hclause l hl
  · exact Or.inl hfalse
  · right
    apply toFront_eq hfound hfront l hl
    rintro rfl
    exact hvar rfl

theorem matchTernaryWatch_within {a b c : Lit} {w : Watch} {f : Flags}
    (h : (s.matchTernaryWatch a b c w f).1 = true) :
  s.Within a w (fun l => l = b ∨ l = c)
  := by
  intro l hl hvar
  cases w with
  | binary other =>
      rw [matchTernaryWatch] at h
      split at h
      · cases h
      · next hother =>
          right
          obtain rfl | rfl | hl := List.mem_cons.mp hl |>.imp_right List.mem_cons.mp
          · exact absurd rfl hvar
          · rw [not_and_or, not_not, not_not] at hother
            exact hother
          · cases hl
  | large ref =>
      rw [matchTernaryWatch, matchTernaryRef] at h
      split at h
      · cases h
      split at h
      · cases h
      · cases h
      · next found hdone =>
          apply (matchLiterals_done hdone l hl).imp_right
          intro hfits
          obtain rfl | rfl | rfl := of_decide_eq_true hfits
          · exact absurd rfl hvar
          · exact Or.inl rfl
          · exact Or.inr rfl

theorem findTernaryClause_some {a b c : Lit} {f f' : Flags} {i : Nat} {w : Watch}
    (h : s.findTernaryClause a b c f = (some (i, w), f')) :
  w ∈ s.watches a ∧ s.Within a w (fun l => l = b ∨ l = c)
  := by
  obtain ⟨-, hget, g, hmatch⟩ := findWatch_some h
  exact ⟨List.mem_of_getElem? hget, matchTernaryWatch_within hmatch⟩

/-! ### The gate -/

/-- The four clauses of an if-then-else gate. -/
structure IteGate (s : Solver) (lit : Lit) (ws notWs : List Watch) (b c : Lit) : Prop where
  mem : ∀ w ∈ ws, w ∈ s.watches lit
  not_mem : ∀ w ∈ notWs, w ∈ s.watches (NOT lit)
  first : ∃ w ∈ ws, s.Within lit w (fun l => l = b ∨ l = c)
  second : ∃ d, (∃ w ∈ ws, s.Within lit w (fun l => l = NOT b ∨ l = d))
    ∧ ∃ w ∈ notWs, s.Within (NOT lit) w (fun l => l = NOT b ∨ l = NOT d)
  third : ∃ w ∈ notWs, s.Within (NOT lit) w (fun l => l = b ∨ l = NOT c)

theorem itePartner_some (hs : s.Connected) {lit b1 c1 : Lit} (hlit : s.value lit = none)
    {w1 : Watch} (hmem : w1 ∈ s.watches lit)
    (hw1 : s.Within lit w1 (fun l => l = b1 ∨ l = c1)) {ws : List Watch}
    (hws : ∀ w ∈ ws, w ∈ s.watches lit) {steps steps' : Nat} {f f' : Flags}
    {gates notGates : List Watch}
    (h : s.itePartner lit b1 c1 w1 ws steps f = (some (gates, notGates), steps', f')) :
  IteGate s lit gates notGates b1 c1
  := by
  induction ws generalizing steps f with
  | nil => cases h
  | cons w2 ws ih =>
      obtain ⟨hw2, hrest⟩ := List.forall_mem_cons.mp hws
      cases w2 with
      | binary other =>
          rw [itePartner] at h
          split at h
          · exact ih hrest h
          · cases h
      | large ref =>
          rw [itePartner] at h
          split at h
          swap
          · cases h
          split at h
          · exact ih hrest h
          · next clause g hclause =>
              have hwithin := fun x y z =>
                getTernaryClause_within (a := x) (b := y) (c := z) hs hlit hw2 hclause
              generalize toFront lit clause = t at h hwithin
              obtain ⟨a2, b2, c2⟩ := t
              have hwithin : s.Within lit (.large ref) (fun l => l = b2 ∨ l = c2) :=
                hwithin a2 b2 c2 rfl
              dsimp only at h
              -- the swap leaves the two literals as they are
              have hswap : ∀ t, (if STRIP b1 = STRIP c2 then (c2, b2) else (b2, c2)) = t →
                  s.Within lit (.large ref) (fun l => l = t.1 ∨ l = t.2) := by
                rintro t rfl
                split
                · exact hwithin.mono (fun l _ => Or.symm)
                · exact hwithin
              generalize (if STRIP b1 = STRIP c2 then (c2, b2) else (b2, c2)) = t at h hswap
              obtain ⟨b2, c2⟩ := t
              have hwithin := hswap _ rfl
              dsimp only at h hwithin
              split at h
              · exact ih hrest h
              split at h
              · exact ih hrest h
              · next hb =>
                  rw [not_not] at hb
                  split at h
                  · exact ih hrest h
                  · next p3 w3 g3 hp3 =>
                      split at h
                      · exact ih hrest h
                      · next p4 w4 g4 hp4 =>
                          obtain ⟨hmem3, hw3⟩ := findTernaryClause_some hp3
                          obtain ⟨hmem4, hw4⟩ := findTernaryClause_some hp4
                          have hb2 : b2 = NOT b1 := by rw [hb, NOT_NOT]
                          rw [hb2] at hwithin hw4
                          have hnot : ∀ w, w ∈ (if p3 < p4 then [w3, w4] else [w4, w3])
                              ↔ w = w3 ∨ w = w4 := by
                            intro w
                            split <;> simp [or_comm]
                          cases h
                          refine ⟨?_, ?_, ⟨w1, by simp, hw1⟩,
                            ⟨c2, ⟨_, by simp, hwithin⟩, ⟨w4, by simp [hnot], hw4⟩⟩,
                            ⟨w3, by simp [hnot], hw3⟩⟩
                          · simp [hmem, hw2]
                          · simp [hnot, hmem3, hmem4]

theorem iteGate_some (hs : s.Connected) {lit : Lit} (hlit : s.value lit = none)
    {ws : List Watch} (hws : ∀ w ∈ ws, w ∈ s.watches lit) {steps steps' : Nat} {f f' : Flags}
    {gates notGates : List Watch}
    (h : s.iteGate lit ws steps f = (some (gates, notGates), steps', f')) :
  ∃ b c, IteGate s lit gates notGates b c
  := by
  induction ws generalizing steps f with
  | nil => cases h
  | cons w1 ws ih =>
      obtain ⟨hw1, hrest⟩ := List.forall_mem_cons.mp hws
      cases w1 with
      | binary other =>
          rw [iteGate] at h
          split at h
          · exact ih hrest h
          · cases h
      | large ref =>
          rw [iteGate] at h
          split at h
          swap
          · cases h
          split at h
          · exact ih hrest h
          · next clause g hclause =>
              have hwithin := fun x y z =>
                getTernaryClause_within (a := x) (b := y) (c := z) hs hlit hw1 hclause
              generalize toFront lit clause = t at h hwithin
              obtain ⟨a1, b1, c1⟩ := t
              dsimp only at h
              split at h
              · exact ih hrest h
              · next hpartner =>
                  cases h
                  exact ⟨b1, c1, itePartner_some hs hlit hw1 (hwithin a1 b1 c1 rfl) hrest hpartner⟩

/-- Whatever the value of the selecting literal, two of the four clauses disagree. -/
theorem IteGate.refuted {lit b c : Lit} {ws notWs : List Watch}
    (h : IteGate s lit ws notWs b c) {σ : Assignment Nat} (hσ : s.Extends σ)
    (hws : ∀ w ∈ ws, Clause.SatOff σ (IDX lit) (s.watchToClause lit w))
    (hnot_ws : ∀ w ∈ notWs, Clause.SatOff σ (IDX lit) (s.watchToClause (NOT lit) w)) :
  False
  := by
  obtain ⟨d, ⟨w2, hw2, hwithin2⟩, ⟨w4, hw4, hwithin4⟩⟩ := h.second
  obtain ⟨w1, hw1, hwithin1⟩ := h.first
  obtain ⟨w3, hw3, hwithin3⟩ := h.third
  have htrue : ∀ {k l lit' : Lit} {w : Watch}, IDX lit' = IDX lit →
      s.Within lit' w (fun x => x = k ∨ x = l) →
      Clause.SatOff σ (IDX lit) (s.watchToClause lit' w) →
      σ.value k = true ∨ σ.value l = true := by
    intro k l lit' w hidx hwithin hsat
    rw [← hidx] at hsat
    obtain ⟨x, rfl | rfl, -, hval⟩ := hwithin.exists_true hσ hsat
    · exact Or.inl hval
    · exact Or.inr hval
  have h1 := htrue rfl hwithin1 (hws w1 hw1)
  have h2 := htrue rfl hwithin2 (hws w2 hw2)
  have h3 := htrue (IDX_NOT lit) hwithin3 (hnot_ws w3 hw3)
  have h4 := htrue (IDX_NOT lit) hwithin4 (hnot_ws w4 hw4)
  simp only [value_NOT] at h1 h2 h3 h4
  cases hb : σ.value b <;> simp_all

theorem findIfThenElse_gate_extracted (hs : s.Connected) (hunmarked : s.Unmarked)
    (hgates : s.NoGates) (lit : Lit) (negative : Bool) :
  Extracted s lit (s.kissatFindIfThenElseGate (side lit negative) negative)
  := by
  rw [kissatFindIfThenElseGate]
  split
  · exact ⟨⟨rfl, rfl, rfl, rfl⟩, rfl, hunmarked, fun _ => rfl, by simp⟩
  split
  · exact ⟨⟨rfl, rfl, rfl, rfl⟩, rfl, hunmarked, fun _ => rfl, by simp⟩
  dsimp only
  split
  · exact ⟨⟨rfl, rfl, rfl, rfl⟩, rfl, hunmarked, fun _ => rfl, by simp⟩
  split
  · exact ⟨⟨rfl, rfl, rfl, rfl⟩, rfl, hunmarked, fun _ => rfl, by simp⟩
  · next ws notWs steps f hite =>
      refine ⟨⟨rfl, rfl, rfl, rfl⟩, rfl, hunmarked, by simp, ?_⟩
      intro _ hlit
      have hside : s.value (side lit negative) = none :=
        (s.value_eq_none_congr (IDX_side lit negative)).mpr hlit
      obtain ⟨b, c, hgate⟩ := iteGate_some hs hside (fun w hw => hw) hite
      have hmem : ∀ n w, w ∈ pushGates (pushGates s.gates negative ws) (!negative) notWs n
          ↔ n = negative ∧ w ∈ ws ∨ n = (!negative) ∧ w ∈ notWs := by
        intro n w
        simp [mem_pushGates, hgates n]
      constructor
      · intro n w hw
        obtain ⟨rfl, hws⟩ | ⟨rfl, hws⟩ := (hmem n w).mp hw
        · exact hgate.mem w hws
        · rw [side_not]
          exact hgate.not_mem w hws
      · intro σ hσ hsat
        apply hgate.refuted hσ
        · intro w hw
          rw [IDX_side]
          exact hsat negative w ((hmem _ _).mpr (Or.inl ⟨rfl, hw⟩))
        · intro w hw
          rw [IDX_side, ← side_not]
          exact hsat (!negative) w ((hmem _ _).mpr (Or.inr ⟨rfl, hw⟩))

end Solver

end Kissat
