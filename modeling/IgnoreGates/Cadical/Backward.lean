import Mathlib.Data.List.MinMax
import IgnoreGates.Cadical.BinaryGates
import IgnoreGates.Logic.Subsumption

/-!
# Backward subsumption

New clauses are compared with the clauses that contain the literal with the fewest
occurrences.  These candidates are removed when they are satisfied or subsumed, and
strengthened when all but one of the literals match.  Here the comparison of a candidate is
described by what its literals are; the variables `satisfied` and `size` are not set back
before the next candidate.
-/

namespace Cadical

open Logic

/-- The largest number of type `unsigned`. -/
def uintMax : Nat :=
  2 ^ 32 - 1

namespace Eliminator

/-- The state with the variables of the loop over the literals of the clause. -/
structure MarkLoop where
  state : Eliminator
  len : Nat
  size : Nat
  best : Option Lit

/-- The loop over the literals of the clause, with the value of `satisfied`. -/
def markLoop : List Lit → MarkLoop → MarkLoop × Bool
  | [], m => (m, false)
  | lit :: rest, m =>
      match m.state.val lit with
      | some true => (m, true)
      | some false => markLoop rest m
      | none =>
          let l := (m.state.occs lit).length
          markLoop rest
            { state := m.state.mark lit
              len := if l < m.len then l else m.len
              size := m.size + 1
              best := if l < m.len then some lit else m.best }

/-- The variables of the loop over the candidates; the first two keep their values. -/
structure Comparison where
  satisfied : Bool
  size : Nat
  negated : Option Lit
  found : Nat

variable (s : Eliminator)

/-- The loop over the literals of a candidate. -/
def matchLoop : List Lit → Comparison → Comparison
  | [], v => v
  | lit :: rest, v =>
      match s.val lit with
      | some true => { v with satisfied := true }
      | some false => matchLoop rest v
      | none =>
          if s.marked lit = 0 then matchLoop rest v
          else if s.marked lit < 0 ∧ v.negated.isSome then { v with size := uintMax }
          else
            let v := { v with
              negated := if s.marked lit < 0 then some lit else v.negated
              found := v.found + 1 }
            if v.found = v.size then v else matchLoop rest v

/-- The loop that looks for a unit in a candidate without the literal `negated`. -/
def unitLoop (negated : Lit) : List Lit → Scan → Scan
  | [], unit => unit
  | lit :: rest, unit =>
      match s.val lit with
      | some false => unitLoop negated rest unit
      | some true => .satisfied
      | none =>
          if lit = negated then unitLoop negated rest unit
          else if unit = .falsified then unitLoop negated rest (.unit lit)
          else .several

/-- `strengthen_clause` -/
def strengthenClause (d : Nat) (lit : Lit) : Eliminator :=
  { s with clauses := s.clauses.set d ((s.clause d).filter (· ≠ lit)) }

/-- `remove_occs (occs (lit), d)` -/
def removeOccs (lit : Lit) (d : Nat) : Eliminator :=
  { s with occs := Function.update s.occs lit ((s.occs lit).filter (· ≠ d)) }

/-- `unmark` for the literals of a clause. -/
def unmarkClause (c : Nat) : Eliminator :=
  (s.clause c).foldl unmark s

end Eliminator

/-- The eliminator with the queue of clauses that have to be checked. -/
structure Backward extends Eliminator where
  backward : List Nat
  enqueued : Nat → Bool

namespace Backward

variable (s : Backward)

/-- `Eliminator::enqueue` -/
def enqueue (c : Nat) : Backward :=
  if s.opts.elimbackward = false then s
  else if s.enqueued c then s
  else
    { s with
      backward := s.backward ++ [c]
      enqueued := Function.update s.enqueued c true }

/-- Another state of the eliminator with the same queue. -/
def setEliminator (t : Eliminator) : Backward :=
  { s with toEliminator := t }

/-- The loop over the candidates. -/
def candidatesLoop (c : Nat) : List Nat → Backward → Eliminator.Comparison → Backward
  | [], s, _ => s
  | d :: ds, s, v =>
      if d = c ∨ s.garbage d = true ∨ (s.clause d).length < v.size then candidatesLoop c ds s v
      else
        let v := s.matchLoop (s.clause d) { v with negated := none, found := 0 }
        if v.satisfied then candidatesLoop c ds (s.setEliminator (s.markGarbage d)) v
        else if v.found = v.size then
          match v.negated with
          | none => candidatesLoop c ds (s.setEliminator (s.markGarbage d)) v
          | some negated =>
              match s.unitLoop negated (s.clause d) .falsified with
              | .satisfied =>
                  candidatesLoop c ds (s.setEliminator (s.markGarbage d))
                    { v with satisfied := true }
              | .unit unit => s.setEliminator ((s.assignUnit unit).elimPropagate unit)
              | _ =>
                  if (s.occs negated).length ≤ s.opts.elimocclim then
                    candidatesLoop c ds ((s.setEliminator
                      ((s.strengthenClause d negated).removeOccs negated d)).enqueue d) v
                  else candidatesLoop c ds s v
        else candidatesLoop c ds s v

/-- `elim_backward_clause` -/
def elimBackwardClause (c : Nat) : Backward :=
  if s.garbage c then s
  else
    match Eliminator.markLoop (s.clause c) ⟨s.toEliminator, uintMax, 0, none⟩ with
    | (m, true) => s.setEliminator ((m.state.markGarbage c).unmarkClause c)
    | (m, false) =>
        if s.opts.elimocclim < m.len then s.setEliminator (m.state.unmarkClause c)
        else
          let candidates := match m.best with
            | none => []
            | some best => m.state.occs best
          let t := candidatesLoop c candidates (s.setEliminator m.state) ⟨false, m.size, none, 0⟩
          t.setEliminator (t.unmarkClause c)

end Backward

namespace Eliminator

variable (s : Eliminator)

/-! ### What the literals of a candidate are -/

/-- The first unassigned literal of the clause with the fewest occurrences. -/
def best (c : Nat) : Option Lit :=
  (s.free c).argmin (fun l => (s.occs l).length)

/-- The candidates that are compared. -/
def Comparable (c d : Nat) : Prop :=
  d ≠ c ∧ s.garbage d = false ∧ (s.free c).length ≤ (s.clause d).length

/-- The literals whose complements are in `c`. -/
def opposed (c : Nat) (lits : List Lit) : List Lit :=
  lits.filter (fun l => s.val l = none ∧ -l ∈ s.clause c)

/-- The literals whose variables are in `c`. -/
def common (c : Nat) (lits : List Lit) : List Lit :=
  lits.filter (fun l => s.val l = none ∧ (l ∈ s.clause c ∨ -l ∈ s.clause c))

/-- The comparison goes on behind these literals. -/
def Compared (c : Nat) (lits : List Lit) : Prop :=
  (∀ l ∈ lits, s.val l ≠ some true) ∧ (s.opposed c lits).length ≤ 1
    ∧ (s.common c lits).length < (s.free c).length

/-- The comparison meets a true literal. -/
def MeetsTrue (c : Nat) (lits : List Lit) : Prop :=
  ∃ pre lit post, lits = pre ++ lit :: post ∧ s.Compared c pre ∧ s.val lit = some true

/-- The comparison meets a second literal whose complement is in `c`. -/
def MeetsTwo (c : Nat) (lits : List Lit) : Prop :=
  ∃ pre lit post, lits = pre ++ lit :: post ∧ s.Compared c pre ∧ s.val lit = none
    ∧ -lit ∈ s.clause c ∧ (s.opposed c pre).length = 1

/-- The comparison meets all variables of `c`, and the literals in `negated` are the complements
of literals of `c`. -/
def MeetsAll (c : Nat) (lits negated : List Lit) : Prop :=
  ∃ pre lit post, lits = pre ++ lit :: post ∧ s.Compared c pre ∧ s.val lit = none
    ∧ (lit ∈ s.clause c ∨ -lit ∈ s.clause c)
    ∧ (s.common c pre).length + 1 = (s.free c).length
    ∧ s.opposed c (pre ++ [lit]) = negated ∧ negated.length ≤ 1

/-- The unassigned literals other than `negated`. -/
def others (negated : Lit) (lits : List Lit) : List Lit :=
  lits.filter (fun l => s.val l = none ∧ l ≠ negated)

/-- The variable `satisfied` is set for the candidate. -/
def SetsSatisfied (c d : Nat) : Prop :=
  s.MeetsTrue c (s.clause d) ∨ ∃ negated, s.MeetsAll c (s.clause d) [negated]
    ∧ ∃ pre lit post, s.clause d = pre ++ lit :: post ∧ s.val lit = some true
      ∧ (s.others negated pre).length ≤ 1

/-- A unit is derived from the candidate. -/
def GivesUnit (c d : Nat) : Prop :=
  ∃ negated, s.MeetsAll c (s.clause d) [negated] ∧ (∀ l ∈ s.clause d, s.val l ≠ some true)
    ∧ (s.others negated (s.clause d)).length = 1

/-- The candidate is satisfied, or subsumed by `c` without its false literals. -/
def Redundant (c d : Nat) : Prop :=
  s.Satisfied (s.clause d)
    ∨ Clause.Subsumes (fun l => s.val l = some false) (s.clause c) (s.clause d)

/-- Behind these candidates, `satisfied` is still set from one of them and `size` has not been
changed. -/
def StillSatisfied (c : Nat) (ds : List Nat) : Prop :=
  (∃ pre d post, ds = pre ++ d :: post ∧ s.Comparable c d ∧ s.SetsSatisfied c d
      ∧ ∀ x ∈ pre, s.Comparable c x → ¬ s.GivesUnit c x)
    ∧ ∀ x ∈ ds, s.Comparable c x → ¬ s.MeetsTwo c (s.clause x)

/-- Candidates for which `satisfied` is still set are redundant. -/
def NoneMistaken (c : Nat) : Prop :=
  s.garbage c = false → ¬ s.Satisfied (s.clause c) → ∀ best ∈ s.best c,
    (s.occs best).length ≤ s.opts.elimocclim → ∀ pre d post, s.occs best = pre ++ d :: post →
      s.Comparable c d → s.StillSatisfied c pre → s.Redundant c d

/-! ### Marks -/

variable {s}

theorem marked_mark_self (lit : Lit) :
  (s.mark lit).marked lit = 1
  := by
  simp only [marked, mark, Function.update_self]
  split <;> rfl

theorem marked_mark_of_ne {k lit : Lit} (h : k.vidx ≠ lit.vidx) :
  (s.mark lit).marked k = s.marked k
  := by
  simp [marked, mark, h]

/-- The unassigned literals of the list are marked, and otherwise no marks have changed. -/
structure Marks (s t : Eliminator) (lits : List Lit) : Prop where
  same : ∃ marks, t = { s with marks }
  mem : ∀ l ∈ lits, s.val l = none → t.marked l = 1
  other : ∀ l, l.vidx ∉ lits.map Lit.vidx → t.marked l = s.marked l

/-- The loop over the literals of the clause, up to a true literal. -/
theorem markLoop_true {lits : List Lit} {m : MarkLoop} (h : ∃ l ∈ lits, m.state.val l = some true) :
  (markLoop lits m).2 = true ∧ ∃ marks, (markLoop lits m).1.state = { m.state with marks }
  := by
  induction lits generalizing m with
  | nil =>
      obtain ⟨l, hl, -⟩ := h
      cases hl
  | cons lit rest ih =>
      rw [markLoop]
      split
      · exact ⟨rfl, m.state.marks, rfl⟩
      · next hfalse =>
          apply ih
          obtain ⟨l, hl, htrue⟩ := h
          obtain rfl | hl := List.mem_cons.mp hl
          · rw [hfalse] at htrue
            cases htrue
          · exact ⟨l, hl, htrue⟩
      · next hnone =>
          have hrest : ∃ l ∈ rest, m.state.val l = some true := by
            obtain ⟨l, hl, htrue⟩ := h
            obtain rfl | hl := List.mem_cons.mp hl
            · rw [hnone] at htrue
              cases htrue
            · exact ⟨l, hl, htrue⟩
          exact ih (m := ⟨m.state.mark lit, _, _, _⟩) hrest

/-- The loop over the literals of the clause when none is true. -/
theorem markLoop_marks {lits : List Lit} {m : MarkLoop}
    (hnodup : (lits.map Lit.vidx).Nodup) (h : ∀ l ∈ lits, m.state.val l ≠ some true) :
  (markLoop lits m).2 = false ∧ Marks m.state (markLoop lits m).1.state lits
    ∧ (markLoop lits m).1.size = m.size + (lits.filter (fun l => m.state.val l = none)).length
  := by
  induction lits generalizing m with
  | nil => exact ⟨rfl, ⟨⟨m.state.marks, rfl⟩, nofun, fun _ _ => rfl⟩, rfl⟩
  | cons lit rest ih =>
      rw [List.map_cons, List.nodup_cons] at hnodup
      obtain ⟨hlit, hrest⟩ := List.forall_mem_cons.mp h
      rw [markLoop]
      split
      · next htrue => exact absurd htrue hlit
      · next hfalse =>
          obtain ⟨hfst, hmarks, hsize⟩ := ih hnodup.2 hrest
          refine ⟨hfst, ⟨hmarks.same, ?_, ?_⟩, ?_⟩
          · intro l hl hnone
            obtain rfl | hl := List.mem_cons.mp hl
            · rw [hfalse] at hnone
              cases hnone
            · exact hmarks.mem l hl hnone
          · intro l hl
            exact hmarks.other l (fun hmem => hl (List.mem_cons_of_mem _ hmem))
          · rw [hsize, List.filter_cons, if_neg (by simp [hfalse])]
      · next hnone =>
          obtain ⟨hfst, hmarks, hsize⟩ := ih (m := ⟨m.state.mark lit, _, m.size + 1, _⟩)
            hnodup.2 hrest
          refine ⟨hfst, ⟨hmarks.same, ?_, ?_⟩, ?_⟩
          · intro l hl hval
            obtain rfl | hl := List.mem_cons.mp hl
            · exact (hmarks.other l hnodup.1).trans (marked_mark_self l)
            · exact hmarks.mem l hl hval
          · intro l hl
            rw [List.map_cons, List.mem_cons, not_or] at hl
            exact (hmarks.other l hl.2).trans (marked_mark_of_ne hl.1)
          · have hlit : decide (m.state.val lit = none) = true := by simpa using hnone
            rw [List.filter_cons, if_pos hlit, List.length_cons]
            change _ = m.size + 1 + (rest.filter (fun l => m.state.val l = none)).length at hsize
            apply hsize.trans
            omega

theorem markLoop_append {pre : List Lit} (rest : List Lit) {m : MarkLoop}
    (h : ∀ l ∈ pre, m.state.val l ≠ some true) :
  markLoop (pre ++ rest) m = markLoop rest (markLoop pre m).1
  := by
  induction pre generalizing m with
  | nil => rfl
  | cons lit pre ih =>
      obtain ⟨hlit, hpre⟩ := List.forall_mem_cons.mp h
      rw [List.cons_append, markLoop, markLoop]
      split
      · next htrue => exact absurd htrue hlit
      · exact ih hpre
      · exact ih (m := ⟨m.state.mark lit, _, _, _⟩) hpre

/-- The variables `best` and `len` behind the loop. -/
theorem markLoop_best {lits : List Lit} (hnodup : (lits.map Lit.vidx).Nodup)
    (h : ∀ l ∈ lits, s.val l ≠ some true) :
  (markLoop lits ⟨s, uintMax, 0, none⟩).1.best
      = ((lits.filter (fun l => s.val l = none)).argmin (fun l => (s.occs l).length)).filter
        (fun l => (s.occs l).length < uintMax)
    ∧ (markLoop lits ⟨s, uintMax, 0, none⟩).1.len
      = ((markLoop lits ⟨s, uintMax, 0, none⟩).1.best.map
        (fun l => (s.occs l).length)).getD uintMax
  := by
  induction lits using List.reverseRecOn with
  | nil => exact ⟨rfl, rfl⟩
  | append_singleton lits lit ih =>
      rw [List.map_append, List.nodup_append'] at hnodup
      have hpre : ∀ l ∈ lits, s.val l ≠ some true :=
        fun l hl => h l (List.mem_append_left _ hl)
      obtain ⟨hbest, hlen⟩ := ih hnodup.1 hpre
      obtain ⟨-, ⟨⟨marks, hsame⟩, -, -⟩, -⟩ :=
        markLoop_marks (m := ⟨s, uintMax, 0, none⟩) hnodup.1 hpre
      rw [markLoop_append _ hpre, List.filter_append]
      generalize (markLoop lits ⟨s, uintMax, 0, none⟩).1 = r at *
      obtain ⟨t, len, size, best⟩ := r
      subst hsame
      simp only at hbest hlen
      rw [markLoop]
      split
      · next htrue => exact absurd htrue (h lit (List.mem_append_right _ List.mem_cons_self))
      · next hfalse =>
          have hfalse' : s.val lit = some false := hfalse
          rw [List.filter_cons, if_neg (by simp [hfalse']), List.filter_nil, List.append_nil]
          exact ⟨hbest, hlen⟩
      · next hnone =>
          have hnone' : s.val lit = none := hnone
          rw [List.filter_cons, if_pos (by simpa using hnone'), List.filter_nil,
            List.argmin_concat]
          simp only [markLoop]
          generalize (lits.filter (fun l => s.val l = none)).argmin
            (fun l => (s.occs l).length) = o at hbest
          cases o with
          | none =>
              rw [Option.filter_none] at hbest
              subst hbest hlen
              by_cases hlt : (s.occs lit).length < uintMax
              · simp [hlt, Option.filter]
              · simp [hlt, Option.filter]
          | some b =>
              by_cases hb : (s.occs b).length < uintMax
              · have hbest' : best = some b := by simpa [Option.filter, hb] using hbest
                subst hbest'
                have hlen' : len = (s.occs b).length := hlen
                subst hlen'
                by_cases hlt : (s.occs lit).length < (s.occs b).length
                · simp [hlt, hlt.trans hb, Option.filter]
                · simp [hlt, hb, Option.filter]
              · have hbest' : best = none := by simpa [Option.filter, hb] using hbest
                subst hbest' hlen
                by_cases hlt : (s.occs lit).length < uintMax
                · have hlt' : (s.occs lit).length < (s.occs b).length := by omega
                  simp [hlt, hlt', Option.filter]
                · by_cases hlt' : (s.occs lit).length < (s.occs b).length
                  · simp [hlt, hlt', Option.filter]
                  · simp [hlt, hlt', hb, Option.filter]

end Eliminator

end Cadical
