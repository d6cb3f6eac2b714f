import Mathlib.Data.Finset.Card
import IgnoreGates.Cadical.UipAux

/-!
# The shape of the learned clause

When the auxiliary literals above root level have reasons, both loops of `analyze` leave a
clause without auxiliary literals, whose only literal of the conflict level is `-uip`, and
whose literals lie on the levels that are listed in `levels`: the first seen literal of a level
is not erased, as the reason of an erased literal contains an earlier literal of its level.
-/

namespace Cadical

open Logic

namespace Search

variable {s : Search} {conflict : List Lit} {e : External} {last : Option Lit}

/-- What is learned: the clause `a.clause` and the levels `a.levels` for the literal `uip`. -/
structure Learned (s : Search) (e : External) (uip : Lit) (a : Analysis) : Prop where
  not_aux : ∀ k ∈ a.clause, e.isAux k = false
  uip_mem : -uip ∈ a.clause
  uip_level : (s.var (-uip)).level = s.level
  only_uip : ∀ k ∈ a.clause, (s.var k).level = s.level → k = -uip
  nodup : (a.clause.map Lit.vidx).Nodup
  level_ne_zero : ∀ k ∈ a.clause, (s.var k).level ≠ 0
  card_levels : (a.clause.map (fun k => (s.var k).level)).toFinset.card = a.levels.length

/-- The value of `glue` is less than the size of the clause. -/
theorem Learned.glue_lt {uip : Lit} {a : Analysis} (h : s.Learned e uip a) :
  (a.levels.length : Int) - 1 < a.clause.length
  := by
  have hcard := List.toFinset_card_le (a.clause.map (fun k => (s.var k).level))
  rw [h.card_levels, List.length_map] at hcard
  omega

/-! ### The bookkeeping of `analyze_literal` -/

/-- The literals of the clause are false and seen, and `last` is the only one of the conflict
level; the levels are those of the seen literals. -/
structure Tidy (s : Search) (last : Option Lit) (a : Analysis) : Prop where
  clause : ∀ k ∈ a.clause, -k ∈ s.trail ∧ a.seen k.vidx = true
  lower : ∀ k ∈ a.clause, (s.var k).level < s.level ∨ some k = last
  nodup : (a.clause.map Lit.vidx).Nodup
  levels_nodup : a.levels.Nodup
  mem_levels : ∀ n, n ∈ a.levels ↔ ∃ x ∈ s.trail, a.seen x.vidx = true ∧ (s.var x).level = n

theorem tidy_init :
  s.Tidy none .init
  where
    clause := nofun
    lower := nofun
    nodup := List.nodup_nil
    levels_nodup := List.nodup_nil
    mem_levels := by simp [Analysis.init]

theorem Tidy.analyzeLiteral {a : Analysis} (ha : s.Tidy last a) {lit : Lit}
    (hlit : -lit ∈ s.trail) :
  s.Tidy last (s.analyzeLiteral a lit)
  := by
  rw [Search.analyzeLiteral]
  split
  · exact ha
  · next hunseen =>
      split
      · exact ha
      · have hmem : ∀ k, k ∈ (if (s.var lit).level < s.level then a.clause ++ [lit] else a.clause)
            → k ∈ a.clause ∨ k = lit ∧ (s.var lit).level < s.level := by
          intro k hk
          split at hk
          · next hlt =>
              obtain hk | hk := List.mem_append.mp hk
              · exact Or.inl hk
              · exact Or.inr ⟨List.mem_singleton.mp hk, hlt⟩
          · exact Or.inl hk
        have hseen : ∀ v, Function.update a.seen lit.vidx true v = true
            ↔ a.seen v = true ∨ v = lit.vidx := by
          intro v
          rw [Function.update_apply]
          by_cases hv : v = lit.vidx <;> simp [hv]
        refine ⟨?_, ?_, ?_, ?_, ?_⟩
        · intro k hk
          obtain hk | ⟨rfl, -⟩ := hmem k hk
          · obtain ⟨hfalse, hkseen⟩ := ha.clause k hk
            exact ⟨hfalse, (hseen _).mpr (Or.inl hkseen)⟩
          · exact ⟨hlit, (hseen _).mpr (Or.inr rfl)⟩
        · intro k hk
          obtain hk | ⟨rfl, hlt⟩ := hmem k hk
          · exact ha.lower k hk
          · exact Or.inl hlt
        · simp only
          split
          · rw [List.map_append, List.map_singleton]
            apply List.Nodup.append ha.nodup (List.nodup_singleton _)
            rw [List.disjoint_singleton]
            intro hmem
            obtain ⟨k, hk, hvidx⟩ := List.mem_map.mp hmem
            apply hunseen
            rw [← hvidx]
            exact (ha.clause k hk).2
          · exact ha.nodup
        · simp only
          split
          · exact ha.levels_nodup
          · next hnew =>
              apply List.Nodup.append ha.levels_nodup (List.nodup_singleton _)
              rwa [List.disjoint_singleton]
        · intro n
          have hlevels : n ∈ (if (s.var lit).level ∈ a.levels then a.levels
              else a.levels ++ [(s.var lit).level]) ↔ n ∈ a.levels ∨ n = (s.var lit).level := by
            split
            · next hold =>
                constructor
                · exact Or.inl
                · rintro (hn | rfl)
                  · exact hn
                  · exact hold
            · rw [List.mem_append, List.mem_singleton]
          simp only
          rw [hlevels, ha.mem_levels]
          constructor
          · rintro (⟨x, hx, hxseen, hn⟩ | rfl)
            · exact ⟨x, hx, (hseen _).mpr (Or.inl hxseen), hn⟩
            · exact ⟨-lit, hlit, (hseen _).mpr (Or.inr lit.vidx_neg), by rw [var_neg]⟩
          · rintro ⟨x, hx, hxseen, rfl⟩
            obtain hold | hvidx := (hseen _).mp hxseen
            · exact Or.inl ⟨x, hx, hold, rfl⟩
            · right
              rw [var, var, hvidx]

theorem Tidy.analyzeReason {a : Analysis} (ha : s.Tidy last a) (lit : Option Lit)
    {reason : List Lit} (hreason : ∀ k ∈ reason, some k ≠ lit → -k ∈ s.trail) :
  s.Tidy last (s.analyzeReason a lit reason)
  := by
  induction reason generalizing a with
  | nil => exact ha
  | cons k reason ih =>
      rw [Search.analyzeReason, List.foldl_cons]
      apply ih _ (fun k' hk' => hreason k' (List.mem_cons_of_mem k hk'))
      split
      · next hk => exact ha.analyzeLiteral (hreason k List.mem_cons_self hk)
      · exact ha

theorem Tidy.analyzeReason_self (h : s.Inv) {a : Analysis} (ha : s.Tidy last a) {y : Lit}
    (hy : y ∈ s.trail) {r : List Lit} (hr : (s.var y).reason = some r) :
  s.Tidy last (s.analyzeReason a (some y) r)
  := ha.analyzeReason (some y) (fun _ hk hne =>
    (h.reason_false hy hr hk (fun heq => hne (congrArg some heq))).1)

theorem Tidy.uipLoop (h : s.Inv) {rest : List Lit} (hrest : rest ⊆ s.trail) {a : Analysis}
    (ha : s.Tidy last a) {u : Lit} {a' : Analysis} (hloop : s.uipLoop e a rest = some (u, a')) :
  s.Tidy last a' ∧ u ∈ s.trail ∧ a'.seen u.vidx = true ∧ (s.var u).level = s.level
  := by
  induction rest generalizing a with
  | nil => cases hloop
  | cons y rest ih =>
      have hsub : rest ⊆ s.trail := fun x hx => hrest (List.mem_cons_of_mem y hx)
      rw [Search.uipLoop] at hloop
      split at hloop
      · next hvisit =>
          have hcount : s.Tidy last { a with open_ := a.open_ - 1 } :=
            ⟨ha.clause, ha.lower, ha.nodup, ha.levels_nodup, ha.mem_levels⟩
          simp only at hloop
          split at hloop
          · cases hloop
            exact ⟨hcount, hrest List.mem_cons_self, hvisit⟩
          · split at hloop
            · cases hloop
            · next r hr =>
                exact ih hsub (hcount.analyzeReason_self h (hrest List.mem_cons_self) hr) hloop
      · exact ih hsub ha hloop

/-- Erasing a literal from the clause. -/
theorem Tidy.eraseIdx {a : Analysis} (ha : s.Tidy last a) (i : Nat) :
  s.Tidy last { a with clause := a.clause.eraseIdx i }
  where
    clause := fun k hk => ha.clause k (List.mem_of_mem_eraseIdx hk)
    lower := fun k hk => ha.lower k (List.mem_of_mem_eraseIdx hk)
    nodup := ha.nodup.sublist ((List.eraseIdx_sublist _ _).map _)
    levels_nodup := ha.levels_nodup
    mem_levels := ha.mem_levels

theorem Tidy.auxLoop (h : s.Inv) (n : Nat) {i : Nat} {a a' : Analysis} (ha : s.Tidy last a)
    (hloop : s.auxLoop e n i a = some a') :
  s.Tidy last a'
  := by
  induction n generalizing i a with
  | zero => cases hloop
  | succ n ih =>
      rw [Search.auxLoop] at hloop
      split at hloop
      · cases hloop
        exact ha
      · next lit hlit =>
          split at hloop
          · apply ih _ hloop
            apply Tidy.eraseIdx
            split
            · exact ha
            · next r hr =>
                obtain ⟨hfalse, hseen⟩ := ha.clause lit (List.mem_of_getElem? hlit)
                have hreason : (s.var (-lit)).reason = some r := by rw [var_neg, hr]
                have hcall := analyzeReason_neg (s := s) (y := -lit) (a := a)
                  (by rwa [Lit.vidx_neg]) (h.neg_not_mem_reason hfalse hreason)
                rw [Lit.neg_neg] at hcall
                rw [hcall]
                exact ha.analyzeReason_self h hfalse hreason
          · exact ih ha hloop

/-- The literal `-uip` is appended to the clause. -/
theorem Tidy.append {a : Analysis} (ha : s.Tidy none a) {u : Lit} (hu : u ∈ s.trail)
    (hseen : a.seen u.vidx = true) (hlevel : (s.var u).level = s.level) :
  s.Tidy (some (-u)) { a with clause := a.clause ++ [-u] }
  := by
  refine ⟨?_, ?_, ?_, ha.levels_nodup, ha.mem_levels⟩
  · intro k hk
    obtain hk | hk := List.mem_append.mp hk
    · exact ha.clause k hk
    · rw [List.mem_singleton.mp hk, Lit.neg_neg, Lit.vidx_neg]
      exact ⟨hu, hseen⟩
  · intro k hk
    obtain hk | hk := List.mem_append.mp hk
    · exact Or.inl ((ha.lower k hk).resolve_right nofun)
    · exact Or.inr (congrArg some (List.mem_singleton.mp hk))
  · rw [List.map_append, List.map_singleton]
    apply List.Nodup.append ha.nodup (List.nodup_singleton _)
    rw [List.disjoint_singleton]
    intro hmem
    obtain ⟨k, hk, hvidx⟩ := List.mem_map.mp hmem
    have hlt := (ha.lower k hk).resolve_right nofun
    rw [var, hvidx, ← var, var_neg, hlevel] at hlt
    apply lt_irrefl _ hlt

theorem Tidy.analyzeLoops (h : s.Inv) (hfalse : ∀ k ∈ conflict, -k ∈ s.trail) {u : Lit}
    {a : Analysis} (hloops : s.analyzeLoops e conflict = some (u, a)) :
  s.Tidy (some (-u)) a
  := by
  rw [Search.analyzeLoops] at hloops
  split at hloops
  · cases hloops
  · next uip a₁ hloop =>
      have hinit := tidy_init.analyzeReason none (fun k hk _ => hfalse k hk)
      obtain ⟨htidy, hmem, hseen, hlevel⟩ :=
        hinit.uipLoop h (fun x hx => List.mem_reverse.mp hx) hloop
      simp only at hloops
      split at hloops
      · cases hloops
      · next hloop' =>
          cases hloops
          exact (htidy.append hmem hseen hlevel).auxLoop h _ hloop'

/-! ### The literals and the levels of the clause -/

variable {done erased : List Lit} {u : Lit} {a a₁ : Analysis}

/-- The first seen literal of a level below the conflict level is in the clause. -/
theorem AuxInv.exists_mem_clause (h : s.Inv)
    (haux : s.AuxInv e conflict done u erased a.clause.length a)
    (hreason : ∀ x ∈ s.trail, e.isAux x = true → 0 < (s.var x).level → (s.var x).reason ≠ none)
    (n : Nat) :
  ∀ {pre x post}, pre.length = n → s.trail = pre ++ x :: post → a.seen x.vidx = true →
    (s.var x).level < s.level → ∃ k ∈ a.clause, (s.var k).level = (s.var x).level
  := by
  induction n using Nat.strong_induction_on with
  | h n ih =>
      intro pre x post hlen hsplit hseen hlt
      have hx : x ∈ s.trail := by
        rw [hsplit]
        exact List.mem_append_right _ List.mem_cons_self
      obtain hmem | herased := (haux.clause x hx).mpr (Or.inr ⟨hseen, hlt⟩)
      · exact ⟨-x, hmem, by rw [var_neg]⟩
      · have hpos := haux.explored.level_pos hx hseen
        obtain ⟨r, hr⟩ := Option.ne_none_iff_exists'.mp
          (hreason x hx (haux.erased_aux x herased).2 hpos)
        obtain ⟨k, hk, hkx, hklevel⟩ := h.same_level x hx r hr
        have hkpre := (h.before pre x post r hsplit hr k hk hkx).1
        have hlevel : (s.var (-k)).level = (s.var x).level := by rw [var_neg, hklevel]
        have hkmem : -k ∈ s.trail := by
          rw [hsplit]
          exact List.mem_append_left _ hkpre
        have hkseen : a.seen (-k).vidx = true := by
          apply haux.explored.of_reason x hx (Or.inr herased) r hr _ hkmem
          · rwa [Lit.neg_neg]
          · rwa [Lit.neg_neg]
          · rwa [hlevel]
        obtain ⟨pre', post', rfl⟩ := List.append_of_mem hkpre
        rw [List.append_assoc] at hsplit
        obtain ⟨k', hk', heq⟩ := ih pre'.length (by rw [← hlen, List.length_append]; simp) rfl
          hsplit hkseen (by rwa [hlevel])
        exact ⟨k', hk', heq.trans hlevel⟩

/-- The literals of the clause lie on the levels of the seen literals. -/
theorem AuxInv.mem_levels_iff (h : s.Inv) (hfound : s.UipFound e conflict done u a₁)
    (haux : s.AuxInv e conflict done u erased a.clause.length a) (htidy : s.Tidy last a)
    (hreason : ∀ x ∈ s.trail, e.isAux x = true → 0 < (s.var x).level → (s.var x).reason ≠ none)
    (hu : -u ∈ a.clause) (n : Nat) :
  n ∈ a.levels ↔ ∃ k ∈ a.clause, (s.var k).level = n
  := by
  rw [htidy.mem_levels]
  constructor
  · rintro ⟨x, hx, hseen, rfl⟩
    obtain hlt | heq := Nat.lt_or_eq_of_le (h.level_le x hx)
    · obtain ⟨pre, post, hsplit⟩ := List.append_of_mem hx
      apply haux.exists_mem_clause h hreason _ rfl hsplit hseen hlt
    · use -u, hu
      rw [var_neg, hfound.level, heq]
  · rintro ⟨k, hk, rfl⟩
    obtain ⟨hfalse, hseen⟩ := htidy.clause k hk
    exact ⟨-k, hfalse, by rwa [Lit.vidx_neg], by rw [var_neg]⟩

/-- What both loops leave. -/
theorem AuxInv.learned (h : s.Inv) (hpos : 0 < s.level)
    (hfound : s.UipFound e conflict done u a₁)
    (haux : s.AuxInv e conflict done u erased a.clause.length a) (htidy : s.Tidy last a)
    (hreason : ∀ x ∈ s.trail, e.isAux x = true → 0 < (s.var x).level →
      (s.var x).reason ≠ none) :
  s.Learned e u a
  := by
  have hmem : ∀ k ∈ a.clause, -k = u ∨ a.seen (-k).vidx = true ∧ (s.var k).level < s.level := by
    intro k hk
    have hclause := (haux.clause (-k) (haux.clause_false k hk)).mp (Or.inl (by rwa [Lit.neg_neg]))
    rwa [var_neg] at hclause
  have hu : -u ∈ a.clause := by
    apply ((haux.clause u hfound.mem).mpr (Or.inl rfl)).resolve_right
    intro herased
    have huaux := (haux.erased_aux u herased).2
    obtain hstop | hstop := hfound.stop
    · rw [hstop] at huaux
      cases huaux
    · apply hreason u hfound.mem huaux (by rwa [hfound.level]) hstop
  have hlevels := haux.mem_levels_iff h hfound htidy hreason hu
  refine ⟨fun k hk => haux.isAux_eq_false hk, hu, ?_, ?_, htidy.nodup, ?_, ?_⟩
  · rw [var_neg, hfound.level]
  · intro k hk hlevel
    obtain rfl | ⟨-, hlt⟩ := hmem k hk
    · rw [Lit.neg_neg]
    · omega
  · intro k hk
    obtain rfl | ⟨hseen, -⟩ := hmem k hk
    · have hlevel := hfound.level
      rw [var_neg] at hlevel
      omega
    · have hkpos := haux.explored.level_pos (haux.clause_false k hk) hseen
      rw [var_neg] at hkpos
      omega
  · rw [← List.toFinset_card_of_nodup htidy.levels_nodup]
    congr 1
    ext n
    rw [List.mem_toFinset, List.mem_toFinset, List.mem_map, hlevels]

/-! ### The conflict analysis -/

/-- In every reachable state with a conflict above root level whose auxiliary literals above
root level have reasons, both loops come to their ends, and the clause has the described
shape; unless the only literal of the conflict on its level is flipped, this is the clause that
is learned. -/
theorem analyze_learned (e : External) {chrono : Bool} (h : Reachable s)
    (hconf : s.IsConflict chrono conflict)
    (hlevel : (s.conflictState chrono conflict).level ≠ 0)
    (haux : ∀ x ∈ s.trail, e.isAux x = true → 0 < (s.var x).level → (s.var x).reason ≠ none) :
  ∃ uip a, (s.conflictState chrono conflict).analyzeLoops e conflict = some (uip, a)
    ∧ (s.conflictState chrono conflict).Learned e uip a
    ∧ (a.levels.length : Int) - 1 < a.clause.length
    ∧ ((∃ lit, s.analyze e chrono conflict = some (.forced lit))
      ∨ ∃ drivingClause jump,
        s.analyze e chrono conflict = some (.driving a.clause uip drivingClause jump))
  := by
  obtain ⟨hinv, hfalse, hmem⟩ := h.inv.conflictState hconf
  have hpos := Nat.pos_of_ne_zero hlevel
  have hreason : ∀ x ∈ (s.conflictState chrono conflict).trail, e.isAux x = true →
      0 < ((s.conflictState chrono conflict).var x).level →
      ((s.conflictState chrono conflict).var x).reason ≠ none := by
    rw [conflictState]
    cases chrono with
    | false => exact haux
    | true =>
        intro x hx
        exact haux x (List.mem_of_mem_filter hx)
  obtain ⟨u, a, a₁, done, erased, hloops, hfound, hend⟩ :=
    hinv.analyzeLoops (e := e) hfalse hpos (hmem hlevel)
  have htidy := Tidy.analyzeLoops hinv hfalse hloops
  have hlearned := hend.learned hinv hpos hfound htidy hreason
  refine ⟨u, a, hloops, hlearned, hlearned.glue_lt, ?_⟩
  rw [analyze]
  generalize (if chrono = true then (s.findConflictLevel conflict).2 else none) = forced
  cases forced with
  | some lit => exact Or.inl ⟨lit, rfl⟩
  | none =>
      right
      simp only [if_neg hlevel, hloops]
      exact ⟨_, _, rfl⟩

/-- The auxiliary literal 3 is replaced by the literals of its reason. -/
theorem analyze_learned_twoDecisions :
  ∃ uip a, (twoDecisions.conflictState true [lit (-1), lit (-2), lit (-3)]).analyzeLoops
      ⟨{3}, id⟩ [lit (-1), lit (-2), lit (-3)] = some (uip, a)
    ∧ (twoDecisions.conflictState true [lit (-1), lit (-2), lit (-3)]).Learned ⟨{3}, id⟩ uip a
    ∧ (a.levels.length : Int) - 1 < a.clause.length
    ∧ ((∃ l, twoDecisions.analyze ⟨{3}, id⟩ true [lit (-1), lit (-2), lit (-3)]
        = some (.forced l))
      ∨ ∃ drivingClause jump, twoDecisions.analyze ⟨{3}, id⟩ true
        [lit (-1), lit (-2), lit (-3)] = some (.driving a.clause uip drivingClause jump))
  := analyze_learned ⟨{3}, id⟩ twoDecisions_reachable twoDecisions_isConflict (by decide +kernel)
    (by decide +kernel)

end Search

end Cadical
